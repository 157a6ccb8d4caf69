import Ironcat.HeaderRuns

/-!
# The best tip

`best_known_tip` is kept up incrementally when a header is stored and recomputed
from the candidates, the active tip and `tips`, everywhere else. It is maximal
among the valid headers as long as the candidates cover every valid header.
-/

namespace Ironcat.BestTip

open Lib.Checked Lib.Forest Lib.Runs Types Difficulty Headers HeaderTree HeaderRuns

variable {P : Primitives} {genesis : BlockHeader} {hs hs' : HeaderStore}

/-- The headers `recompute_best_tip` chooses from. -/
def candidates (hs : HeaderStore) : List Hash256 := hs.tip.1 :: hs.tips

def Invalid (hs : HeaderStore) (hash : Hash256) : Prop :=
  ∃ m ∈ hs.invalidTips, Descends (parentOf hs) hash m

variable {k c : Hash256}

section Attach

variable {hash : Hash256} {s : StoredHeader} {extend : Bool}

theorem invalid_attach_of_ne (ha : Attachable P hs hash s extend) (htree : Tree P genesis hs)
    (hk : k ≠ hash) : Invalid (attach hs hash s extend) k ↔ Invalid hs k := by
  simp only [Invalid, ha.descends_iff_of_ne htree hk]
  rfl

theorem invalid_attach_hash (ha : Attachable P hs hash s extend) (htree : Tree P genesis hs) :
    Invalid (attach hs hash s extend) hash ↔ hash ∈ hs.invalidTips ∨ Invalid hs s.header.prevHash := by
  simp only [Invalid, ha.descends_hash_iff htree]
  change (∃ m ∈ hs.invalidTips, _) ↔ _
  grind

theorem tip_attach (ha : Attachable P hs hash s extend) :
    (attach hs hash s extend).tip.1 = if extend then hash else hs.tip.1 := by
  cases extend <;> simp [attach, HeaderStore.tip]

theorem mem_candidates_attach (ha : Attachable P hs hash s extend)
    (hc : c ∈ candidates (attach hs hash s extend)) : c = hash ∨ c ∈ candidates hs := by
  simp only [candidates, List.mem_cons, tip_attach ha] at hc ⊢
  rcases hc with hc | hc
  · cases extend <;> simp_all
  · have hc' : c ∈ insertTip hash (removeTip s.header.prevHash hs.tips) := hc
    simp only [mem_insertTip, mem_removeTip] at hc'
    tauto

theorem hash_mem_candidates : hash ∈ candidates (attach hs hash s extend) :=
  List.mem_cons_of_mem _ (mem_insertTip.mpr (.inl rfl))

theorem candidate_kept (ha : Attachable P hs hash s extend) (htree : Tree P genesis hs)
    (hc : c ∈ candidates hs) :
    c ∈ candidates (attach hs hash s extend) ∨ c = s.header.prevHash := by
  by_cases hprev : c = s.header.prevHash
  · exact .inr hprev
  · left
    rcases List.mem_cons.mp hc with rfl | hc
    · cases extend with
      | false => exact List.mem_cons_self
      | true =>
        obtain ⟨_, hlast, _⟩ := htree.tip_eq
        exact absurd (Option.some.inj (hlast.symm.trans (ha.onTip rfl))) hprev
    · refine List.mem_cons_of_mem _ (mem_insertTip.mpr (.inr ?_))
      exact mem_removeTip.mpr ⟨hc, hprev⟩

end Attach

theorem foldl_betterTip (hs : HeaderStore) (l : List Hash256) (best : Hash256 × ℕ) :
    best.2 ≤ (l.foldl hs.betterTip best).2 ∧
      (∀ t ∈ l, ∀ s, hs.get t = some s → s.chainwork ≤ (l.foldl hs.betterTip best).2) ∧
      (l.foldl hs.betterTip best = best ∨
        ∃ t ∈ l, ∃ s, hs.get t = some s ∧ l.foldl hs.betterTip best = (t, s.chainwork)) := by
  induction l generalizing best with
  | nil => simp
  | cons t l ih =>
    obtain ⟨hle, hmax, hmem⟩ := ih (hs.betterTip best t)
    have hstep : best.2 ≤ (hs.betterTip best t).2 ∧
        (∀ s, hs.get t = some s → s.chainwork ≤ (hs.betterTip best t).2) ∧
        (hs.betterTip best t = best ∨
          ∃ s, hs.get t = some s ∧ hs.betterTip best t = (t, s.chainwork)) := by
      unfold HeaderStore.betterTip
      cases hget : hs.get t with
      | none => simp
      | some s =>
        by_cases hlt : best.2 < s.chainwork
        · simp [hlt, hlt.le]
        · simp [hlt, not_lt.mp hlt]
    refine ⟨hstep.1.trans hle, ?_, ?_⟩
    · intro u hu s hs'
      rcases List.mem_cons.mp hu with rfl | hu
      · exact (hstep.2.1 s hs').trans hle
      · exact hmax u hu s hs'
    · rcases hmem with heq | ⟨u, hu, s, hs', heq⟩
      · rcases hstep.2.2 with hbest | ⟨s, hs', hbest⟩
        · exact .inl (heq.trans hbest)
        · exact .inr ⟨t, List.mem_cons_self, s, hs', heq.trans hbest⟩
      · exact .inr ⟨u, List.mem_cons_of_mem t hu, s, hs', heq⟩

theorem recomputeBestTip_start (ord : IterOrder) {t : StoredHeader}
    (ht : hs.get hs.tip.1 = some t) : (hs.recomputeBestTip ord).bestKnownTip =
      (ord.list hs.tips).foldl hs.betterTip (hs.tip.1, t.chainwork) := by
  change (ord.list hs.tips).foldl hs.betterTip
    (hs.tip.1, ((hs.get hs.tip.1).map StoredHeader.chainwork).getD 0) = _
  rw [ht]
  rfl

theorem recomputeBestTip_spec (ord : IterOrder) (hs : HeaderStore)
    (htip : ∃ s, hs.get hs.tip.1 = some s) :
    ∃ c ∈ candidates hs, ∃ s, hs.get c = some s ∧
      (hs.recomputeBestTip ord).bestKnownTip = (c, s.chainwork) ∧
      ∀ c' ∈ candidates hs, ∀ s', hs.get c' = some s' → s'.chainwork ≤ s.chainwork := by
  obtain ⟨t, ht⟩ := htip
  have hstart := recomputeBestTip_start ord ht
  obtain ⟨hle, hmax, hmem⟩ := foldl_betterTip hs (ord.list hs.tips) (hs.tip.1, t.chainwork)
  have hall : ∀ c' ∈ candidates hs, ∀ s', hs.get c' = some s' →
      s'.chainwork ≤ ((ord.list hs.tips).foldl hs.betterTip (hs.tip.1, t.chainwork)).2 := by
    intro c' hc' s' hs'
    rcases List.mem_cons.mp hc' with rfl | hc'
    · rw [ht, Option.some.injEq] at hs'
      exact hs' ▸ hle
    · exact hmax c' ((ord.perm hs.tips).mem_iff.mpr hc') s' hs'
  rcases hmem with heq | ⟨c, hc, s, hs', heq⟩
  · rw [heq] at hall
    exact ⟨hs.tip.1, List.mem_cons_self, t, ht, hstart.trans heq, hall⟩
  · rw [heq] at hall
    exact ⟨c, List.mem_cons_of_mem _ ((ord.perm hs.tips).mem_iff.mp hc), s, hs',
      hstart.trans heq, hall⟩

structure Covering (hs : HeaderStore) : Prop where
  stored : ∀ c ∈ candidates hs, c ∈ hs.byHash
  valid : ∀ c ∈ candidates hs, ¬ Invalid hs c
  cover : ∀ hash ∈ hs.byHash, ¬ Invalid hs hash →
    ∃ c ∈ candidates hs, Descends (parentOf hs) c hash

structure TipsCovered (hs : HeaderStore) : Prop extends Covering hs where
  best_stored : ∃ s, hs.get hs.bestKnownTip.1 = some s ∧ hs.bestKnownTip.2 = s.chainwork
  best_valid : ¬ Invalid hs hs.bestKnownTip.1
  best_max : ∀ c ∈ candidates hs, ∀ s, hs.get c = some s → s.chainwork ≤ hs.bestKnownTip.2

theorem Covering.recomputeBestTip (h : Covering hs) (ord : IterOrder) :
    TipsCovered (hs.recomputeBestTip ord) := by
  have htip := Finmap.mem_iff.mp (h.stored hs.tip.1 List.mem_cons_self)
  obtain ⟨c, hc, s, hs', hbest, hmax⟩ := recomputeBestTip_spec ord hs htip
  refine ⟨⟨h.stored, h.valid, h.cover⟩, ⟨s, ?_, ?_⟩, ?_, ?_⟩
  · rw [hbest]
    exact hs'
  · rw [hbest]
  · rw [hbest]
    exact h.valid c hc
  · rw [hbest]
    exact hmax

theorem Covering.attach {hash : Hash256} {s : StoredHeader} {extend : Bool} (h : Covering hs)
    (htree : Tree P genesis hs) (ha : Attachable P hs hash s extend)
    (hnew : ¬ Invalid (attach hs hash s extend) hash) : Covering (attach hs hash s extend) := by
  have hne : ∀ {k}, k ∈ hs.byHash → k ≠ hash := fun hk heq => ha.fresh (heq ▸ hk)
  refine ⟨?_, ?_, ?_⟩
  · intro c hc
    rcases mem_candidates_attach ha hc with rfl | hc
    · exact Finmap.mem_insert.mpr (.inl rfl)
    · exact Finmap.mem_insert.mpr (.inr (h.stored c hc))
  · intro c hc
    rcases mem_candidates_attach ha hc with rfl | hc
    · exact hnew
    · rw [invalid_attach_of_ne ha htree (hne (h.stored c hc))]
      exact h.valid c hc
  · intro k hk hvalid
    rcases Finmap.mem_insert.mp hk with rfl | hk
    · exact ⟨k, hash_mem_candidates, Descends.refl k⟩
    · rw [invalid_attach_of_ne ha htree (hne hk)] at hvalid
      obtain ⟨c, hc, hck⟩ := h.cover k hk hvalid
      rcases candidate_kept ha htree hc with hc' | rfl
      · refine ⟨c, hc', ?_⟩
        rwa [ha.descends_iff_of_ne htree (hne (h.stored c hc))]
      · refine ⟨hash, hash_mem_candidates, ?_⟩
        rw [ha.descends_hash_iff htree]
        exact .inr hck

theorem TipsCovered.attach {hash : Hash256} {s : StoredHeader} {extend : Bool} (h : TipsCovered hs)
    (htree : Tree P genesis hs) (ha : Attachable P hs hash s extend)
    (hhash : hash ∉ hs.invalidTips) (hprev : ¬ Invalid hs s.header.prevHash) :
    TipsCovered (attach hs hash s extend) := by
  have hnew : ¬ Invalid (HeaderTree.attach hs hash s extend) hash := by
    rw [invalid_attach_hash ha htree]
    exact not_or.mpr ⟨hhash, hprev⟩
  have hbest : (HeaderTree.attach hs hash s extend).bestKnownTip =
      if hs.bestKnownTip.2 < s.chainwork then (hash, s.chainwork) else hs.bestKnownTip := rfl
  obtain ⟨b, hb, hbwork⟩ := h.best_stored
  have hbne : hs.bestKnownTip.1 ≠ hash := fun heq =>
    ha.fresh (heq ▸ Finmap.mem_of_lookup_eq_some hb)
  refine ⟨h.toCovering.attach htree ha hnew, ?_, ?_, ?_⟩
  · rw [hbest]
    split_ifs
    · exact ⟨s, by simp [get_attach], rfl⟩
    · exact ⟨b, by simpa [get_attach, hbne] using hb, hbwork⟩
  · rw [hbest]
    split_ifs
    · exact hnew
    · rw [invalid_attach_of_ne ha htree hbne]
      exact h.best_valid
  · have hle : hs.bestKnownTip.2 ≤ (HeaderTree.attach hs hash s extend).bestKnownTip.2 ∧
        s.chainwork ≤ (HeaderTree.attach hs hash s extend).bestKnownTip.2 := by
      rw [hbest]
      split_ifs with hlt
      · exact ⟨hlt.le, le_rfl⟩
      · exact ⟨le_rfl, not_lt.mp hlt⟩
    intro c hc t ht
    rw [get_attach] at ht
    split_ifs at ht with heq
    · exact Option.some.inj ht ▸ hle.2
    · have hc' := (mem_candidates_attach ha hc).resolve_left heq
      exact (h.best_max c hc' t ht).trans hle.1

variable {ord : IterOrder}

theorem mem_tips_markInvalid {hash t : Hash256} (htree : Tree P genesis hs) :
    t ∈ (hs.markInvalid ord hash).tips ↔ t ∈ hs.tips ∧ ¬ Descends (parentOf hs) t hash := by
  change t ∈ (removeTip hash hs.tips).filter _ ↔ _
  simp only [List.mem_filter, mem_removeTip, decide_eq_true_eq, htree.descendsFrom_iff]
  constructor
  · rintro ⟨⟨ht, hne⟩, hdesc⟩
    exact ⟨ht, fun h => hdesc ⟨⟨ht, hne⟩, h⟩⟩
  · rintro ⟨ht, hdesc⟩
    refine ⟨⟨ht, ?_⟩, fun h => hdesc h.2⟩
    rintro rfl
    exact hdesc (Descends.refl _)

theorem mem_invalidTips_markInvalid {hash m : Hash256} (htree : Tree P genesis hs) :
    m ∈ (hs.markInvalid ord hash).invalidTips ↔
      m ∈ hs.invalidTips ∨ m = hash ∨ m ∈ hs.tips ∧ Descends (parentOf hs) m hash := by
  change m ∈ insert hash hs.invalidTips ∪ List.toFinset _ ↔ _
  simp only [Finset.mem_union, Finset.mem_insert, List.mem_toFinset, List.mem_filter, mem_removeTip,
    htree.descendsFrom_iff]
  tauto

theorem invalid_markInvalid {hash : Hash256} (htree : Tree P genesis hs) :
    Invalid (hs.markInvalid ord hash) k ↔ Invalid hs k ∨ Descends (parentOf hs) k hash := by
  constructor
  · rintro ⟨m, hm, hkm⟩
    rcases (mem_invalidTips_markInvalid htree).mp hm with hm | rfl | ⟨_, hdesc⟩
    · exact .inl ⟨m, hm, hkm⟩
    · exact .inr hkm
    · exact .inr (Descends.trans hkm hdesc)
  · rintro (⟨m, hm, hkm⟩ | hdesc)
    · exact ⟨m, (mem_invalidTips_markInvalid htree).mpr (.inl hm), hkm⟩
    · exact ⟨hash, (mem_invalidTips_markInvalid htree).mpr (.inr (.inl rfl)), hdesc⟩

def SparesParent (hs : HeaderStore) (hash : Hash256) : Prop :=
  ¬ Descends (parentOf hs) hs.tip.1 hash ∧
    ∀ s, hs.get hash = some s →
      ∃ c ∈ candidates hs, Descends (parentOf hs) c s.header.prevHash ∧
        ¬ Descends (parentOf hs) c hash

theorem SparesParent.cover {hash : Hash256} (h : SparesParent hs hash)
    (hck : Descends (parentOf hs) c k) (hch : Descends (parentOf hs) c hash)
    (hkh : ¬ Descends (parentOf hs) k hash) :
    ∃ c' ∈ candidates hs, Descends (parentOf hs) c' k ∧ ¬ Descends (parentOf hs) c' hash := by
  have hhk := (hck.comparable hch).resolve_left hkh
  rcases descends_iff.mp hhk with rfl | ⟨p, hp, hpk⟩
  · exact absurd (Descends.refl hash) hkh
  · obtain ⟨s, hs', _, rfl⟩ := parentOf_eq_some.mp hp
    obtain ⟨c', hc', hdesc, hnot⟩ := h.2 s hs'
    exact ⟨c', hc', hdesc.trans hpk, hnot⟩

theorem TipsCovered.markInvalid {hash : Hash256} (h : TipsCovered hs) (htree : Tree P genesis hs)
    (ord : IterOrder) (hsafe : hash ∈ hs.byHash → ¬ Invalid hs hash → SparesParent hs hash) :
    TipsCovered (hs.markInvalid ord hash) := by
  -- a candidate above the marked header makes the condition apply
  have hspares : ∀ c ∈ candidates hs, Descends (parentOf hs) c hash → SparesParent hs hash := by
    intro c hc hdesc
    refine hsafe (htree.descends_mem hdesc (h.stored c hc)) ?_
    rintro ⟨m, hm, hdesc'⟩
    exact h.valid c hc ⟨m, hm, hdesc.trans hdesc'⟩
  have hkept : ∀ c ∈ candidates hs, ¬ Descends (parentOf hs) c hash →
      c ∈ candidates (hs.markInvalid ord hash) := by
    intro c hc hnot
    rcases List.mem_cons.mp hc with rfl | hc
    · exact List.mem_cons_self
    · exact List.mem_cons_of_mem _ ((mem_tips_markInvalid htree).mpr ⟨hc, hnot⟩)
  have hold : ∀ c ∈ candidates (hs.markInvalid ord hash),
      c ∈ candidates hs ∧ ¬ Descends (parentOf hs) c hash := by
    intro c hc
    rcases List.mem_cons.mp hc with rfl | hc
    · refine ⟨List.mem_cons_self, fun hdesc => ?_⟩
      exact (hspares hs.tip.1 List.mem_cons_self hdesc).1 hdesc
    · obtain ⟨hc, hnot⟩ := (mem_tips_markInvalid htree).mp hc
      exact ⟨List.mem_cons_of_mem _ hc, hnot⟩
  suffices hcov : Covering (hs.markInvalid ord hash) from
    Covering.recomputeBestTip ⟨hcov.stored, hcov.valid, hcov.cover⟩ ord
  constructor
  · exact fun c hc => h.stored c (hold c hc).1
  · intro c hc
    rw [invalid_markInvalid htree]
    exact not_or.mpr ⟨h.valid c (hold c hc).1, (hold c hc).2⟩
  · intro k hk hvalid
    rw [invalid_markInvalid htree, not_or] at hvalid
    obtain ⟨c, hc, hck⟩ := h.cover k hk hvalid.1
    by_cases hch : Descends (parentOf hs) c hash
    · obtain ⟨c', hc', hdesc, hnot⟩ := (hspares c hc hch).cover hck hch hvalid.2
      exact ⟨c', hkept c' hc' hnot, hdesc⟩
    · exact ⟨c, hkept c hc hch, hck⟩

theorem mem_candidates_switch {newTip : Hash256} {chain : List Hash256}
    (hlast : chain.getLast? = some newTip) :
    c ∈ candidates { hs with
      activeChain := chain
      activeSet := chain.toFinset
      tips := removeTip newTip (insertTip hs.tip.1 hs.tips) } ↔ c = newTip ∨ c ∈ candidates hs := by
  have htip : chain.getLastD 0 = newTip := by
    rw [List.getLastD_eq_getLast?, hlast]
    rfl
  change c ∈ chain.getLastD 0 :: removeTip newTip (insertTip hs.tip.1 hs.tips) ↔
    c = newTip ∨ c ∈ hs.tip.1 :: hs.tips
  rw [htip]
  simp only [List.mem_cons, mem_removeTip, mem_insertTip]
  tauto

theorem TipsCovered.switchActiveChain {newTip : Hash256} (h : TipsCovered hs) (htree : Tree P genesis hs)
    (hvalid : ¬ Invalid hs newTip) (hswitch : hs.switchActiveChain ord newTip = .ok hs') :
    TipsCovered hs' := by
  obtain ⟨oldTip, chain, s, hold, hnew, hlast, _, rfl⟩ := switchActiveChain_eq_ok htree hswitch
  obtain ⟨_, hlast', _⟩ := htree.tip_eq
  obtain rfl := Option.mem_unique hold hlast'
  apply Covering.recomputeBestTip
  constructor
  · intro c hc
    rcases (mem_candidates_switch hlast).mp hc with rfl | hc
    · exact Finmap.mem_of_lookup_eq_some hnew
    · exact h.stored c hc
  · intro c hc
    rcases (mem_candidates_switch hlast).mp hc with rfl | hc
    · exact hvalid
    · exact h.valid c hc
  · intro k hk hk'
    obtain ⟨c, hc, hck⟩ := h.cover k hk hk'
    exact ⟨c, (mem_candidates_switch hlast).mpr (.inr hc), hck⟩

/-- `descends_from` applied to every marked header. -/
def isInvalid (hs : HeaderStore) (hash : Hash256) : Bool :=
  0 < (hs.invalidTips.filter fun m => hs.descendsFrom m hs.fuel hash).card

theorem isInvalid_iff {hash : Hash256} (htree : Tree P genesis hs) :
    isInvalid hs hash = true ↔ Invalid hs hash := by
  simp only [isInvalid, decide_eq_true_eq, Finset.card_pos, Finset.Nonempty, Finset.mem_filter,
    htree.descendsFrom_iff]
  rfl

def sparesParent (hs : HeaderStore) (hash : Hash256) : Bool :=
  match hs.get hash with
  | none => true
  | some s => !hs.descendsFrom hash hs.fuel hs.tip.1 && (candidates hs).any fun c =>
      hs.descendsFrom s.header.prevHash hs.fuel c && !hs.descendsFrom hash hs.fuel c

def cleanHeader (P : Primitives) (hs : HeaderStore) (header : BlockHeader) : Bool :=
  header.blockHash P ∈ hs.byHash ∨
    header.blockHash P ∉ hs.invalidTips ∧ isInvalid hs header.prevHash = false

def keepsCover (P : Primitives) (hs : HeaderStore) : HeaderOp → Bool
  | .acceptHeader header => header.prevHash ∈ hs.invalidTips ∨ cleanHeader P hs header
  | .markInvalid _ hash => isInvalid hs hash || sparesParent hs hash
  | .switchActiveChain _ newTip => newTip ∉ hs.byHash ∨ isInvalid hs newTip = false
  | .purgeStaleForks _ _ => false
  | op => op.headers.all (cleanHeader P hs)

theorem sparesParent_spec {hash : Hash256} (htree : Tree P genesis hs)
    (h : (isInvalid hs hash || sparesParent hs hash) = true) (hmem : hash ∈ hs.byHash)
    (hvalid : ¬ Invalid hs hash) : SparesParent hs hash := by
  rw [← isInvalid_iff htree, Bool.not_eq_true] at hvalid
  obtain ⟨s, hs'⟩ := Finmap.mem_iff.mp hmem
  have hget : hs.get hash = some s := hs'
  simp only [hvalid, Bool.false_or, sparesParent, hget, Bool.and_eq_true, Bool.not_eq_true',
    List.any_eq_true, ← Bool.not_eq_true, htree.descendsFrom_iff] at h
  refine ⟨h.1, fun s' hs' => ?_⟩
  rw [hget, Option.some.injEq] at hs'
  exact hs' ▸ h.2

theorem TipsCovered.inserts {headers : List BlockHeader} {persisted : Bool} (h : TipsCovered hs)
    (htree : Tree P genesis hs) (hclean : ∀ header ∈ headers, cleanHeader P hs header = true)
    (hins : Inserts P hs hs' headers persisted) : TipsCovered hs' := by
  -- cleanness of the headers still to come is carried along with the cover
  suffices hinv : Tree P genesis hs' ∧ TipsCovered hs' ∧ ∀ header ∈ headers,
      header.blockHash P ∈ hs'.byHash ∨
        header.blockHash P ∉ hs'.invalidTips ∧ ¬ Invalid hs' header.prevHash from hinv.2.1
  refine hins.invariant (fun hs' => Tree P genesis hs' ∧ TipsCovered hs' ∧ ∀ header ∈ headers,
      header.blockHash P ∈ hs'.byHash ∨
        header.blockHash P ∉ hs'.invalidTips ∧ ¬ Invalid hs' header.prevHash) (fun _ _ h => ?_) ?_ ?_
  · exact ⟨⟨h.1.rooted, h.1.path, h.1.active⟩, ⟨⟨h.2.1.stored, h.2.1.valid, h.2.1.cover⟩,
      h.2.1.best_stored, h.2.1.best_valid, h.2.1.best_max⟩, h.2.2⟩
  · rintro hs hash s extend ha hmem ⟨htree, hcov, hclean⟩
    have hs' : hash ∉ hs.invalidTips ∧ ¬ Invalid hs s.header.prevHash :=
      ha.keyed ▸ (hclean s.header hmem).resolve_left (ha.keyed.symm ▸ ha.fresh)
    refine ⟨htree.attach ha, hcov.attach htree ha hs'.1 hs'.2, fun header hheader => ?_⟩
    rcases hclean header hheader with hin | ⟨hmark, hprev⟩
    · exact .inl (Finmap.mem_insert.mpr (.inr hin))
    · refine .inr ⟨hmark, ?_⟩
      by_cases heq : header.prevHash = hash
      · rw [heq, invalid_attach_hash ha htree]
        exact not_or.mpr hs'
      · rwa [invalid_attach_of_ne ha htree heq]
  · refine ⟨htree, h, fun header hheader => ?_⟩
    have hheader := hclean header hheader
    rw [cleanHeader, decide_eq_true_eq] at hheader
    refine hheader.imp_right (And.imp_right fun hinv => ?_)
    rwa [← isInvalid_iff htree, Bool.not_eq_true]

theorem clean_of_keepsCover {op : HeaderOp} (h : keepsCover P hs op = true) :
    op.apply P hs = hs ∨ ∀ header ∈ op.headers, cleanHeader P hs header = true := by
  cases op with
  | addHeader header | addHeaders headers | validateAndCommit headers =>
    exact .inr (List.all_eq_true.mp h)
  | acceptHeader header =>
    by_cases hclean : cleanHeader P hs header = true
    · exact .inr (by simpa [HeaderOp.headers] using hclean)
    · left
      have hprev : header.prevHash ∈ hs.invalidTips := by simpa [keepsCover, hclean] using h
      have hmem : header.blockHash P ∉ hs.byHash := fun hmem => hclean (by simp [cleanHeader, hmem])
      have herror : hs.acceptHeader P header = .error .extendsInvalid := by
        simp only [HeaderStore.acceptHeader, hmem, if_false, ensure, hprev, not_true_eq_false]
        rfl
      simp [HeaderOp.apply, herror, Except.toOption]
  | markInvalid ord hash | switchActiveChain ord newTip | purgeStaleForks ord height =>
    exact .inr (by simp [HeaderOp.headers])

theorem TipsCovered.apply {op : HeaderOp} (h : TipsCovered hs) (htree : Tree P genesis hs)
    (hinj : HashInjOn P {h | h ∈ op.headers})
    (hcond : keepsCover P hs op = true) : TipsCovered (op.apply P hs) := by
  rcases clean_of_keepsCover hcond with heq | hclean
  · exact heq.symm ▸ h
  · have heffect := op.effect htree.trunk hinj
    generalize op.apply P hs = hs' at heffect
    cases heffect with
    | insert hins => exact h.inserts htree hclean hins
    | mark ord hash => exact h.markInvalid htree ord (sparesParent_spec htree hcond)
    | @switch ord newTip _ hswitch =>
      refine h.switchActiveChain htree ?_ hswitch
      obtain ⟨_, _, s, _, hnew, _⟩ := switchActiveChain_eq_ok htree hswitch
      have hmem : newTip ∈ hs.byHash := Finmap.mem_of_lookup_eq_some hnew
      rw [← isInvalid_iff htree, Bool.not_eq_true]
      simpa [keepsCover, hmem] using hcond
    | purge ord activeTipHeight => cases hcond

/-- The best tip is a valid header of maximal chainwork. -/
structure BestMaximal (hs : HeaderStore) : Prop where
  stored : ∃ s, hs.get hs.bestTip.1 = some s ∧ hs.bestTip.2 = (s.height, s.chainwork)
  maximal : ∀ hash s, hs.get hash = some s → ¬ Invalid hs hash → s.chainwork ≤ hs.bestTip.2.2
  valid : ¬ Invalid hs hs.bestTip.1

theorem TipsCovered.bestMaximal (h : TipsCovered hs) (htree : Tree P genesis hs) : BestMaximal hs := by
  obtain ⟨b, hb, hwork⟩ := h.best_stored
  refine ⟨⟨b, hb, ?_⟩, ?_, h.best_valid⟩
  · simp [HeaderStore.bestTip, hb, hwork]
  · intro hash s hs' hvalid
    obtain ⟨c, hc, hdesc⟩ := h.cover hash (Finmap.mem_of_lookup_eq_some hs') hvalid
    obtain ⟨t, ht⟩ := Finmap.mem_iff.mp (h.stored c hc)
    exact (Tree.chainwork_le htree hdesc ht hs').trans (h.best_max c hc t ht)

theorem covered_makeFresh (P : Primitives) (genesis : BlockHeader) (params : ConsensusParams)
    (backend : Option Backend) : TipsCovered (HeaderStore.makeFresh P genesis params backend) := by
  have hget : (HeaderStore.makeFresh P genesis params backend).get (genesis.blockHash P) =
      some ⟨genesis, 0, workFromBits genesis.bits⟩ :=
    Finmap.lookup_insert _
  have hmem : ∀ c ∈ candidates (HeaderStore.makeFresh P genesis params backend),
      c = genesis.blockHash P := by
    simp [candidates, HeaderStore.makeFresh, HeaderStore.tip]
  have hvalid : ∀ k, ¬ Invalid (HeaderStore.makeFresh P genesis params backend) k := by
    rintro k ⟨m, hm, _⟩
    exact Finset.notMem_empty m hm
  refine ⟨⟨?_, fun c _ => hvalid c, ?_⟩, ⟨_, hget, rfl⟩, hvalid _, ?_⟩
  · intro c hc
    rw [hmem c hc]
    exact Finmap.mem_of_lookup_eq_some hget
  · intro k hk _
    have hk' : k = genesis.blockHash P :=
      (Finmap.mem_insert.mp hk).resolve_right Finmap.notMem_empty
    exact ⟨k, hk' ▸ List.mem_cons_self, Descends.refl k⟩
  · intro c hc s hs
    rw [hmem c hc, hget, Option.some.injEq] at hs
    exact hs ▸ le_rfl

theorem bestMaximal_of_keepsCover (P : Primitives) (genesis : BlockHeader)
    (params : ConsensusParams) (ops : List HeaderOp) (hhash : HeaderHashSound P ops)
    (hcond : Along (HeaderOp.apply P) (fun hs op => keepsCover P hs op = true)
      (HeaderStore.makeFresh P genesis params none) ops) :
    BestMaximal (run (HeaderOp.apply P) (HeaderStore.makeFresh P genesis params none) ops) := by
  suffices hinv : Tree P genesis
      (run (HeaderOp.apply P) (HeaderStore.makeFresh P genesis params none) ops) ∧
      TipsCovered (run (HeaderOp.apply P) (HeaderStore.makeFresh P genesis params none) ops) from
    hinv.2.bestMaximal hinv.1
  refine run_invariant (fun hs => Tree P genesis hs ∧ TipsCovered hs) ?_
    ⟨tree_makeFresh P genesis params none, covered_makeFresh P genesis params none⟩
    (hcond.and fun op => hhash.injOn)
  rintro hs op ⟨htree, hcov⟩ ⟨hcond, hinj⟩
  have hpurge : LeafPurge hs op := by
    cases op with
    | purgeStaleForks => cases hcond
    | _ => trivial
  exact ⟨tree_apply htree hinj hpurge, hcov.apply htree hinj hcond⟩

def headerC2 : BlockHeader := childOf headerB1 5

theorem bestMaximal_after_mark :
    BestMaximal (run (HeaderOp.apply poly) easyStore
      [.acceptHeader headerA1, .acceptHeader headerB1, .acceptHeader headerB2,
        .acceptHeader headerC2, .markInvalid .id (headerB2.blockHash poly),
        .switchActiveChain .id (headerC2.blockHash poly)]) :=
  bestMaximal_of_keepsCover poly easyGenesis ConsensusParams.testing _
    (by decide +kernel) (by decide +kernel)

def headerB3 : BlockHeader := childOf headerB2 6

def hidingRun : List HeaderOp :=
  [.acceptHeader headerA1, .acceptHeader headerB1, .acceptHeader headerB2, .acceptHeader headerB3,
    .markInvalid .id (headerB3.blockHash poly)]

/-- After `B3` is marked the best tip is `A1`, although `B2` is valid and has
more work: it left `tips` when `B3` was stored and does not come back. -/
theorem mark_hides_parent :
    ¬ BestMaximal (run (HeaderOp.apply poly) easyStore hidingRun) := by
  intro h
  have htree : Tree poly easyGenesis (run (HeaderOp.apply poly) easyStore hidingRun) :=
    tree_run (tree_makeFresh _ _ _ _) (by decide +kernel) (by decide +kernel)
  have hwork : (((run (HeaderOp.apply poly) easyStore hidingRun).get
      (headerB2.blockHash poly)).map fun s => decide
        ((run (HeaderOp.apply poly) easyStore hidingRun).bestTip.2.2 < s.chainwork)) =
      some true := by
    decide +kernel
  have hvalid : ¬ Invalid (run (HeaderOp.apply poly) easyStore hidingRun)
      (headerB2.blockHash poly) := by
    rw [← isInvalid_iff htree]
    decide +kernel
  obtain ⟨s, hs, hlt⟩ := Option.map_eq_some_iff.mp hwork
  exact absurd (h.maximal _ s hs hvalid) (not_le.mpr (of_decide_eq_true hlt))

end Ironcat.BestTip
