import Ironcat.BestTip
import Ironcat.HeaderLoad

/-!
# Reloading the header store

A reload recomputes the tips as the unmarked headers without a child. It finds
the same best chainwork as the running store as long as every candidate of the
store has such a header above it.
-/

namespace Ironcat.HeaderReload

open Lib.ByteCodec Lib.Checked Lib.FiniteMap Lib.Forest Lib.Runs Types Difficulty Headers HeaderTree
open HeaderRuns BestTip

variable {P : Primitives} {genesis : BlockHeader} {hs hs' : HeaderStore} {be : Backend}

structure Mirrors (hs : HeaderStore) (be : Backend) : Prop where
  headers : ∀ hash, be.headers.lookup hash = (hs.get hash).map encodeEntry
  invalid : ∀ hash, hash ∈ be.invalidTips ↔ hash ∈ hs.invalidTips

structure OpenLeaf (hs : HeaderStore) (hash : Hash256) : Prop where
  stored : hash ∈ hs.byHash
  leaf : hasChild hs hash = false
  unmarked : hash ∉ hs.invalidTips

theorem Mirrors.loadAll (h : Mirrors hs be) (htree : Tree P genesis hs)
    (hlen : be.headers.entries.length ≤ maxLoadableHeaders) :
    ∃ raw, be.loadAll = .ok raw ∧ ∀ hash s, (hash, s) ∈ raw ↔ hs.get hash = some s := by
  have hentry : ∀ e ∈ be.headers.entries, ∃ s, hs.get e.1 = some s ∧ decodeEntry e.2 = some s := by
    intro e he
    have hlookup : be.headers.lookup e.1 = some e.2 := AList.mem_lookup_iff.mpr he
    rw [h.headers, Option.map_eq_some_iff] at hlookup
    obtain ⟨s, hs', henc⟩ := hlookup
    obtain ⟨hheight, hwork⟩ := htree.rooted.bounded _ _ hs'
    exact ⟨s, hs', henc ▸ decodeEntry_encodeEntry hheight hwork⟩
  let stored (e : (_ : Hash256) × Bytes) : Hash256 × StoredHeader :=
    (e.1, (decodeEntry e.2).getD ⟨genesis, 0, 0⟩)
  refine ⟨be.headers.entries.map stored, ?_, ?_⟩
  · simp only [Backend.loadAll, bind_eq_ok, ensure_eq_ok]
    refine ⟨(), hlen, mapM_eq_ok fun e he => ?_⟩
    obtain ⟨s, _, hdec⟩ := hentry e he
    simp [stored, hdec, okOr, bind, Except.bind, pure, Except.pure]
  · intro hash s
    simp only [List.mem_map]
    constructor
    · rintro ⟨e, he, heq⟩
      obtain ⟨s', hs', hdec⟩ := hentry e he
      simp only [stored, hdec, Option.getD_some, Prod.mk.injEq] at heq
      obtain ⟨rfl, rfl⟩ := heq
      exact hs'
    · intro hs'
      have hlookup : be.headers.lookup hash = some (encodeEntry s) := by rw [h.headers, hs']; rfl
      have hmem := AList.mem_lookup_iff.mp hlookup
      obtain ⟨s', hs'', hdec⟩ := hentry _ hmem
      obtain rfl := Option.mem_unique hs'' hs'
      exact ⟨_, hmem, by simp [stored, hdec]⟩

theorem maxByChainwork_spec {l : List (Hash256 × ℕ)} (hne : l ≠ []) :
    ∃ e ∈ l, maxByChainwork l = some e ∧ ∀ e' ∈ l, e'.2 ≤ e.2 := by
  induction l using List.reverseRecOn with
  | nil => exact absurd rfl hne
  | append_singleton l e ih =>
    have hfold : ∀ b, maxByChainwork l = some b →
        maxByChainwork (l ++ [e]) = if b.2 ≤ e.2 then some e else some b := by
      intro b hb
      unfold maxByChainwork at hb ⊢
      rw [List.foldl_append, hb]
      rfl
    by_cases hl : l = []
    · subst hl
      exact ⟨e, by simp, by simp [maxByChainwork], by simp⟩
    · obtain ⟨b, hb, hmax, hle⟩ := ih hl
      rw [hfold b hmax]
      by_cases hbe : b.2 ≤ e.2
      · refine ⟨e, by simp, by simp [hbe], fun e' he' => ?_⟩
        rcases List.mem_append.mp he' with he' | he'
        · exact (hle e' he').trans hbe
        · rw [List.mem_singleton.mp he']
      · refine ⟨b, by simp [hb], by simp [hbe], fun e' he' => ?_⟩
        rcases List.mem_append.mp he' with he' | he'
        · exact hle e' he'
        · rw [List.mem_singleton.mp he']
          exact (not_le.mp hbe).le

variable {raw : List (Hash256 × StoredHeader)}

theorem insertAll_eq_byHash (hraw : ∀ hash s, (hash, s) ∈ raw ↔ hs.get hash = some s) :
    insertAll ∅ raw = hs.byHash := by
  refine Finmap.ext_lookup fun hash => ?_
  by_cases hmem : hash ∈ raw.map Prod.fst
  · obtain ⟨s, hs', hlookup⟩ := lookup_insertAll_of_mem ∅ hmem
    rw [hlookup]
    exact ((hraw hash s).mp hs').symm
  · rw [lookup_insertAll_of_notMem ∅ hmem, Finmap.lookup_empty]
    cases hget : hs.byHash.lookup hash with
    | none => rfl
    | some s => exact absurd (List.mem_map_of_mem ((hraw hash s).mpr hget)) hmem

theorem mem_loadedTips {hash : Hash256} (hraw : ∀ hash s, (hash, s) ∈ raw ↔ hs.get hash = some s) :
    hash ∈ loadedTips hs.byHash hs.invalidTips (raw.map Prod.fst) ↔ OpenLeaf hs hash := by
  have hkeys : hash ∈ raw.map Prod.fst ↔ hash ∈ hs.byHash := by
    rw [Finmap.mem_iff]
    simp [hraw, HeaderStore.get]
  simp only [loadedTips, List.mem_filter, hkeys, Bool.and_eq_true, Bool.not_eq_true',
    decide_eq_true_eq]
  exact ⟨fun h => ⟨h.1, h.2.1, h.2.2⟩, fun h => ⟨h.stored, h.leaf, h.unmarked⟩⟩

theorem Path.heights {m : HeaderMap} {chain : List Hash256}
    (h : Path (genesis.blockHash P) m chain) (hroot : Rooted P genesis m) :
    (chain.zipIdx.all fun e => (m.lookup e.1).map StoredHeader.height = some e.2) = true := by
  rw [List.all_eq_true]
  rintro ⟨hash, i⟩ he
  obtain ⟨s, hs, hheight⟩ := h.lookup hroot.root (List.mk_mem_zipIdx_iff_getElem?.mp he)
  simp [hs, hheight]

theorem Mirrors.loads (h : Mirrors hs be) (htree : Tree P genesis hs) (ord : IterOrder)
    (hlen : be.headers.entries.length ≤ maxLoadableHeaders) :
    ∃ l works, tryLoadFromBackend ord be (genesis.blockHash P) = .ok (some l, be) ∧
      l.byHash = hs.byHash ∧ Path (genesis.blockHash P) hs.byHash l.activeChain ∧
      l.activeChain.getLast? = some l.bestKnownTip.1 ∧
      l.bestKnownTip = (maxByChainwork works).getD (genesis.blockHash P, 0) ∧
      ∀ e, e ∈ works ↔ ∃ s, OpenLeaf hs e.1 ∧ hs.get e.1 = some s ∧ e.2 = s.chainwork := by
  obtain ⟨raw, hload, hraw⟩ := h.loadAll htree hlen
  have hinv : be.invalidTips.toFinset = hs.invalidTips := by
    ext hash
    rw [List.mem_toFinset, h.invalid]
  have hne : raw ≠ [] := List.ne_nil_of_mem ((hraw _ _).mpr htree.rooted.root)
  have hgenesis : genesis.blockHash P ∈ hs.byHash :=
    Finmap.mem_of_lookup_eq_some htree.rooted.root
  set works := (ord.list (loadedTips hs.byHash hs.invalidTips (raw.map Prod.fst))).filterMap fun t =>
    (hs.byHash.lookup t).map fun s => (t, s.chainwork) with hworks
  have hmem : ∀ e, e ∈ works ↔ ∃ s, OpenLeaf hs e.1 ∧ hs.get e.1 = some s ∧ e.2 = s.chainwork := by
    rintro ⟨t, w⟩
    simp only [hworks, List.mem_filterMap, (ord.perm _).mem_iff, mem_loadedTips hraw,
      Option.map_eq_some_iff, Prod.mk.injEq]
    constructor
    · rintro ⟨t', hopen, s, hs', rfl, rfl⟩
      exact ⟨s, hopen, hs', rfl⟩
    · rintro ⟨s, hopen, hs', rfl⟩
      exact ⟨t, hopen, s, hs', rfl, rfl⟩
  set best := (maxByChainwork works).getD (genesis.blockHash P, 0) with hbest
  have hstored : ∃ s, hs.get best.1 = some s := by
    by_cases hworks_ne : works = []
    · rw [hbest, hworks_ne]
      exact ⟨_, htree.rooted.root⟩
    · obtain ⟨e, he, hmax, _⟩ := maxByChainwork_spec hworks_ne
      obtain ⟨s, _, hs', _⟩ := (hmem e).mp he
      rw [hbest, hmax]
      exact ⟨s, hs'⟩
  obtain ⟨s, hs'⟩ := hstored
  have hfuel : s.height < hs.byHash.keys.card + 1 := by
    simpa [heightOf, hs', HeaderStore.fuel] using htree.height_lt_fuel best.1
  obtain ⟨chain, hchain, hhead, _, hpath⟩ := htree.chainDown_path hs' hfuel
  refine ⟨⟨hs.byHash, chain.reverse, chain.reverse.toFinset,
    loadedTips hs.byHash hs.invalidTips (raw.map Prod.fst), best, hs.invalidTips⟩, works, ?_, rfl,
    hpath, ?_, rfl, hmem⟩
  · simp only [tryLoadFromBackend, hload, hinv, insertAll_eq_byHash hraw, bind, Except.bind, hne,
      if_false, hgenesis, not_true_eq_false, ← hworks, ← hbest, hchain,
      Path.heights hpath htree.rooted, if_true]
    rfl
  · rw [List.getLast?_reverse, hhead]

variable {leaf : Hash256}

theorem Mirrors.load (h : Mirrors hs be) (htree : Tree P genesis hs) (ord : IterOrder)
    (hlen : be.headers.entries.length ≤ maxLoadableHeaders) (hleaf : OpenLeaf hs leaf) :
    ∃ l, tryLoadFromBackend ord be (genesis.blockHash P) = .ok (some l, be) ∧
      l.byHash = hs.byHash ∧ Path (genesis.blockHash P) hs.byHash l.activeChain ∧
      l.activeChain.getLast? = some l.bestKnownTip.1 ∧
      (∃ s, OpenLeaf hs l.bestKnownTip.1 ∧ hs.get l.bestKnownTip.1 = some s ∧
        l.bestKnownTip.2 = s.chainwork) ∧
      ∀ hash s, OpenLeaf hs hash → hs.get hash = some s → s.chainwork ≤ l.bestKnownTip.2 := by
  obtain ⟨l, works, hload, hbyHash, hpath, hlast, hbest, hmem⟩ := h.loads htree ord hlen
  have hworks_ne : works ≠ [] := by
    obtain ⟨s, hs'⟩ := Finmap.mem_iff.mp hleaf.stored
    exact List.ne_nil_of_mem ((hmem (leaf, s.chainwork)).mpr ⟨s, hleaf, hs', rfl⟩)
  obtain ⟨best, hbest_mem, hmax, hle⟩ := maxByChainwork_spec hworks_ne
  rw [hmax, Option.getD_some] at hbest
  refine ⟨l, hload, hbyHash, hpath, hlast, ?_, fun hash s hopen hs' => ?_⟩
  · rw [hbest]
    exact (hmem best).mp hbest_mem
  · rw [hbest]
    exact hle (hash, s.chainwork) ((hmem _).mpr ⟨s, hopen, hs', rfl⟩)

structure Live (hs : HeaderStore) : Prop where
  stored : ∀ c ∈ candidates hs, c ∈ hs.byHash
  candidate : ∀ leaf, OpenLeaf hs leaf → leaf ∈ candidates hs
  live : ∀ c ∈ candidates hs, ∃ leaf, OpenLeaf hs leaf ∧ Descends (parentOf hs) leaf c

structure Greatest (hs : HeaderStore) : Prop where
  attained : ∃ c ∈ candidates hs, ∃ s, hs.get c = some s ∧ hs.bestKnownTip.2 ≤ s.chainwork
  bound : ∀ c ∈ candidates hs, ∀ s, hs.get c = some s → s.chainwork ≤ hs.bestKnownTip.2

theorem Live.congr (h : Live hs) (hbyHash : hs'.byHash = hs.byHash)
    (hactive : hs'.activeChain = hs.activeChain) (htips : hs'.tips = hs.tips)
    (hinvalid : hs'.invalidTips = hs.invalidTips) : Live hs' := by
  cases hs
  cases hs'
  simp only at hbyHash hactive htips hinvalid
  subst hbyHash hactive htips hinvalid
  refine ⟨h.stored, fun leaf hleaf => ?_, fun c hc => ?_⟩
  · exact h.candidate leaf ⟨hleaf.stored, hleaf.leaf, hleaf.unmarked⟩
  · obtain ⟨leaf, hleaf, hdesc⟩ := h.live c hc
    exact ⟨leaf, ⟨hleaf.stored, hleaf.leaf, hleaf.unmarked⟩, hdesc⟩

theorem Live.greatest_recompute (h : Live hs) (ord : IterOrder) :
    Greatest (hs.recomputeBestTip ord) := by
  have htip := Finmap.mem_iff.mp (h.stored hs.tip.1 List.mem_cons_self)
  obtain ⟨c, hc, s, hs', hbest, hmax⟩ := recomputeBestTip_spec ord hs htip
  constructor
  · exact ⟨c, hc, s, hs', by rw [hbest]⟩
  · rw [hbest]
    exact hmax

section Attach

variable {hash : Hash256} {s : StoredHeader} {extend : Bool}

theorem hasChild_attach (ha : Attachable P hs hash s extend) (k : Hash256) :
    hasChild (attach hs hash s extend) k = false ↔
      hasChild hs k = false ∧ s.header.prevHash ≠ k := by
  rw [hasChild_eq_false, hasChild_eq_false]
  have hnone : hs.get hash = none := Finmap.lookup_eq_none.mpr ha.fresh
  constructor
  · intro h
    refine ⟨fun k' v hv => h k' v ?_, h hash s (by simp [get_attach])⟩
    have hne : k' ≠ hash := by
      rintro rfl
      rw [hnone] at hv
      cases hv
    simpa [get_attach, hne] using hv
  · intro h k' v hv
    rw [get_attach] at hv
    split_ifs at hv with heq
    · exact Option.some.inj hv ▸ h.2
    · exact h.1 k' v hv

theorem hasChild_of_notMem (htree : Tree P genesis hs) (hfresh : hash ∉ hs.byHash)
    (hgenesis : hash ≠ genesis.prevHash) : hasChild hs hash = false := by
  refine hasChild_eq_false.mpr fun k v hv => ?_
  by_cases hk : k = genesis.blockHash P
  · rw [hk, HeaderStore.get, htree.rooted.root, Option.some.injEq] at hv
    rw [← hv]
    exact hgenesis.symm
  · obtain ⟨p, hp, _⟩ := htree.rooted.parent k v hv hk
    rintro rfl
    exact hfresh (Finmap.mem_of_lookup_eq_some hp)

theorem openLeaf_hash (ha : Attachable P hs hash s extend) (htree : Tree P genesis hs)
    (hmark : hash ∉ hs.invalidTips) (hgenesis : hash ≠ genesis.prevHash) :
    OpenLeaf (attach hs hash s extend) hash :=
  ⟨Finmap.mem_insert.mpr (.inl rfl), (hasChild_attach ha hash).mpr
    ⟨hasChild_of_notMem htree ha.fresh hgenesis, ha.prevHash_ne⟩, hmark⟩

theorem Live.attach (h : Live hs) (ha : Attachable P hs hash s extend) (htree : Tree P genesis hs)
    (hmark : hash ∉ hs.invalidTips) (hgenesis : hash ≠ genesis.prevHash) :
    Live (attach hs hash s extend) := by
  have hne : ∀ {k}, k ∈ hs.byHash → k ≠ hash := fun hk heq => ha.fresh (heq ▸ hk)
  have hnew := openLeaf_hash ha htree hmark hgenesis
  constructor
  · intro c hc
    rcases mem_candidates_attach ha hc with rfl | hc
    · exact hnew.stored
    · exact Finmap.mem_insert.mpr (.inr (h.stored c hc))
  · intro leaf hleaf
    rcases Finmap.mem_insert.mp hleaf.stored with rfl | hmem
    · exact hash_mem_candidates
    · obtain ⟨hchild, hprev⟩ := (hasChild_attach ha leaf).mp hleaf.leaf
      have hc := h.candidate leaf ⟨hmem, hchild, hleaf.unmarked⟩
      exact (candidate_kept ha htree hc).resolve_right hprev.symm
  · intro c hc
    rcases mem_candidates_attach ha hc with rfl | hc
    · exact ⟨c, hnew, Descends.refl c⟩
    · obtain ⟨leaf, hleaf, hdesc⟩ := h.live c hc
      by_cases hprev : s.header.prevHash = leaf
      · refine ⟨hash, hnew, ?_⟩
        rw [ha.descends_hash_iff htree]
        exact .inr (hprev ▸ hdesc)
      · refine ⟨leaf, ⟨Finmap.mem_insert.mpr (.inr hleaf.stored), ?_, hleaf.unmarked⟩, ?_⟩
        · exact (hasChild_attach ha leaf).mpr ⟨hleaf.leaf, hprev⟩
        · rwa [ha.descends_iff_of_ne htree (hne hleaf.stored)]

theorem Greatest.attach (h : Greatest hs) (ha : Attachable P hs hash s extend)
    (htree : Tree P genesis hs) (hstored : ∀ c ∈ candidates hs, c ∈ hs.byHash) :
    Greatest (attach hs hash s extend) := by
  have hbest : (HeaderTree.attach hs hash s extend).bestKnownTip.2 =
      max hs.bestKnownTip.2 s.chainwork := by
    change (if hs.bestKnownTip.2 < s.chainwork then (hash, s.chainwork) else hs.bestKnownTip).2 = _
    split_ifs with hlt
    · exact (max_eq_right hlt.le).symm
    · exact (max_eq_left (not_lt.mp hlt)).symm
  obtain ⟨c, hc, t, ht, hle⟩ := h.attained
  have hne : c ≠ hash := fun heq => ha.fresh (heq ▸ hstored c hc)
  constructor
  · rw [hbest]
    by_cases hlt : hs.bestKnownTip.2 ≤ s.chainwork
    · exact ⟨hash, hash_mem_candidates, s, by simp [get_attach], by simp [hlt]⟩
    · rcases candidate_kept ha htree hc with hc' | rfl
      · exact ⟨c, hc', t, by simpa [get_attach, hne] using ht,
          by simp [hle, (not_le.mp hlt).le.trans hle]⟩
      · obtain ⟨p, hp, _, hwork⟩ := ha.parent
        obtain rfl := Option.mem_unique hp ht
        exact absurd (hle.trans (by omega)) hlt
  · intro c' hc' t' ht'
    rw [hbest, le_max_iff]
    rw [get_attach] at ht'
    split_ifs at ht' with heq
    · exact .inr (Option.some.inj ht' ▸ le_rfl)
    · exact .inl (h.bound c' ((mem_candidates_attach ha hc').resolve_left heq) t' ht')

end Attach

def SparesLeaves (hs : HeaderStore) (hash : Hash256) : Prop :=
  ∀ c ∈ candidates hs, (c = hs.tip.1 ∨ ¬ Descends (parentOf hs) c hash) →
    ∃ leaf, OpenLeaf hs leaf ∧ Descends (parentOf hs) leaf c ∧ leaf ≠ hash ∧
      ¬ (leaf ∈ hs.tips ∧ Descends (parentOf hs) leaf hash)

variable {ord : IterOrder}

theorem openLeaf_markInvalid {hash : Hash256} (htree : Tree P genesis hs) :
    OpenLeaf (hs.markInvalid ord hash) leaf ↔ OpenLeaf hs leaf ∧ leaf ≠ hash ∧
      ¬ (leaf ∈ hs.tips ∧ Descends (parentOf hs) leaf hash) := by
  have hmark : leaf ∉ (hs.markInvalid ord hash).invalidTips ↔ leaf ∉ hs.invalidTips ∧
      leaf ≠ hash ∧ ¬ (leaf ∈ hs.tips ∧ Descends (parentOf hs) leaf hash) := by
    rw [mem_invalidTips_markInvalid htree, not_or, not_or]
  constructor
  · intro h
    obtain ⟨hunmarked, hrest⟩ := hmark.mp h.unmarked
    exact ⟨⟨h.stored, h.leaf, hunmarked⟩, hrest⟩
  · rintro ⟨h, hrest⟩
    exact ⟨h.stored, h.leaf, hmark.mpr ⟨h.unmarked, hrest⟩⟩

theorem mem_candidates_markInvalid {hash c : Hash256} (htree : Tree P genesis hs) :
    c ∈ candidates (hs.markInvalid ord hash) ↔
      c = hs.tip.1 ∨ c ∈ hs.tips ∧ ¬ Descends (parentOf hs) c hash :=
  List.mem_cons.trans (or_congr Iff.rfl (mem_tips_markInvalid htree))

theorem Live.markInvalid {hash : Hash256} (h : Live hs) (htree : Tree P genesis hs)
    (ord : IterOrder) (hspares : SparesLeaves hs hash) : Live (hs.markInvalid ord hash) := by
  have hold : ∀ {c}, c ∈ candidates (hs.markInvalid ord hash) →
      c ∈ candidates hs ∧ (c = hs.tip.1 ∨ ¬ Descends (parentOf hs) c hash) := by
    intro c hc
    rcases (mem_candidates_markInvalid htree).mp hc with rfl | ⟨hc, hnot⟩
    · exact ⟨List.mem_cons_self, .inl rfl⟩
    · exact ⟨List.mem_cons_of_mem _ hc, .inr hnot⟩
  constructor
  · exact fun c hc => h.stored c (hold hc).1
  · intro leaf hleaf
    obtain ⟨hleaf, _, hnot⟩ := (openLeaf_markInvalid htree).mp hleaf
    rw [mem_candidates_markInvalid htree]
    rcases List.mem_cons.mp (h.candidate leaf hleaf) with rfl | hc
    · exact .inl rfl
    · exact .inr ⟨hc, fun hdesc => hnot ⟨hc, hdesc⟩⟩
  · intro c hc
    obtain ⟨leaf, hleaf, hdesc, hrest⟩ := hspares c (hold hc).1 (hold hc).2
    exact ⟨leaf, (openLeaf_markInvalid htree).mpr ⟨hleaf, hrest⟩, hdesc⟩

theorem Live.switchActiveChain {newTip : Hash256} (h : Live hs) (htree : Tree P genesis hs)
    (hleaf : OpenLeaf hs leaf) (hdesc : Descends (parentOf hs) leaf newTip)
    (hswitch : hs.switchActiveChain ord newTip = .ok hs') : Live hs' ∧ Greatest hs' := by
  obtain ⟨oldTip, chain, s, hold, hnew, hlast, _, rfl⟩ := switchActiveChain_eq_ok htree hswitch
  obtain ⟨_, hlast', _⟩ := htree.tip_eq
  obtain rfl := Option.mem_unique hold hlast'
  set hs₁ : HeaderStore := { hs with
    activeChain := chain
    activeSet := chain.toFinset
    tips := removeTip newTip (insertTip hs.tip.1 hs.tips) }
  have hmem : ∀ c, c ∈ candidates hs₁ ↔ c = newTip ∨ c ∈ candidates hs :=
    fun c => mem_candidates_switch hlast
  have hlive : Live hs₁ := by
    constructor
    · intro c hc
      rcases (hmem c).mp hc with rfl | hc
      · exact Finmap.mem_of_lookup_eq_some hnew
      · exact h.stored c hc
    · exact fun l hl => (hmem l).mpr (.inr (h.candidate l ⟨hl.stored, hl.leaf, hl.unmarked⟩))
    · intro c hc
      rcases (hmem c).mp hc with rfl | hc
      · exact ⟨leaf, ⟨hleaf.stored, hleaf.leaf, hleaf.unmarked⟩, hdesc⟩
      · obtain ⟨l, hl, hlc⟩ := h.live c hc
        exact ⟨l, ⟨hl.stored, hl.leaf, hl.unmarked⟩, hlc⟩
  exact ⟨hlive.congr rfl rfl rfl rfl, hlive.greatest_recompute ord⟩

theorem Mirrors.persistAll {es : List (Hash256 × StoredHeader)} (h : Mirrors hs be)
    (hatt : Attached P hs es hs') : Mirrors hs' (persistAll be es) := by
  induction hatt with
  | nil => exact h
  | @snoc es hs₁ hash s extend _ _ ih =>
    have hsnoc : HeaderTree.persistAll be (es ++ [(hash, s)]) =
        (HeaderTree.persistAll be es).persistHeader hash s := by
      simp [HeaderTree.persistAll]
    rw [hsnoc]
    refine ⟨fun k => ?_, ih.invalid⟩
    rw [get_attach]
    by_cases hk : k = hash
    · subst hk
      simp [Backend.persistHeader]
    · simp [Backend.persistHeader, hk, ih.headers]

theorem mem_persistInvalidTip {hash m : Hash256} :
    m ∈ (be.persistInvalidTip hash).invalidTips ↔ m = hash ∨ m ∈ be.invalidTips := by
  simp only [Backend.persistInvalidTip]
  split_ifs with hmem
  · exact ⟨.inr, fun h => h.elim (fun heq => heq ▸ hmem) id⟩
  · exact List.mem_cons

theorem persistInvalidTips_spec (be : Backend) (l : List Hash256) :
    (l.foldl Backend.persistInvalidTip be).headers = be.headers ∧
      ∀ m, m ∈ (l.foldl Backend.persistInvalidTip be).invalidTips ↔ m ∈ l ∨ m ∈ be.invalidTips := by
  induction l generalizing be with
  | nil => simp
  | cons h l ih =>
    obtain ⟨hheaders, hmem⟩ := ih (be.persistInvalidTip h)
    refine ⟨hheaders, fun m => ?_⟩
    rw [List.foldl_cons, hmem, mem_persistInvalidTip, List.mem_cons]
    tauto

def Persisted (hs : HeaderStore) : Prop := ∃ be, hs.backend = some be ∧ Mirrors hs be

theorem Persisted.inserts {headers : List BlockHeader} (h : Persisted hs)
    (hins : Inserts P hs hs' headers true) : Persisted hs' := by
  obtain ⟨be, hbe, hm⟩ := h
  obtain ⟨es, T, hatt, _, rfl⟩ := hins
  have hT := hm.persistAll hatt
  exact ⟨HeaderTree.persistAll be es, by simp [hbe], hT.headers, hT.invalid⟩

theorem Persisted.markInvalid (h : Persisted hs) (ord : IterOrder) (hash : Hash256) :
    Persisted (hs.markInvalid ord hash) := by
  obtain ⟨be, hbe, hm⟩ := h
  set descendants := (removeTip hash hs.tips).filter fun tip => hs.descendsFrom hash hs.fuel tip
    with hdesc
  obtain ⟨hheaders, hmem⟩ := persistInvalidTips_spec (be.persistInvalidTip hash) descendants
  refine ⟨descendants.foldl Backend.persistInvalidTip (be.persistInvalidTip hash), ?_, ?_, ?_⟩
  · simp [HeaderStore.markInvalid, HeaderStore.recomputeBestTip, hbe, hdesc]
  · intro k
    rw [hheaders]
    exact hm.headers k
  · intro m
    change _ ↔ m ∈ insert hash hs.invalidTips ∪ descendants.toFinset
    rw [hmem, mem_persistInvalidTip, hm.invalid, Finset.mem_union, Finset.mem_insert,
      List.mem_toFinset]
    tauto

theorem Persisted.switchActiveChain {newTip : Hash256} (h : Persisted hs)
    (htree : Tree P genesis hs) (hswitch : hs.switchActiveChain ord newTip = .ok hs') :
    Persisted hs' := by
  obtain ⟨be, hbe, hm⟩ := h
  obtain ⟨_, _, _, _, _, _, _, rfl⟩ := switchActiveChain_eq_ok htree hswitch
  exact ⟨be, hbe, hm.headers, hm.invalid⟩

def isOpenLeaf (hs : HeaderStore) (hash : Hash256) : Bool :=
  !hasChild hs hash && hash ∉ hs.invalidTips

def sparesLeaves (hs : HeaderStore) (hash : Hash256) : Bool :=
  (candidates hs).all fun c => (c ≠ hs.tip.1 && hs.descendsFrom hash hs.fuel c) ||
    (candidates hs).any fun leaf => isOpenLeaf hs leaf && hs.descendsFrom c hs.fuel leaf &&
      leaf ≠ hash && !(leaf ∈ hs.tips && hs.descendsFrom hash hs.fuel leaf)

def unmarkedHeader (P : Primitives) (hs : HeaderStore) (header : BlockHeader) : Bool :=
  header.blockHash P ∈ hs.byHash ∨ header.blockHash P ∉ hs.invalidTips

def keepsLeaves (P : Primitives) (hs : HeaderStore) : HeaderOp → Bool
  | .addHeader header => unmarkedHeader P hs header
  | .addHeaders headers => headers.all (unmarkedHeader P hs)
  | .acceptHeader header => unmarkedHeader P hs header
  | .markInvalid _ hash => sparesLeaves hs hash
  | .switchActiveChain _ newTip => newTip ∉ hs.byHash ∨ (candidates hs).any fun leaf =>
      isOpenLeaf hs leaf && hs.descendsFrom newTip hs.fuel leaf
  | .validateAndCommit _ => false
  | .purgeStaleForks _ _ => false

theorem Live.openLeaf (h : Live hs) (hc : leaf ∈ candidates hs)
    (hopen : isOpenLeaf hs leaf = true) : OpenLeaf hs leaf := by
  simp only [isOpenLeaf, Bool.and_eq_true, Bool.not_eq_true', decide_eq_true_eq] at hopen
  exact ⟨h.stored leaf hc, hopen.1, hopen.2⟩

theorem Live.sparesLeaves (h : Live hs) (htree : Tree P genesis hs) {hash : Hash256}
    (hspares : sparesLeaves hs hash = true) : SparesLeaves hs hash := by
  intro c hc hstays
  have hc' := List.all_eq_true.mp hspares c hc
  simp only [Bool.or_eq_true, Bool.and_eq_true, List.any_eq_true, Bool.not_eq_true',
    decide_eq_true_eq, ← Bool.not_eq_true, htree.descendsFrom_iff] at hc'
  rcases hc' with ⟨hne, hdesc⟩ | ⟨leaf, hleaf, ⟨⟨hopen, hdesc⟩, hne⟩, hnot⟩
  · exact absurd hdesc (hstays.resolve_left hne)
  · exact ⟨leaf, h.openLeaf hleaf hopen, hdesc, hne, hnot⟩

structure Reloadable (P : Primitives) (genesis : BlockHeader) (hs : HeaderStore) : Prop where
  tree : Tree P genesis hs
  live : Live hs
  greatest : Greatest hs
  persisted : Persisted hs

theorem Reloadable.inserts {headers : List BlockHeader} (h : Reloadable P genesis hs)
    (hmark : ∀ header ∈ headers, unmarkedHeader P hs header = true)
    (hgenesis : ∀ header ∈ headers, header.blockHash P ≠ genesis.prevHash)
    (hins : Inserts P hs hs' headers true) : Reloadable P genesis hs' := by
  suffices hinv : Live hs' ∧ Greatest hs' from
    ⟨h.tree.inserts hins, hinv.1, hinv.2, h.persisted.inserts hins⟩
  -- the marks do not change while headers are stored
  refine (hins.invariant (fun hs' => Tree P genesis hs' ∧ hs'.invalidTips = hs.invalidTips ∧
    (∀ k ∈ hs.byHash, k ∈ hs'.byHash) ∧ Live hs' ∧ Greatest hs') (fun _ _ h => ?_) ?_ ?_).2.2.2
  · obtain ⟨htree, hinv, hsub, hlive, hgreatest⟩ := h
    exact ⟨⟨htree.rooted, htree.path, htree.active⟩, hinv, hsub, hlive.congr rfl rfl rfl rfl,
      hgreatest.attained, hgreatest.bound⟩
  · rintro hs₁ hash s extend ha hmem ⟨htree, hinv, hsub, hlive, hgreatest⟩
    have hunmarked : hash ∉ hs₁.invalidTips := by
      have hheader := hmark s.header hmem
      rw [unmarkedHeader, decide_eq_true_eq, ha.keyed] at hheader
      rw [hinv]
      exact hheader.resolve_left fun hin => ha.fresh (hsub hash hin)
    refine ⟨htree.attach ha, hinv, fun k hk => Finmap.mem_insert.mpr (.inr (hsub k hk)), ?_, ?_⟩
    · exact hlive.attach ha htree hunmarked (ha.keyed ▸ hgenesis s.header hmem)
    · exact hgreatest.attach ha htree hlive.stored
  · exact ⟨h.tree, rfl, fun _ => id, h.live, h.greatest⟩

theorem Reloadable.apply {op : HeaderOp} (h : Reloadable P genesis hs)
    (hinj : HashInjOn P {h | h ∈ op.headers})
    (hgenesis : ∀ header ∈ op.headers, header.blockHash P ≠ genesis.prevHash)
    (hcond : keepsLeaves P hs op = true) : Reloadable P genesis (op.apply P hs) := by
  have heffect := op.effect h.tree.trunk hinj
  generalize op.apply P hs = hs' at heffect
  cases heffect with
  | insert hins =>
    cases op with
    | addHeader header | acceptHeader header =>
      exact h.inserts (List.forall_mem_singleton.mpr hcond) hgenesis hins
    | addHeaders headers => exact h.inserts (List.all_eq_true.mp hcond) hgenesis hins
    | validateAndCommit headers => cases hcond
    | markInvalid ord hash | switchActiveChain ord newTip | purgeStaleForks ord height =>
      exact h.inserts (by simp [HeaderOp.headers]) hgenesis hins
  | mark ord hash =>
    have hlive := h.live.markInvalid h.tree ord (h.live.sparesLeaves h.tree hcond)
    refine ⟨tree_markInvalid h.tree ord hash, hlive, ?_, h.persisted.markInvalid ord hash⟩
    exact Live.greatest_recompute (hlive.congr rfl rfl rfl rfl) ord
  | @switch ord newTip _ hswitch =>
    obtain ⟨_, _, s, _, hnew, _⟩ := switchActiveChain_eq_ok h.tree hswitch
    have hmem : newTip ∈ hs.byHash := Finmap.mem_of_lookup_eq_some hnew
    have hleaf : ∃ leaf ∈ candidates hs, isOpenLeaf hs leaf = true ∧
        Descends (parentOf hs) leaf newTip := by
      simpa [keepsLeaves, hmem, h.tree.descendsFrom_iff] using hcond
    obtain ⟨leaf, hc, hopen, hdesc⟩ := hleaf
    obtain ⟨hlive, hgreatest⟩ :=
      h.live.switchActiveChain h.tree (h.live.openLeaf hc hopen) hdesc hswitch
    exact ⟨tree_switchActiveChain h.tree hswitch, hlive, hgreatest,
      h.persisted.switchActiveChain h.tree hswitch⟩
  | purge ord activeTipHeight => cases hcond

theorem withBackend_empty (ord : IterOrder) (params : ConsensusParams) :
    HeaderStore.withBackend P ord genesis params (some ⟨∅, []⟩) =
      HeaderStore.makeFresh P genesis params (some (Backend.persistHeader ⟨∅, []⟩
        (genesis.blockHash P) ⟨genesis, 0, workFromBits genesis.bits⟩)) := rfl

theorem reloadable_withBackend (ord : IterOrder) (params : ConsensusParams)
    (hgenesis : genesis.blockHash P ≠ genesis.prevHash) :
    Reloadable P genesis (HeaderStore.withBackend P ord genesis params (some ⟨∅, []⟩)) := by
  rw [withBackend_empty]
  set backend : Option Backend := some (Backend.persistHeader ⟨∅, []⟩ (genesis.blockHash P)
    ⟨genesis, 0, workFromBits genesis.bits⟩)
  have htree := tree_makeFresh P genesis params backend
  have hcov := covered_makeFresh P genesis params backend
  have hget : ∀ k, (HeaderStore.makeFresh P genesis params backend).get k =
      if k = genesis.blockHash P then some ⟨genesis, 0, workFromBits genesis.bits⟩ else none := by
    intro k
    simp [HeaderStore.get, HeaderStore.makeFresh, lookup_insert_eq]
  have hleaf : OpenLeaf (HeaderStore.makeFresh P genesis params backend) (genesis.blockHash P) := by
    refine ⟨Finmap.mem_of_lookup_eq_some htree.rooted.root, ?_, Finset.notMem_empty _⟩
    refine hasChild_eq_false.mpr fun k v hv => ?_
    rw [hget] at hv
    split_ifs at hv
    rw [← Option.some.inj hv]
    exact hgenesis.symm
  have hstored : ∀ k ∈ (HeaderStore.makeFresh P genesis params backend).byHash,
      k = genesis.blockHash P :=
    fun k hk => (Finmap.mem_insert.mp hk).resolve_right Finmap.notMem_empty
  refine ⟨htree, ⟨hcov.stored, fun leaf hl => ?_, fun c hc => ⟨_, hleaf, ?_⟩⟩,
    ⟨⟨_, List.mem_cons_self, _, htree.rooted.root, le_rfl⟩, hcov.best_max⟩, _, rfl, fun k => ?_, ?_⟩
  · rw [hstored leaf hl.stored]
    exact List.mem_cons_self
  · rw [hstored c (hcov.stored c hc)]
    exact Descends.refl _
  · rw [hget]
    change (AList.insert (genesis.blockHash P) _ ∅).lookup k = _
    by_cases hk : k = genesis.blockHash P
    · rw [if_pos hk, hk, AList.lookup_insert]
      rfl
    · rw [if_neg hk, AList.lookup_insert_ne hk]
      rfl
  · simp [Backend.persistHeader, HeaderStore.makeFresh]

theorem Mirrors.length_eq (h : Mirrors hs be) :
    be.headers.entries.length = hs.byHash.keys.card := by
  have hkeys : be.headers.keys.toFinset = hs.byHash.keys := by
    ext k
    rw [List.mem_toFinset, Finmap.mem_keys, ← AList.mem_keys, ← AList.lookup_isSome, h.headers,
      Option.isSome_map, ← Finmap.lookup_isSome]
    rfl
  rw [← hkeys, List.toFinset_card_of_nodup be.headers.keys_nodup]
  simp [AList.keys, List.keys]

/-- A reload finds the best chainwork of the store, with the path to it. -/
def ReloadsBest (genesis : Hash256) (ord : IterOrder) (hs : HeaderStore) : Prop :=
  ∃ be l, hs.backend = some be ∧ tryLoadFromBackend ord be genesis = .ok (some l, be) ∧
    l.bestKnownTip.2 = hs.bestTip.2.2 ∧ Path genesis l.byHash l.activeChain ∧
    l.activeChain.getLast? = some l.bestKnownTip.1

theorem Reloadable.reloadsBest (h : Reloadable P genesis hs) (ord : IterOrder)
    (hlen : hs.byHash.keys.card ≤ maxLoadableHeaders) :
    ReloadsBest (genesis.blockHash P) ord hs := by
  obtain ⟨be, hbe, hm⟩ := h.persisted
  obtain ⟨c, hc, sc, hsc, hbest⟩ := h.greatest.attained
  obtain ⟨leaf, hleaf, hdesc⟩ := h.live.live c hc
  obtain ⟨l, hload, hbyHash, hpath, hlast, ⟨s, hopen, hs', hwork⟩, hmax⟩ :=
    hm.load h.tree ord (hm.length_eq.le.trans hlen) hleaf
  refine ⟨be, l, hbe, hload, ?_, hbyHash.symm ▸ hpath, hlast⟩
  change l.bestKnownTip.2 = hs.bestKnownTip.2
  apply le_antisymm
  · rw [hwork]
    exact h.greatest.bound _ (h.live.candidate _ hopen) s hs'
  · obtain ⟨sl, hsl⟩ := Finmap.mem_iff.mp hleaf.stored
    calc hs.bestKnownTip.2 ≤ sc.chainwork := hbest
      _ ≤ sl.chainwork := h.tree.chainwork_le hdesc hsl hsc
      _ ≤ l.bestKnownTip.2 := hmax leaf sl hleaf hsl

theorem reloadsBest_of_keepsLeaves (P : Primitives) (genesis : BlockHeader)
    (params : ConsensusParams) (ord ord' : IterOrder) (ops : List HeaderOp)
    (hhash : HeaderHashSound P ops)
    (hgenesis : ∀ header ∈ genesis :: ops.flatMap HeaderOp.headers,
      header.blockHash P ≠ genesis.prevHash)
    (hcond : Along (HeaderOp.apply P) (fun hs op => keepsLeaves P hs op = true)
      (HeaderStore.withBackend P ord genesis params (some ⟨∅, []⟩)) ops)
    (hlen : (run (HeaderOp.apply P) (HeaderStore.withBackend P ord genesis params (some ⟨∅, []⟩))
      ops).byHash.keys.card ≤ maxLoadableHeaders) :
    ReloadsBest (genesis.blockHash P) ord'
      (run (HeaderOp.apply P) (HeaderStore.withBackend P ord genesis params (some ⟨∅, []⟩)) ops) := by
  rw [List.forall_mem_cons] at hgenesis
  refine Reloadable.reloadsBest (P := P) (run_invariant (Reloadable P genesis) ?_
    (reloadable_withBackend ord params hgenesis.1)
    (hcond.and fun op hop => And.intro (hhash.injOn hop) fun header hheader =>
      hgenesis.2 header (List.mem_flatMap.mpr ⟨op, hop, hheader⟩))) ord' hlen
  rintro hs op h ⟨hcond, hinj, hgenesis⟩
  exact h.apply hinj hgenesis hcond

def easyBackedStore : HeaderStore :=
  HeaderStore.withBackend poly .id easyGenesis ConsensusParams.testing (some ⟨∅, []⟩)

theorem reloadsBest_after_mark :
    ReloadsBest (easyGenesis.blockHash poly) .id (run (HeaderOp.apply poly) easyBackedStore
        [.addHeaders [headerA1], .acceptHeader headerB1, .acceptHeader headerB2,
          .acceptHeader headerA2, .markInvalid .id (headerB2.blockHash poly),
          .switchActiveChain .id (headerA2.blockHash poly)]) :=
  reloadsBest_of_keepsLeaves poly easyGenesis ConsensusParams.testing .id .id _
    (by decide +kernel) (by decide +kernel) (by decide +kernel) (by decide +kernel)

def forgettingRun : List HeaderOp :=
  [.acceptHeader headerA1, .acceptHeader headerB1, .acceptHeader headerB2, .acceptHeader headerA2,
    .markInvalid .id (headerB2.blockHash poly),
    .markInvalid .id (headerA2.blockHash poly)]

/-- Both leaves are marked after their blocks failed to connect. The store goes
on with its active tip `A1`; the reload finds no tip and falls back to genesis
with chainwork zero. -/
theorem reload_forgets_active_tip :
    ¬ ReloadsBest (easyGenesis.blockHash poly) .id
      (run (HeaderOp.apply poly) easyBackedStore forgettingRun) := by
  rintro ⟨be, l, hbe, hload, hwork, -⟩
  have hzero : ((run (HeaderOp.apply poly) easyBackedStore forgettingRun).backend.bind
      fun be => (tryLoadFromBackend .id be (easyGenesis.blockHash poly)).toOption.bind
        fun r => r.1.map fun l => l.bestKnownTip.2) = some 0 := by
    decide +kernel
  have hpos : (run (HeaderOp.apply poly) easyBackedStore forgettingRun).bestTip.2.2 ≠ 0 := by
    decide +kernel
  simp only [hbe, hload, Option.bind_some, Except.toOption, Option.map_some,
    Option.some.injEq] at hzero
  exact hpos (hwork.symm.trans hzero)

end Ironcat.HeaderReload
