import Ironcat.BestTip
import Ironcat.ForkLookup

/-!
# Headers above an invalid one

`mark_invalid` records the header and the tips above it, `accept_header` asks
only whether the parent is recorded. A header is quarantined if everything
stored above it is recorded: then nothing more is stored above it, and the best
tip stays away from it.
-/

namespace Ironcat.Quarantine

open Lib.FiniteMap Lib.Forest Lib.Runs Types Headers HeaderTree HeaderRuns
open BestTip ForkLookup

variable {P : Primitives} {genesis : BlockHeader} {hs hs' : HeaderStore}
variable {x hash : Hash256} {s : StoredHeader} {extend : Bool}

structure Marked (x : Hash256) (hs : HeaderStore) : Prop where
  stored : x ∈ hs.byHash
  marked : ∀ d ∈ hs.byHash, Descends (parentOf hs) d x → d ∈ hs.invalidTips

theorem Marked.not_above (h : Marked x hs) (htree : Tree P genesis hs)
    (ha : Attachable P hs hash s extend)
    (hprev : extend = true → ¬ Descends (parentOf hs) s.header.prevHash x) :
    ¬ Descends (parentOf (attach hs hash s extend)) hash x := by
  rw [ha.descends_hash_iff htree]
  rintro (rfl | hdesc)
  · exact ha.fresh h.stored
  · cases extend with
    | true => exact hprev rfl hdesc
    | false =>
      obtain ⟨p, hp, _⟩ := ha.parent
      exact ha.offTip rfl (h.marked _ (Finmap.mem_of_lookup_eq_some hp) hdesc)

theorem marked_attach (h : Marked x hs) (htree : Tree P genesis hs)
    (ha : Attachable P hs hash s extend)
    (hnot : ¬ Descends (parentOf (attach hs hash s extend)) hash x) :
    Marked x (attach hs hash s extend) := by
  have hmem : ∀ k, k ∈ (attach hs hash s extend).byHash ↔ k = hash ∨ k ∈ hs.byHash :=
    fun k => Finmap.mem_insert
  refine ⟨(hmem x).mpr (.inr h.stored), fun d hd hdesc => ?_⟩
  rcases (hmem d).mp hd with rfl | hd
  · exact absurd hdesc hnot
  · have hne : d ≠ hash := fun heq => ha.fresh (heq ▸ hd)
    exact h.marked d hd ((ha.descends_iff_of_ne htree hne).mp hdesc)

/-- What marking `x` has to find: the other headers above it are tips or marked
already. -/
def TipsOrMarked (hs : HeaderStore) (x : Hash256) : Prop :=
  ∀ d ∈ hs.byHash, Descends (parentOf hs) d x → d ≠ x → d ∈ hs.tips ∨ d ∈ hs.invalidTips

def unmarkedAbove (hs : HeaderStore) (x : Hash256) : Finset Hash256 :=
  hs.byHash.keys.filter fun d =>
    hs.descendsFrom x hs.fuel d = true ∧ d ≠ x ∧ d ∉ hs.tips ∧ d ∉ hs.invalidTips

theorem tipsOrMarked_iff (htree : Tree P genesis hs) :
    TipsOrMarked hs x ↔ unmarkedAbove hs x = ∅ := by
  simp only [TipsOrMarked, unmarkedAbove, Finset.filter_eq_empty_iff, Finmap.mem_keys,
    htree.descendsFrom_iff]
  grind

theorem marked_markInvalid (htree : Tree P genesis hs) (hx : x ∈ hs.byHash)
    (hseal : TipsOrMarked hs x) (ord : IterOrder) : Marked x (hs.markInvalid ord x) := by
  refine ⟨hx, fun d hd hdesc => (mem_invalidTips_markInvalid htree).mpr ?_⟩
  by_cases heq : d = x
  · exact .inr (.inl heq)
  · rcases hseal d hd hdesc heq with htip | hinvalid
    · exact .inr (.inr ⟨htip, hdesc⟩)
    · exact .inl hinvalid

/-- The calls of `accept_header` on a list of headers, failing ones included. -/
def acceptAll (P : Primitives) (hs : HeaderStore) (headers : List BlockHeader) : HeaderStore :=
  run (HeaderOp.apply P) hs (headers.map .acceptHeader)

theorem marked_acceptHeader {header : BlockHeader} {r : HeaderStore.AcceptResult}
    (h : Marked x hs) (htree : Tree P genesis hs) (hok : hs.acceptHeader P header = .ok (hs', r)) :
    hs' = hs ∧ r = .alreadyKnown ∨ ¬ Descends (parentOf hs) header.prevHash x ∧ Marked x hs' := by
  obtain ⟨_, heq, hr⟩ | ⟨hvalid, p, extend, hp, ha, _, rfl⟩ := acceptHeader_eq_ok hok
  · exact .inl ⟨heq, hr⟩
  · have hprev : ¬ Descends (parentOf hs) header.prevHash x := fun hdesc =>
      hvalid (h.marked _ (Finmap.mem_of_lookup_eq_some hp) hdesc)
    have hmarked := marked_attach h htree ha (h.not_above htree ha fun _ => hprev)
    exact .inr ⟨hprev, hmarked.stored, hmarked.marked⟩

theorem marked_acceptEach (h : Marked x hs) (htree : Tree P genesis hs)
    (headers : List BlockHeader) :
    Tree P genesis (acceptAll P hs headers) ∧ Marked x (acceptAll P hs headers) := by
  induction headers generalizing hs with
  | nil => exact ⟨htree, h⟩
  | cons header headers ih =>
    change Tree P genesis (acceptAll P (HeaderOp.apply P hs (.acceptHeader header)) headers) ∧
      Marked x (acceptAll P (HeaderOp.apply P hs (.acceptHeader header)) headers)
    cases hok : hs.acceptHeader P header with
    | error e => simpa [HeaderOp.apply, hok, Except.toOption] using ih h htree
    | ok result =>
      obtain ⟨hs', r⟩ := result
      have htree' := htree.inserts (acceptHeader_inserts hok)
      have hmarked : Marked x hs' := by
        rcases marked_acceptHeader h htree hok with ⟨rfl, _⟩ | ⟨_, hmarked⟩
        · exact h
        · exact hmarked
      simpa [HeaderOp.apply, hok, Except.toOption] using ih hmarked htree'

/-- After `mark_invalid(x)` on a store in which the other headers above `x` are
tips or marked, no sequence of `accept_header` calls stores a header above
`x`. -/
theorem invalidity_inherited_of_tips (htree : Tree P genesis hs) (hx : x ∈ hs.byHash)
    (hseal : TipsOrMarked hs x) (ord : IterOrder) (before : List BlockHeader)
    (header : BlockHeader)
    (hdesc : Descends (parentOf (acceptAll P (hs.markInvalid ord x) before)) header.prevHash x) :
    (∃ e, (acceptAll P (hs.markInvalid ord x) before).acceptHeader P header = .error e) ∨
    (acceptAll P (hs.markInvalid ord x) before).acceptHeader P header =
      .ok (acceptAll P (hs.markInvalid ord x) before, .alreadyKnown) := by
  obtain ⟨htree', hmarked⟩ := marked_acceptEach (marked_markInvalid htree hx hseal ord)
    (tree_markInvalid htree ord x) before
  generalize acceptAll P (hs.markInvalid ord x) before = hs' at *
  cases hok : hs'.acceptHeader P header with
  | error e => exact .inl ⟨e, rfl⟩
  | ok result =>
    obtain ⟨hs'', r⟩ := result
    obtain ⟨rfl, rfl⟩ | ⟨hnot, _⟩ := marked_acceptHeader hmarked htree' hok
    · exact .inr rfl
    · exact absurd hdesc hnot

def quarantinedB3 : BlockHeader := childOf headerB2 5

def shallowFork : HeaderStore := arrivals [headerA1, headerB1, headerB2]

theorem child_of_marked_tip_rejected :
    (∃ e, (shallowFork.markInvalid .id (headerB1.blockHash poly)).acceptHeader
      poly quarantinedB3 = .error e) ∨
    (shallowFork.markInvalid .id (headerB1.blockHash poly)).acceptHeader poly quarantinedB3 =
        .ok (shallowFork.markInvalid .id (headerB1.blockHash poly), .alreadyKnown) := by
  have htree : Tree poly easyGenesis shallowFork := tree_arrivals _ (by decide +kernel)
  have hseal : unmarkedAbove shallowFork (headerB1.blockHash poly) = ∅ := by
    decide +kernel
  refine invalidity_inherited_of_tips htree (by decide +kernel) ((tipsOrMarked_iff htree).mpr hseal)
    .id [] quarantinedB3 ?_
  refine Descends.head ?_ (Descends.refl _)
  decide +kernel

def headerC3 : BlockHeader := childOf headerB2 6

def deepFork : HeaderStore := arrivals [headerA1, headerB1, headerB2, quarantinedB3]

theorem parentOf_headerB2 : parentOf (deepFork.markInvalid .id (headerB1.blockHash poly))
    (headerB2.blockHash poly) = some (headerB1.blockHash poly) := by
  decide +kernel

/-- `B2` lies between the marked `B1` and the marked tip `B3` and is not marked
itself, so a second child of `B2` is accepted. -/
theorem interior_header_accepts_child :
    headerB1.blockHash poly ∉ deepFork.activeSet ∧
    Descends (parentOf (deepFork.markInvalid .id (headerB1.blockHash poly)))
      headerC3.prevHash (headerB1.blockHash poly) ∧
    ((deepFork.markInvalid .id (headerB1.blockHash poly)).acceptHeader poly
      headerC3).toOption.map Prod.snd = some .needReorg := by
  refine ⟨by decide +kernel, ?_, by decide +kernel⟩
  exact Descends.head parentOf_headerB2 (Descends.refl _)

structure ClearOf (x : Hash256) (hs : HeaderStore) : Prop extends Marked x hs where
  off : x ∉ hs.activeSet
  tips : ∀ t ∈ hs.tips, ¬ Descends (parentOf hs) t x

structure Quarantined (x : Hash256) (hs : HeaderStore) : Prop extends ClearOf x hs where
  best : ¬ Descends (parentOf hs) hs.bestKnownTip.1 x

variable {a : Hash256}

theorem ClearOf.not_active (h : ClearOf x hs) (htree : Tree P genesis hs) (ha : a ∈ hs.activeSet) :
    ¬ Descends (parentOf hs) a x :=
  fun hdesc => h.off (htree.descends_active ha hdesc)

theorem tip_mem_activeSet (htree : Tree P genesis hs) : hs.tip.1 ∈ hs.activeSet := by
  obtain ⟨_, hlast, _⟩ := htree.tip_eq
  rw [htree.active, List.mem_toFinset]
  exact List.mem_of_getLast? hlast

theorem ClearOf.recomputeBestTip (h : ClearOf x hs) (htree : Tree P genesis hs) (ord : IterOrder) :
    Quarantined x (hs.recomputeBestTip ord) := by
  obtain ⟨t, _, ht, _⟩ := htree.tip_eq
  obtain ⟨c, hc, s, _, hbest, _⟩ := recomputeBestTip_spec ord hs ⟨t, ht⟩
  refine ⟨⟨⟨h.stored, h.marked⟩, h.off, h.tips⟩, ?_⟩
  rw [hbest]
  rcases List.mem_cons.mp hc with rfl | hc
  · exact h.not_active htree (tip_mem_activeSet htree)
  · exact h.tips c hc

theorem quarantined_attach (h : Quarantined x hs) (htree : Tree P genesis hs)
    (ha : Attachable P hs hash s extend) : Quarantined x (attach hs hash s extend) := by
  have hprev : extend = true → ¬ Descends (parentOf hs) s.header.prevHash x := by
    intro hextend
    refine h.not_active htree ?_
    rw [htree.active, List.mem_toFinset]
    exact List.mem_of_getLast? (ha.onTip hextend)
  have hnot := h.not_above htree ha hprev
  have hkeep : ∀ k, ¬ Descends (parentOf hs) k x →
      ¬ Descends (parentOf (attach hs hash s extend)) k x := by
    intro k hk
    by_cases heq : k = hash
    · exact heq ▸ hnot
    · rwa [ha.descends_iff_of_ne htree heq]
  refine ⟨⟨marked_attach h.toMarked htree ha hnot, ?_, ?_⟩, ?_⟩
  · have hne : x ≠ hash := fun heq => ha.fresh (heq ▸ h.stored)
    cases extend with
    | false => exact h.off
    | true => exact fun hx => (Finset.mem_insert.mp hx).elim hne h.off
  · intro t ht
    have ht : t ∈ insertTip hash (removeTip s.header.prevHash hs.tips) := ht
    rw [mem_insertTip, mem_removeTip] at ht
    rcases ht with rfl | ⟨ht, _⟩
    · exact hnot
    · exact hkeep t (h.tips t ht)
  · change ¬ Descends _ (if hs.bestKnownTip.2 < s.chainwork then (hash, s.chainwork)
      else hs.bestKnownTip).1 x
    split_ifs
    · exact hnot
    · exact hkeep _ h.best

theorem Quarantined.inserts {headers : List BlockHeader} {persisted : Bool} (h : Quarantined x hs)
    (htree : Tree P genesis hs) (hins : Inserts P hs hs' headers persisted) : Quarantined x hs' := by
  refine (hins.invariant (fun T => Tree P genesis T ∧ Quarantined x T) ?_ ?_ ⟨htree, h⟩).2
  · rintro T be ⟨ht, hq⟩
    exact ⟨⟨ht.rooted, ht.path, ht.active⟩, ⟨⟨⟨hq.stored, hq.marked⟩, hq.off, hq.tips⟩, hq.best⟩⟩
  · rintro T hash s extend ha _ ⟨ht, hq⟩
    exact ⟨ht.attach ha, quarantined_attach hq ht ha⟩

/-- The store that `mark_invalid` recomputes the best tip of. -/
def withMarks (ord : IterOrder) (hs : HeaderStore) (y : Hash256) : HeaderStore :=
  { hs with
    tips := (hs.markInvalid ord y).tips
    invalidTips := (hs.markInvalid ord y).invalidTips
    backend := (hs.markInvalid ord y).backend }

theorem ClearOf.markInvalid {y : Hash256} {ord : IterOrder} (h : ClearOf x (withMarks ord hs y))
    (htree : Tree P genesis hs) : Quarantined x (hs.markInvalid ord y) :=
  h.recomputeBestTip ⟨htree.rooted, htree.path, htree.active⟩ ord

theorem quarantined_markInvalid (h : Quarantined x hs) (htree : Tree P genesis hs) (ord : IterOrder)
    (y : Hash256) : Quarantined x (hs.markInvalid ord y) := by
  refine ClearOf.markInvalid ⟨⟨h.stored, fun d hd hdesc => ?_⟩, h.off, fun t ht => ?_⟩ htree
  · change d ∈ (hs.markInvalid ord y).invalidTips
    exact (mem_invalidTips_markInvalid htree).mpr (.inl (h.marked d hd hdesc))
  · change t ∈ (hs.markInvalid ord y).tips at ht
    exact h.tips t ((mem_tips_markInvalid htree).mp ht).1

theorem markInvalid_quarantines (htree : Tree P genesis hs) (hx : x ∈ hs.byHash)
    (hoff : x ∉ hs.activeSet) (hseal : TipsOrMarked hs x) (ord : IterOrder) :
    Quarantined x (hs.markInvalid ord x) := by
  have hmarked := marked_markInvalid htree hx hseal ord
  refine ClearOf.markInvalid ⟨⟨hx, hmarked.marked⟩, hoff, fun t ht => ?_⟩ htree
  change t ∈ (hs.markInvalid ord x).tips at ht
  exact ((mem_tips_markInvalid htree).mp ht).2

theorem tip_descends (htree : Tree P genesis hs) (ha : a ∈ hs.activeSet) :
    Descends (parentOf hs) hs.tip.1 a := by
  obtain ⟨t, _, ht, hheight⟩ := htree.tip_eq
  have hmem := List.mem_toFinset.mp (htree.active ▸ ha)
  obtain ⟨i, hi⟩ := List.mem_iff_getElem?.mp hmem
  have hle : i ≤ t.height := by
    have := (List.getElem?_eq_some_iff.mp hi).1
    rw [hheight]
    exact Nat.le_sub_one_of_lt this
  obtain ⟨b, s, hdesc, hs', hsheight⟩ := exists_ancestor htree ht hle
  have hb := htree.activeChain_of_mem (htree.descends_active (tip_mem_activeSet htree) hdesc) hs'
  rw [hsheight, hi, Option.some.injEq] at hb
  exact hb ▸ hdesc

theorem quarantined_switchActiveChain {ord : IterOrder} {newTip : Hash256} (h : Quarantined x hs)
    (htree : Tree P genesis hs) (hnew : ¬ Descends (parentOf hs) newTip x)
    (hok : hs.switchActiveChain ord newTip = .ok hs') : Quarantined x hs' := by
  obtain ⟨oldTip, chain, s, hold, hget, hlast, hpath, rfl⟩ := switchActiveChain_eq_ok htree hok
  set T : HeaderStore := { hs with
    activeChain := chain
    activeSet := chain.toFinset
    tips := removeTip newTip (insertTip oldTip hs.tips) }
  have hT : Tree P genesis T := ⟨htree.rooted, hpath, rfl⟩
  have htip : T.tip.1 = newTip := by
    change chain.getLastD 0 = newTip
    rw [List.getLastD_eq_getLast?, hlast]
    rfl
  have hclear : ClearOf x T := by
    refine ⟨⟨h.stored, h.marked⟩, fun hx => ?_, fun t ht => ?_⟩
    · exact hnew (htip ▸ tip_descends hT hx)
    · rcases mem_insertTip.mp (mem_removeTip.mp ht).1 with rfl | ht
      · refine h.not_active htree ?_
        rw [htree.active, List.mem_toFinset]
        exact List.mem_of_getLast? hold
      · exact h.tips t ht
  exact hclear.recomputeBestTip hT ord

theorem parentOf_of_subset (hsub : ∀ k v, hs'.get k = some v → hs.get k = some v) {b : Hash256}
    (hab : parentOf hs' a = some b) : parentOf hs a = some b := by
  obtain ⟨v, hv, hpos, hprev⟩ := parentOf_eq_some.mp hab
  exact parentOf_eq_some.mpr ⟨v, hsub a v hv, hpos, hprev⟩

theorem descends_of_subset (hsub : ∀ k v, hs'.get k = some v → hs.get k = some v) {b : Hash256}
    (hab : Descends (parentOf hs') a b) : Descends (parentOf hs) a b :=
  hab.mono fun _ _ => parentOf_of_subset hsub

structure Purging (P : Primitives) (genesis : BlockHeader) (x : Hash256) (tips : List Hash256)
    (hs : HeaderStore) : Prop extends Prunable P genesis tips hs, Marked x hs where
  off : x ∉ hs.activeSet
  away : ∀ t ∈ tips, ¬ Descends (parentOf hs) t x

variable {tips : List Hash256}

variable {current : Hash256}

theorem get_of_erase {k : Hash256} {v : StoredHeader}
    (hk : ({ hs with byHash := hs.byHash.erase current } : HeaderStore).get k = some v) :
    hs.get k = some v := by
  change (hs.byHash.erase current).lookup k = some v at hk
  rw [lookup_erase_eq] at hk
  split_ifs at hk
  exact hk

theorem Purging.erase (h : Purging P genesis x tips hs) (hoff : current ∉ hs.activeSet)
    (hleaf : hasChild hs current = false) (hne : x ≠ current) :
    Purging P genesis x tips { hs with byHash := hs.byHash.erase current } := by
  refine ⟨h.eraseLeaf hoff hleaf, ⟨?_, ?_⟩, h.off, ?_⟩
  · exact Finmap.mem_erase.mpr ⟨hne, h.stored⟩
  · intro d hd hdesc
    exact h.marked d (Finmap.mem_erase.mp hd).2 (descends_of_subset (fun _ _ => get_of_erase) hdesc)
  · exact fun t ht hdesc => h.away t ht (descends_of_subset (fun _ _ => get_of_erase) hdesc)

theorem Purging.removeBranch {fuel : ℕ} (h : Purging P genesis x tips hs)
    (hleaf : current ∉ hs.activeSet → hasChild hs current = false)
    (haway : ¬ Descends (parentOf hs) current x) :
    Purging P genesis x tips (hs.removeBranch fuel current) := by
  refine removeBranch_keeps (J := fun hs current =>
    (current ∉ hs.activeSet → hasChild hs current = false) ∧ ¬ Descends (parentOf hs) current x)
    ?_ fuel h ⟨hleaf, haway⟩
  intro hs current s h ⟨hleaf, haway⟩ hactive hget
  have hne : x ≠ current := fun heq => haway (heq ▸ Descends.refl _)
  refine ⟨h.erase hactive (hleaf hactive) hne, fun hchild => ⟨fun _ => hchild, fun hdesc => ?_⟩⟩
  refine haway ?_
  -- genesis is active, so the erased header has a parent
  have hpos : 0 < s.height := by
    refine Nat.pos_of_ne_zero fun hzero => hactive ?_
    rw [(h.tree.rooted.height_eq_zero_iff hget).mp hzero, h.tree.active, List.mem_toFinset]
    exact List.mem_of_getElem? h.tree.path.first
  exact Descends.head (parentOf_eq_some.mpr ⟨s, hget, hpos, rfl⟩)
    (descends_of_subset (fun _ _ => get_of_erase) hdesc)

theorem keptByPurge_purging : KeptByPurge tips (Purging P genesis x tips) where
  subset _ h := h.subset
  drop _ _ h := ⟨⟨⟨h.tree.rooted, h.tree.path, h.tree.active⟩, h.leaf,
    fun t ht => h.subset t (mem_removeTip.mp ht).1⟩, ⟨h.stored, h.marked⟩, h.off, h.away⟩
  branch _ tip _ htip h := h.removeBranch (h.leaf tip htip) (h.away tip htip)

theorem quarantined_purgeStaleForks (h : Quarantined x hs) (htree : Tree P genesis hs)
    (ord : IterOrder) (activeTipHeight : ℕ)
    (hleaf : LeafPurge hs (.purgeStaleForks ord activeTipHeight)) :
    Quarantined x (hs.purgeStaleForks ord activeTipHeight) := by
  have hstart : Purging P genesis x hs.tips hs :=
    ⟨⟨htree, hleaf, fun _ => id⟩, h.toMarked, h.off, h.tips⟩
  obtain ⟨hs₁, hend, heq⟩ := keptByPurge_purging.purgeStaleForks hstart ord activeTipHeight
  rw [heq]
  exact ClearOf.recomputeBestTip ⟨hend.toMarked, hend.off,
    fun t ht => hend.away t (hend.subset t ht)⟩ hend.tree ord

/-- The later calls: the active chain is not switched to a header above `x`, and
purges find leaves. -/
def SwitchesAway (x : Hash256) (hs : HeaderStore) : HeaderOp → Prop
  | .switchActiveChain _ newTip => hs.descendsFrom x hs.fuel newTip = false
  | op => LeafPurge hs op

instance (x : Hash256) : ∀ (hs : HeaderStore) (op : HeaderOp), Decidable (SwitchesAway x hs op)
  | hs, .switchActiveChain _ newTip =>
    inferInstanceAs (Decidable (hs.descendsFrom x hs.fuel newTip = false))
  | hs, .purgeStaleForks ord h => inferInstanceAs (Decidable (LeafPurge hs (.purgeStaleForks ord h)))
  | _, .addHeader _ | _, .addHeaders _ | _, .validateAndCommit _ | _, .acceptHeader _
  | _, .markInvalid _ _ => isTrue trivial

theorem leafPurge_of_switchesAway {op : HeaderOp} (h : SwitchesAway x hs op) : LeafPurge hs op := by
  cases op <;> first | exact h | trivial

theorem quarantined_apply {op : HeaderOp} (h : Quarantined x hs) (htree : Tree P genesis hs)
    (hinj : HashInjOn P {h | h ∈ op.headers}) (hop : SwitchesAway x hs op) :
    Quarantined x (op.apply P hs) := by
  have heffect := op.effect htree.trunk hinj
  generalize op.apply P hs = hs' at heffect
  cases heffect with
  | insert hins => exact h.inserts htree hins
  | mark ord hash => exact quarantined_markInvalid h htree ord hash
  | switch hswitch =>
    refine quarantined_switchActiveChain h htree ?_ hswitch
    rw [← htree.descendsFrom_iff, Bool.not_eq_true]
    exact hop
  | purge ord activeTipHeight => exact quarantined_purgeStaleForks h htree ord activeTipHeight hop

theorem quarantined_run {ops : List HeaderOp} (h : Quarantined x hs) (htree : Tree P genesis hs)
    (hhash : HeaderHashSound P ops) (hops : Along (HeaderOp.apply P) (SwitchesAway x) hs ops) :
    Quarantined x (run (HeaderOp.apply P) hs ops) := by
  refine (run_invariant (fun hs => Tree P genesis hs ∧ Quarantined x hs) ?_ ⟨htree, h⟩
    (hops.and fun op => hhash.injOn)).2
  rintro hs op ⟨htree, h⟩ ⟨hop, hinj⟩
  exact ⟨tree_apply htree hinj (leafPurge_of_switchesAway hop), quarantined_apply h htree hinj hop⟩

end Ironcat.Quarantine
