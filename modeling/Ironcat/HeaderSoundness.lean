import Ironcat.Checkpoints
import Ironcat.HeaderBranches

/-!
# The branches of a reachable store

Every branch that a store comes to hold has passed the checks of `add_header`
header by header, each against the headers below it on the branch itself: it does
not matter by which call a header came in, which chain was active then, or what
was purged since.
-/

namespace Ironcat.HeaderSoundness

open Lib.Checked Lib.FiniteMap Lib.Runs Types Difficulty Headers HeaderTree HeaderRuns
open HeaderBranches BatchInsert Checkpoints

/-- The checks of `add_header` on every header of a branch. -/
def Sound (P : Primitives) (params : ConsensusParams) (genesis : BlockHeader) :
    List BlockHeader → Prop
  | [] => True
  | header :: below => Sound P params genesis below ∧ ValidOn P params genesis below header ∧
      Pinned params (header.blockHash P) (below.length + 1)

variable {P : Primitives} {params : ConsensusParams} {genesis header : BlockHeader}
variable {hs hs' : HeaderStore} {branch below headers : List BlockHeader}

theorem tipWork_eq (h : Active P genesis hs branch) : tipWork hs = branchWork genesis branch := by
  rw [tipWork, h.tip]
  simp [h.holds.get, storedTip]

theorem addHeader_eq_ok_iff (h : Active P genesis hs branch) :
    hs.addHeader P header = .ok hs' ↔ header.blockHash P ∉ hs.byHash ∧
      ValidOn P hs.params genesis branch header ∧
      Pinned hs.params (header.blockHash P) (branch.length + 1) ∧
      hs' = (hs.persist (header.blockHash P) (storedTip genesis (header :: branch))).commitToMemory
        (header.blockHash P) (storedTip genesis (header :: branch)) := by
  have hwork := tipWork_eq h
  have hstored : storedAbove hs.tip (tipWork hs) header = storedTip genesis (header :: branch) := by
    rw [storedAbove, hwork, h.tip]
    rfl
  have hlookup : getNextWorkRequired P hs.params (branch.length + 1) hs.headerAt =
      getNextWorkRequired P hs.params (branch.length + 1) (branchLookup genesis branch) :=
    getNextWorkRequired_congr P fun _ hk => h.headerAt (Nat.lt_succ_iff.mp hk)
  rw [addHeader_eq_ok, hstored]
  refine and_congr_right fun _ => ?_
  constructor
  · rintro ⟨hvalid, hpow, rfl⟩
    obtain ⟨hprev, hheight, hbits, hcheckpoint, hbound⟩ := hvalid
    rw [h.tip] at hprev hheight hbits hcheckpoint hpow
    rw [checkDifficulty_eq_ok, hlookup] at hbits
    exact ⟨⟨hprev, hheight, hwork ▸ hbound, hbits, ensure_eq_ok.mp hpow⟩,
      checkCheckpoint_eq_ok.mp hcheckpoint, rfl⟩
  · rintro ⟨hvalid, hpinned, rfl⟩
    refine ⟨?_, ?_, rfl⟩
    · rw [h.tip]
      refine ⟨hvalid.prev, hvalid.height, ?_, checkCheckpoint_eq_ok.mpr hpinned, hwork ▸ hvalid.work⟩
      rw [checkDifficulty_eq_ok, hlookup]
      exact hvalid.bits
    · rw [h.tip]
      exact ensure_eq_ok.mpr hvalid.pow

/-- Every branch of the store passes the checks of `add_header`. -/
def AllSound (P : Primitives) (genesis : BlockHeader) (hs : HeaderStore) : Prop :=
  ∀ branch, HoldsBranch P genesis hs branch → Sound P hs.params genesis branch

theorem AllSound.congr (h : AllSound P genesis hs) (hmap : hs'.byHash = hs.byHash)
    (hparams : hs'.params = hs.params) : AllSound P genesis hs' := by
  intro branch hbranch
  rw [hparams]
  refine h branch (hbranch.mono fun k s hk => ?_)
  rwa [HeaderStore.get, ← hmap]

theorem AllSound.insert (h : AllSound P genesis hs) (htree : Tree P genesis hs)
    (hbelow : HoldsBranch P genesis hs below) (hnew : header.blockHash P ∉ hs.byHash)
    (hvalid : ValidOn P hs.params genesis below header)
    (hpinned : Pinned hs.params (header.blockHash P) (below.length + 1))
    (hmap : hs'.byHash = hs.byHash.insert (header.blockHash P) (storedTip genesis (header :: below)))
    (hparams : hs'.params = hs.params) : AllSound P genesis hs' := by
  have hget : ∀ k, hs'.get k = if k = header.blockHash P then
      some (storedTip genesis (header :: below)) else hs.get k := by
    intro k
    rw [HeaderStore.get, hmap]
    exact lookup_insert_eq _ _ _ _
  have hkept : ∀ k s, hs.get k = some s → hs'.get k = some s := by
    intro k s hk
    have hne : k ≠ header.blockHash P := fun heq => hnew (heq ▸ Finmap.mem_of_lookup_eq_some hk)
    rw [hget, if_neg hne, hk]
  intro branch hbranch
  rw [hparams]
  induction branch with
  | nil => trivial
  | cons x rest ih =>
    have hx := hbranch.2.1
    rw [hget] at hx
    split_ifs at hx with heq
    · obtain ⟨rfl, _⟩ : header = x ∧ _ := by simpa using hx
      obtain rfl : below = rest :=
        (hbelow.mono hkept).unique hbranch.2.2 (hvalid.prev.symm.trans hbranch.1)
      exact ⟨h _ hbelow, hvalid, hpinned⟩
    · obtain ⟨old, hold, htip, hstored⟩ := exists_holds htree hx
      obtain rfl : old = x :: rest := (hold.mono hkept).unique hbranch htip
      exact h _ hold

/-- What is asked of the calls: `accept_header`, which does not look at the
checkpoints, is given headers that respect them, and a purge finds leaves. -/
def Regular (P : Primitives) (hs : HeaderStore) : HeaderOp → Prop
  | .acceptHeader header =>
    ∀ p, hs.get header.prevHash = some p → Pinned hs.params (header.blockHash P) (p.height + 1)
  | op => LeafPurge hs op

theorem AllSound.addHeader (h : AllSound P genesis hs) (htree : Tree P genesis hs)
    (hok : hs.addHeader P header = .ok hs') : AllSound P genesis hs' := by
  obtain ⟨branch, hactive⟩ := exists_active htree
  obtain ⟨hnew, hvalid, hpinned, rfl⟩ := (addHeader_eq_ok_iff hactive).mp hok
  exact h.insert htree hactive.holds hnew hvalid hpinned rfl rfl

theorem AllSound.acceptHeader (h : AllSound P genesis hs) (htree : Tree P genesis hs)
    {r : HeaderStore.AcceptResult} (hgiven : Regular P hs (.acceptHeader header))
    (hok : hs.acceptHeader P header = .ok (hs', r)) : AllSound P genesis hs' := by
  obtain ⟨_, rfl, _⟩ | ⟨_, p, extend, hp, hatt, _, heq⟩ := acceptHeader_eq_ok hok
  · exact h
  · obtain ⟨below, hbelow, htip, rfl⟩ := exists_holds htree hp
    have hvalid := validOn_of_acceptHeader htree hbelow htip.symm hatt.fresh hok
    exact h.insert htree hbelow hatt.fresh hvalid (hgiven _ hp) (by rw [heq]; rfl) (by rw [heq]; rfl)

theorem AllSound.validateBatch {batch : List (Hash256 × StoredHeader)} (h : AllSound P genesis hs)
    (htree : Tree P genesis hs) (hinj : HashInjOn P {b | b ∈ headers})
    (hok : hs.validateBatch P headers = .ok batch) : AllSound P genesis (hs.commitAll batch) := by
  simp only [HeaderStore.validateBatch, bind_eq_ok, pure_eq_ok, forM_eq_ok] at hok
  obtain ⟨_, _, st, hst, _, hpow, rfl⟩ := hok
  have hstart : BatchInv P hs headers ⟨[], hs.tip⟩ := ⟨.nil, rfl, by simp, by simp, by simp⟩
  have hfold := (fold_eq_ok_iff htree hinj hstart (by simp [HasPow]) fun _ => id).mpr
    ⟨st, hst, hpow, rfl⟩
  have hall : Tree P genesis (batchStore hs st.validated) ∧
      AllSound P genesis (batchStore hs st.validated) := by
    refine foldlM_invariant (fun hs => Tree P genesis hs ∧ AllSound P genesis hs) ?_ ⟨htree, h⟩ hfold
    rintro header _ hs hs' ⟨htree, h⟩ hadd
    exact ⟨htree.inserts (addHeader_inserts htree.trunk hadd), h.addHeader htree hadd⟩
  refine hall.2.congr ?_ ?_
  · rw [batchStore_eq]
  · rw [batchStore_eq]

/-- What a purge leaves is part of what was there. -/
structure Substore (hs hs' : HeaderStore) : Prop where
  tips : ∀ tip ∈ hs'.tips, tip ∈ hs.tips
  params_eq : hs'.params = hs.params
  stored : ∀ k s, hs'.get k = some s → hs.get k = some s

theorem keptByPurge_within (hs : HeaderStore) : KeptByPurge hs.tips (Substore hs) where
  subset _ h := h.tips
  drop _ _ h := ⟨fun t ht => h.tips t (mem_removeTip.mp ht).1, h.params_eq, h.stored⟩
  branch _ _ fuel _ h := by
    refine removeBranch_keeps (I := Substore hs) (J := fun _ _ => True) ?_ fuel h trivial
    intro hs₁ current s h _ _ _
    refine ⟨⟨h.tips, h.params_eq, fun k s' hk => h.stored k s' ?_⟩, fun _ => trivial⟩
    by_cases heq : k = current
    · rw [HeaderStore.get, heq, Finmap.lookup_erase] at hk
      cases hk
    · rwa [HeaderStore.get, Finmap.lookup_erase_ne heq] at hk

theorem within_purgeStaleForks (hs : HeaderStore) (ord : IterOrder) (activeTipHeight : ℕ) :
    (hs.purgeStaleForks ord activeTipHeight).params = hs.params ∧
      ∀ k s, (hs.purgeStaleForks ord activeTipHeight).get k = some s → hs.get k = some s := by
  obtain ⟨hs₁, h, heq⟩ := (keptByPurge_within hs).purgeStaleForks ⟨fun _ ht => ht, rfl, fun _ _ hk => hk⟩
    ord activeTipHeight
  rw [heq]
  exact ⟨h.params_eq, h.stored⟩

theorem apply_params (P : Primitives) (htree : Tree P genesis hs) (op : HeaderOp) :
    (op.apply P hs).params = hs.params := by
  have houtcome := outcome_apply P hs op
  generalize op.apply P hs = hs' at houtcome ⊢
  cases houtcome with
  | unchanged => rfl
  | added hok =>
    obtain ⟨_, _, _, rfl⟩ := BatchInsert.addHeader_eq_ok.mp hok
    rfl
  | batchAdded hok =>
    rw [commitAll_params, persistBatch_eq]
  | committed hok => exact commitAll_params _ _
  | accepted hok =>
    obtain ⟨_, rfl, _⟩ | ⟨_, _, _, _, _, _, rfl⟩ := acceptHeader_eq_ok hok <;> rfl
  | marked ord hash => rfl
  | switched hok =>
    obtain ⟨_, _, _, _, _, _, _, rfl⟩ := switchActiveChain_eq_ok htree hok
    rfl
  | purged ord height => exact (within_purgeStaleForks hs ord height).1

variable {op : HeaderOp}

theorem AllSound.apply (h : AllSound P genesis hs) (htree : Tree P genesis hs)
    (hinj : HashInjOn P {b | b ∈ op.headers}) (hop : Regular P hs op) :
    AllSound P genesis (op.apply P hs) := by
  have houtcome := outcome_apply P hs op
  generalize op.apply P hs = hs' at houtcome ⊢
  cases houtcome with
  | unchanged => exact h
  | added hok => exact h.addHeader htree hok
  | batchAdded hok =>
    refine (h.validateBatch htree hinj hok).congr ?_ ?_
    all_goals rw [persistBatch_eq, commitAll_backend]
  | committed hok => exact h.validateBatch htree hinj hok
  | accepted hok => exact h.acceptHeader htree hop hok
  | marked ord hash => exact h.congr rfl rfl
  | switched hok =>
    obtain ⟨_, _, _, _, _, _, _, rfl⟩ := switchActiveChain_eq_ok htree hok
    exact h.congr rfl rfl
  | purged ord height =>
    obtain ⟨hparams, hsub⟩ := within_purgeStaleForks hs ord height
    exact fun branch hbranch => hparams ▸ h branch (hbranch.mono hsub)

/-- The store of a node after the listed calls. -/
def reached (P : Primitives) (params : ConsensusParams) (genesis : BlockHeader)
    (ops : List HeaderOp) : HeaderStore :=
  run (HeaderOp.apply P) (HeaderStore.makeFresh P genesis params none) ops

theorem leafPurge_of_regular (h : Regular P hs op) : LeafPurge hs op := by
  cases op <;> trivial

theorem allSound_fresh (P : Primitives) (params : ConsensusParams) (genesis : BlockHeader) :
    AllSound P genesis (HeaderStore.makeFresh P genesis params none) := by
  intro branch hbranch
  cases branch with
  | nil => trivial
  | cons header below =>
    have hget := hbranch.2.1
    simp only [HeaderStore.get, HeaderStore.makeFresh, lookup_insert_eq] at hget
    split_ifs at hget <;> simp at hget

structure Kept (P : Primitives) (params : ConsensusParams) (genesis : BlockHeader)
    (hs : HeaderStore) : Prop where
  tree : Tree P genesis hs
  params_eq : hs.params = params
  sound : AllSound P genesis hs

theorem kept_makeFresh (P : Primitives) (params : ConsensusParams) (genesis : BlockHeader) :
    Kept P params genesis (HeaderStore.makeFresh P genesis params none) :=
  ⟨tree_makeFresh P genesis params none, rfl, allSound_fresh P params genesis⟩

theorem Kept.apply (h : Kept P params genesis hs)
    (hinj : HashInjOn P {b | b ∈ op.headers}) (hop : Regular P hs op) :
    Kept P params genesis (op.apply P hs) :=
  ⟨tree_apply h.tree hinj (leafPurge_of_regular hop), (apply_params P h.tree op).trans h.params_eq,
    h.sound.apply h.tree hinj hop⟩

theorem regular_of_leafPurge (hnone : hs.params.checkpoints = []) (h : LeafPurge hs op) :
    Regular P hs op := by
  cases op with
  | acceptHeader header =>
    intro p _ c hc
    simp [ConsensusParams.checkpointHashAt, hnone] at hc
  | _ => exact h

theorem kept_reached_of_leafPurge {ops : List HeaderOp} (hnone : params.checkpoints = [])
    (hhash : HeaderHashSound P ops)
    (hops : Along (HeaderOp.apply P) LeafPurge (HeaderStore.makeFresh P genesis params none) ops) :
    Kept P params genesis (reached P params genesis ops) :=
  run_invariant (Kept P params genesis)
    (fun _ _ h hop => h.apply hop.2 (regular_of_leafPurge (h.params_eq ▸ hnone) hop.1))
    (kept_makeFresh P params genesis) (hops.and fun _ hop => hhash.injOn hop)

end Ironcat.HeaderSoundness
