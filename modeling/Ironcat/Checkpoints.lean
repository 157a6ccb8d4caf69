import Ironcat.BatchInsert

/-!
# Checkpoints

`add_header` and the batch loop compare a header at a checkpoint height with the
checkpoint, `accept_header` does not.
-/

namespace Ironcat.Checkpoints

open Lib.FiniteMap Lib.Runs Types Difficulty Headers HeaderTree HeaderRuns BatchInsert

variable {P : Primitives} {hs hs' : HeaderStore} {params : ConsensusParams}
variable {hash : Hash256} {s : StoredHeader} {es : List (Hash256 × StoredHeader)}

/-- A header at a checkpoint height is the checkpoint. -/
def Pinned (params : ConsensusParams) (hash : Hash256) (height : ℕ) : Prop :=
  ∀ c, params.checkpointHashAt height = some c → hash = c

instance (params : ConsensusParams) (hash : Hash256) (height : ℕ) :
    Decidable (Pinned params hash height) :=
  match h : params.checkpointHashAt height with
  | none => isTrue fun c hc => by rw [h] at hc; cases hc
  | some c => decidable_of_iff (hash = c) (by simp [Pinned, h])

theorem checkCheckpoint_eq_ok {height : ℕ} :
    hs.checkCheckpoint hash height = .ok () ↔ Pinned hs.params hash height := by
  unfold HeaderStore.checkCheckpoint Pinned
  cases hs.params.checkpointHashAt height with
  | none => simp [pure, Except.pure]
  | some c => simp

structure AllPinned (params : ConsensusParams) (hs : HeaderStore) : Prop where
  params_eq : hs.params = params
  pinned : AllStored (fun hash s => Pinned params hash s.height) hs

theorem validateBatch_pinned {headers : List BlockHeader}
    (h : hs.validateBatch P headers = .ok es) : ∀ e ∈ es, Pinned hs.params e.1 e.2.height :=
  @validateBatch_forall P hs es (fun hash s => Pinned hs.params hash s.height) headers
    (fun _ _ _ hvalid => checkCheckpoint_eq_ok.mp hvalid.checkpoint) h

/-- The calls that insert headers. An `accept_header` that extends a stored
header to a checkpoint height is given the checkpoint. -/
def CheckpointsGiven (P : Primitives) (hs : HeaderStore) : HeaderOp → Prop
  | .addHeader _ | .addHeaders _ | .validateAndCommit _ => True
  | .acceptHeader header =>
    ∀ p, hs.get header.prevHash = some p → Pinned hs.params (header.blockHash P) (p.height + 1)
  | _ => False

theorem AllPinned.apply (h : AllPinned params hs) {op : HeaderOp}
    (hop : CheckpointsGiven P hs op) : AllPinned params (op.apply P hs) := by
  obtain ⟨rfl, hpinned⟩ := h
  have houtcome := outcome_apply P hs op
  generalize op.apply P hs = hs' at houtcome
  cases houtcome with
  | unchanged op => exact ⟨rfl, hpinned⟩
  | added hok =>
    obtain ⟨_, hvalid, _, rfl⟩ := addHeader_eq_ok.mp hok
    exact ⟨rfl, hpinned.insert (checkCheckpoint_eq_ok.mp hvalid.checkpoint) rfl⟩
  | batchAdded hbatch =>
    rw [persistBatch_eq]
    exact ⟨commitAll_params _ _, AllStored.commitAll hpinned (validateBatch_pinned hbatch)⟩
  | committed hbatch =>
    exact ⟨commitAll_params _ _, hpinned.commitAll (validateBatch_pinned hbatch)⟩
  | accepted hok =>
    obtain ⟨_, rfl, _⟩ | ⟨_, p, extend, hp, _, _, rfl⟩ := acceptHeader_eq_ok hok
    · exact ⟨rfl, hpinned⟩
    · exact ⟨rfl, hpinned.insert (hop p hp) rfl⟩
  | marked ord hash => exact hop.elim
  | switched hok => exact hop.elim
  | purged ord activeTipHeight => exact hop.elim

/-- From a fresh store whose genesis meets the checkpoints, every run of
insertions in which `accept_header` is not given another header for a checkpoint
height stores only the checkpoints at their heights. -/
theorem checkpoints_bind_of_given (P : Primitives) (genesis : BlockHeader) (params : ConsensusParams)
    (backend : Option Backend) (ops : List HeaderOp)
    (hgenesis : Pinned params (genesis.blockHash P) 0)
    (hops : Along (HeaderOp.apply P) (CheckpointsGiven P)
      (HeaderStore.makeFresh P genesis params backend) ops)
    {h : ℕ} {c : Hash256} (hcheckpoint : params.checkpointHashAt h = some c)
    {hash : Hash256} {s : StoredHeader}
    (hstored : (run (HeaderOp.apply P) (HeaderStore.makeFresh P genesis params backend) ops).get hash
      = some s) (hheight : s.height = h) : hash = c := by
  have hfresh : AllPinned params (HeaderStore.makeFresh P genesis params backend) := by
    refine ⟨rfl, fun k v hk => ?_⟩
    simp only [HeaderStore.get, HeaderStore.makeFresh, lookup_insert_eq] at hk
    split_ifs at hk with heq
    · obtain rfl := Option.some.inj hk
      exact heq ▸ hgenesis
    · simp at hk
  have hend := run_invariant (AllPinned params) (fun _ _ h hop => h.apply hop) hfresh hops
  exact hend.pinned hash s hstored c (hheight ▸ hcheckpoint)

def pinnedParams : ConsensusParams :=
  { ConsensusParams.mainnet with checkpoints := [(1, headerA1.blockHash poly)] }

def pinnedStore : HeaderStore :=
  HeaderStore.makeFresh poly easyGenesis pinnedParams none

/-- `accept_header` is given the checkpoint, and `add_header` a header above it. -/
theorem checkpoint_binds_after_acceptHeader :
    CheckpointsGiven poly pinnedStore (.acceptHeader headerA1) ∧
    ∃ c, pinnedParams.checkpointHashAt 1 = some c ∧ headerA1.blockHash poly = c := by
  have hgiven : CheckpointsGiven poly pinnedStore (.acceptHeader headerA1) := by
    intro p hp
    have hgenesis : pinnedStore.get headerA1.prevHash =
        some ⟨easyGenesis, 0, workFromBits 0x1e0ffff0⟩ := by decide +kernel
    obtain rfl := Option.mem_unique hp hgenesis
    decide +kernel
  have hstored : (run (HeaderOp.apply poly) pinnedStore
      [.acceptHeader headerA1, .addHeader headerA2]).get (headerA1.blockHash poly) =
        some ⟨headerA1, 1, workFromBits 0x1e0ffff0 + workFromBits 0x1e0ffff0⟩ := by decide +kernel
  have hcheckpoint : pinnedParams.checkpointHashAt 1 = some (headerA1.blockHash poly) := by
    decide +kernel
  exact ⟨hgiven, _, hcheckpoint, checkpoints_bind_of_given poly easyGenesis pinnedParams none
    [.acceptHeader headerA1, .addHeader headerA2] (by decide +kernel) ⟨hgiven, trivial, trivial⟩
    hcheckpoint hstored rfl⟩

/-- `accept_header` stores `B1` at the height of the checkpoint `A1`. -/
theorem fork_header_passes_checkpoint :
    (run (HeaderOp.apply poly) pinnedStore [.acceptHeader headerB1]).get (headerB1.blockHash poly) =
        some ⟨headerB1, 1, workFromBits 0x1e0ffff0 + workFromBits 0x1e0ffff0⟩ ∧
    pinnedParams.checkpointHashAt 1 = some (headerA1.blockHash poly) ∧
    headerB1.blockHash poly ≠ headerA1.blockHash poly := by
  decide +kernel

end Ironcat.Checkpoints
