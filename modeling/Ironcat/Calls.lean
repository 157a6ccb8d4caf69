import Ironcat.History
import Ironcat.Lib.Runs

/-!
# Arbitrary calls on a chain state

Runs of `connect_block` and `disconnect_block` with arguments of the caller's
choice; a call that fails leaves the state as it was. A run is linked when
every block is passed with its own hash and every connected block names the
tip as its parent, which `connect_block` does not check. It is paired when a
block is passed to `disconnect_block` with the transactions that it was
connected with, which the hash of its header does not show.
-/

namespace Ironcat.Calls

open Lib.Runs Types Validation Chainstate History

inductive Call
  | connect (block : Block) (height : UInt32) (hash : Hash256)
  | disconnect (block : Block) (height : UInt32) (hash : Hash256)

section

variable (P : Primitives) (genesis : Hash256) (cs : ChainState)

def Call.apply : Call → ChainState
  | .connect block height hash =>
    match connectBlock P cs block height hash with
    | .ok cs' => cs'
    | .error _ => cs
  | .disconnect block height hash =>
    match disconnectBlock P cs block height hash with
    | .ok cs' => cs'
    | .error _ => cs

def runCalls (calls : List Call) : ChainState :=
  run (Call.apply P) cs calls

/-- A block that the run passes to `connect_block`. -/
def Connected (calls : List Call) (block : Block) : Prop :=
  ∃ height hash, .connect block height hash ∈ calls

def Call.SameBlock : Call → Call → Prop
  | .connect block _ hash, .disconnect block' _ hash' => hash = hash' → block = block'
  | _, _ => True

instance : DecidableRel Call.SameBlock := by
  intro call call'
  cases call <;> cases call' <;> unfold Call.SameBlock <;> infer_instance

/-- `disconnect_block` is given what `connect_block` was given under that hash. -/
def Paired (calls : List Call) : Prop := ∀ c ∈ calls, ∀ c' ∈ calls, c.SameBlock c'

instance (calls : List Call) : Decidable (Paired calls) :=
  inferInstanceAs (Decidable (∀ c ∈ calls, ∀ c' ∈ calls, c.SameBlock c'))

def Call.Checked : Call → Prop
  | .connect block _ _ => checkBlock block = .ok ()
  | .disconnect _ _ _ => True

def parentHash : Hash256 :=
  if cs.tip.2 = 0 then genesis else cs.tip.1

instance (call : Call) : Decidable call.Checked := by
  cases call <;> unfold Call.Checked <;> infer_instance

def Call.Linked : Call → Prop
  | .connect block _ hash =>
    hash = block.header.blockHash P ∧ block.header.prevHash = parentHash genesis cs ∧
      cs.tip.2 ≠ 0xFFFFFFFF
  | .disconnect block _ hash => hash = block.header.blockHash P

instance (P : Primitives) (genesis : Hash256) (cs : ChainState) (call : Call) :
    Decidable (call.Linked P genesis cs) := by
  cases call <;> unfold Call.Linked <;> infer_instance

abbrev LinkedRun (calls : List Call) : Prop :=
  Along (Call.apply P) (Call.Linked P genesis) cs calls

/-- What is asked of the block hash on the connected blocks: it tells their headers
apart, and none of them hashes to the genesis hash. -/
structure HeadersTold (P : Primitives) (genesis : Hash256) (blocks : Set Block) : Prop where
  inj : ∀ b ∈ blocks, ∀ b' ∈ blocks, b.header.blockHash P = b'.header.blockHash P →
    b.header = b'.header
  root : ∀ b ∈ blocks, b.header.blockHash P ≠ genesis

def topHash : List Block → Hash256
  | [] => genesis
  | b :: _ => b.header.blockHash P

end

inductive LinkedBranch (P : Primitives) (genesis : Hash256) : List Block → Prop
  | nil : LinkedBranch P genesis []
  | cons {b : Block} {branch : List Block} (hbelow : LinkedBranch P genesis branch)
      (hlink : b.header.prevHash = topHash P genesis branch)
      (hnew : b.header.blockHash P ∉ branchHashes P branch) : LinkedBranch P genesis (b :: branch)

section
variable {P : Primitives} {genesis : Hash256} {blocks : Set Block} {branch : List Block}

theorem LinkedBranch.parent_of_mem (h : LinkedBranch P genesis branch) {b : Block}
    (hb : b ∈ branch) :
    b.header.prevHash = genesis ∨ b.header.prevHash ∈ (branchHashes P branch).tail := by
  induction h with
  | nil => cases hb
  | @cons top branch hbelow hlink _ ih =>
    rcases List.mem_cons.mp hb with rfl | hb
    · cases branch with
      | nil => exact Or.inl hlink
      | cons next branch =>
        refine Or.inr ?_
        rw [hlink]
        exact List.mem_cons_self
    · exact (ih hb).imp_right fun htail => List.mem_of_mem_tail htail

theorem LinkedBranch.hash_notMem (h : LinkedBranch P genesis branch)
    (hhash : HeadersTold P genesis blocks) (hbranch : ∀ b ∈ branch, b ∈ blocks) {b : Block}
    (hb : b ∈ blocks) (hlink : b.header.prevHash = topHash P genesis branch) :
    b.header.blockHash P ∉ branchHashes P branch := by
  intro hmem
  obtain ⟨b', hb', heq⟩ := List.mem_map.mp hmem
  have hparent := h.parent_of_mem hb'
  rw [hhash.inj b' (hbranch b' hb') b hb heq] at hparent
  cases h with
  | nil => cases hb'
  | @cons top branch hbelow _ hnew =>
    rcases hparent with hroot | htail
    · exact hhash.root top (hbranch top List.mem_cons_self) (hlink.symm.trans hroot)
    · rw [hlink] at htail
      exact hnew htail

end

end Ironcat.Calls
