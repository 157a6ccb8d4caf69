import Mathlib.Order.Bounds.Basic
import Mathlib.Data.Set.Insert

/-!
# Saturation

Items are added to a set one at a time, each when it is accepted next to those
already there. Acceptance that is never lost by adding other items makes the
set at which nothing more is accepted the least closed one, so it does not
depend on the order of the attempts.
-/

namespace Ironcat.Lib.Saturation

variable {α : Type*} {accepts : Set α → α → Prop} {items S T : Set α} {a : α}

def Persistent (accepts : Set α → α → Prop) (items : Set α) : Prop :=
  ∀ ⦃S T : Set α⦄ ⦃a : α⦄, S ⊆ T → T ⊆ items → a ∈ items → a ∉ T → accepts S a → accepts T a

/-- Every item that is accepted next to the set is in the set. -/
structure Closed (accepts : Set α → α → Prop) (items S : Set α) : Prop where
  subset : S ⊆ items
  mem : ∀ a ∈ items, accepts S a → a ∈ S

inductive Built (accepts : Set α → α → Prop) (items : Set α) : Set α → Prop
  | empty : Built accepts items ∅
  | insert {S : Set α} {a : α} (built : Built accepts items S) (mem : a ∈ items)
      (accepted : accepts S a) : Built accepts items (insert a S)

theorem Built.subset (h : Built accepts items S) : S ⊆ items := by
  induction h with
  | empty => exact Set.empty_subset items
  | insert _ hmem _ ih => exact Set.insert_subset hmem ih

theorem Built.subset_of_closed (hpersistent : Persistent accepts items)
    (h : Built accepts items S) (hclosed : Closed accepts items T) : S ⊆ T := by
  induction h with
  | empty => exact Set.empty_subset T
  | insert _ hmem haccepted ih =>
    refine Set.insert_subset ?_ ih
    by_contra hnot
    exact hnot (hclosed.mem _ hmem (hpersistent ih hclosed.subset hmem hnot haccepted))

theorem Built.isLeast (hpersistent : Persistent accepts items) (h : Built accepts items S)
    (hdone : ∀ a ∈ items, a ∉ S → ¬ accepts S a) : IsLeast {T | Closed accepts items T} S := by
  constructor
  · refine ⟨h.subset, fun a ha haccepted => ?_⟩
    by_contra hnot
    exact hdone a ha hnot haccepted
  · intro T hclosed
    exact h.subset_of_closed hpersistent hclosed

end Ironcat.Lib.Saturation
