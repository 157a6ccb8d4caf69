import Ironcat.Lib.UndoLog

/-!
# Totals over finite maps

The sum of a non-negative quantity over the values of a finite map: what an
update can add to it, and that a smaller map has a smaller total. Reverting a
recorded run on a map that has lost bindings yields a map that has lost
bindings, which is what is left of undoing when updates may overwrite. The
number of values that satisfy a predicate is a total of zeros and ones.
-/

namespace Ironcat.Lib.MapTotal

open Lib.FiniteMap Lib.UndoLog

variable {α β : Type} [DecidableEq α]

def Submap (m m' : Map α β) : Prop := ∀ k v, m.lookup k = some v → m'.lookup k = some v

theorem Submap.refl (m : Map α β) : Submap m m := fun _ _ h => h

theorem Submap.trans {m₁ m₂ m₃ : Map α β} (h₁ : Submap m₁ m₂) (h₂ : Submap m₂ m₃) :
    Submap m₁ m₃ :=
  fun k v h => h₂ k v (h₁ k v h)

theorem Submap.eraseAll {m m' : Map α β} (h : Submap m m') (ks : List α) :
    Submap (eraseAll m ks) (eraseAll m' ks) := by
  intro k v hk
  rw [lookup_eraseAll] at hk ⊢
  split_ifs at hk ⊢
  exact h k v hk

theorem eraseAll_submap (m : Map α β) (ks : List α) : Submap (eraseAll m ks) m := by
  intro k v hk
  rw [lookup_eraseAll] at hk
  split_ifs at hk
  exact hk

variable {m m' : Map α β}

theorem insertAll_submap {l : List (α × β)} (h : Submap m m')
    (hl : ∀ e ∈ l, m'.lookup e.1 = some e.2) : Submap (insertAll m l) m' := by
  intro k v hk
  rcases lookup_insertAll_cases hk with hmem | ⟨-, hold⟩
  · exact hl (k, v) hmem
  · exact h k v hold

theorem eraseAll_insertAll_submap (m : Map α β) (l : List (α × β)) :
    Submap (eraseAll (insertAll m l) (l.map Prod.fst)) m := by
  intro k v hk
  rw [lookup_eraseAll] at hk
  split_ifs at hk with hkeys
  rwa [lookup_insertAll_of_notMem m hkeys] at hk

theorem revert_submap {u : Update α β} {vs : List β} (hspent : Spends m u.spent vs)
    (hsub : Submap m' (u.apply m)) : Submap (u.revert m' vs) m := by
  have herase := (hsub.eraseAll (u.created.map Prod.fst)).trans (eraseAll_insertAll_submap _ _)
  exact insertAll_submap (herase.trans (eraseAll_submap m u.spent)) hspent.lookup_zip

theorem revertAll_submap {us : List (Update α β)} {log : List (List β)} (h : Records m us log)
    (hsub : Submap m' (applyAll m us)) : Submap (revertAll m' us log) m := by
  induction h with
  | nil => exact hsub
  | cons hspent _ ih => exact revert_submap hspent (ih hsub)

variable (f : β → ℤ)

def total (m : Map α β) : ℤ := (m.entries.map fun e => f e.2).sum

variable {f}

omit [DecidableEq α] in
@[simp] theorem total_empty : total f (∅ : Map α β) = 0 := rfl

theorem total_insert_of_notMem {k : α} {v : β} (h : k ∉ m) :
    total f (m.insert k v) = f v + total f m := by
  rw [total, total, Finmap.entries_insert_of_notMem h, Multiset.map_cons, Multiset.sum_cons]

theorem total_erase {k : α} {v : β} (h : m.lookup k = some v) :
    f v + total f (m.erase k) = total f m := by
  rw [← total_insert_of_notMem Finmap.notMem_erase_self, insert_erase h]

theorem total_le_of_submap (hpos : ∀ k v, m'.lookup k = some v → 0 ≤ f v) (h : Submap m m') :
    total f m ≤ total f m' := by
  induction m using map_induction generalizing m' with
  | hempty =>
    exact Multiset.sum_nonneg fun x hx => by
      obtain ⟨e, he, rfl⟩ := Multiset.mem_map.mp hx
      exact hpos e.1 e.2 (Finmap.mem_lookup_iff.mpr he)
  | hinsert m k v hk ih =>
    have hlook : m'.lookup k = some v := h k v (by rw [Finmap.lookup_insert])
    have hrest : Submap m (m'.erase k) := by
      intro x w hx
      have hne : x ≠ k := by
        rintro rfl
        exact hk (Finmap.mem_iff.mpr ⟨w, hx⟩)
      rw [lookup_erase_eq, if_neg hne]
      exact h x w (by rw [lookup_insert_eq, if_neg hne]; exact hx)
    have hpos' : ∀ x w, (m'.erase k).lookup x = some w → 0 ≤ f w := by
      intro x w hx
      rw [lookup_erase_eq] at hx
      split_ifs at hx
      exact hpos x w hx
    rw [total_insert_of_notMem hk, ← total_erase hlook]
    exact add_le_add_right (ih hpos' hrest) (f v)

theorem erase_submap (m : Map α β) (k : α) : Submap (m.erase k) m := eraseAll_submap m [k]

theorem total_insert_le {k : α} {v : β} (hpos : ∀ x w, m.lookup x = some w → 0 ≤ f w) :
    total f (m.insert k v) ≤ f v + total f m := by
  have hsame : m.insert k v = (m.erase k).insert k v := by
    refine Finmap.ext_lookup fun x => ?_
    rw [lookup_insert_eq, lookup_insert_eq, lookup_erase_eq]
    split_ifs <;> rfl
  rw [hsame, total_insert_of_notMem Finmap.notMem_erase_self]
  exact add_le_add_right (total_le_of_submap hpos (erase_submap m k)) (f v)

theorem total_insertAll_le {l : List (α × β)} (hpos : ∀ x w, m.lookup x = some w → 0 ≤ f w)
    (hl : ∀ e ∈ l, 0 ≤ f e.2) :
    total f (insertAll m l) ≤ total f m + (l.map fun e => f e.2).sum := by
  induction l generalizing m with
  | nil => simp
  | cons e l ih =>
    rw [List.forall_mem_cons] at hl
    have hpos' : ∀ x w, (m.insert e.1 e.2).lookup x = some w → 0 ≤ f w := by
      intro x w hx
      rw [lookup_insert_eq] at hx
      split_ifs at hx
      · exact Option.some.inj hx ▸ hl.1
      · exact hpos x w hx
    have hstep := total_insert_le (k := e.1) (v := e.2) hpos
    have hrest := ih hpos' hl.2
    rw [insertAll_cons, List.map_cons, List.sum_cons]
    omega

theorem total_eraseAll {ks : List α} {vs : List β} (h : Spends m ks vs) (hnodup : ks.Nodup) :
    total f (eraseAll m ks) + (vs.map f).sum = total f m := by
  induction ks generalizing m vs with
  | nil =>
    have hvs : vs = [] := List.length_eq_zero_iff.mp h.length_eq.symm
    simp [hvs]
  | cons k ks ih =>
    cases vs with
    | nil => cases h.length_eq
    | cons v vs =>
      obtain ⟨hk, hrest⟩ := spends_cons.mp h
      obtain ⟨hnotMem, hnodup⟩ := List.nodup_cons.mp hnodup
      have hih := ih (spends_erase.mpr ⟨hrest, hnotMem⟩) hnodup
      have herase := total_erase (f := f) hk
      rw [eraseAll_cons, List.map_cons, List.sum_cons]
      omega

section Count

variable (q : β → Prop) [DecidablePred q]

def count (m : Map α β) : ℕ := m.entries.countP fun e => q e.2

omit [DecidableEq α] in
theorem cast_count (m : Map α β) : (count q m : ℤ) = total (fun v => if q v then 1 else 0) m := by
  rw [count, total, Multiset.countP_eq_card_filter]
  induction m.entries using Multiset.induction_on with
  | empty => rfl
  | cons e entries ih =>
    rw [Multiset.map_cons, Multiset.sum_cons, ← ih]
    by_cases h : q e.2
    · rw [Multiset.filter_cons_of_pos (p := fun e : (_ : α) × β => q e.2) _ h, if_pos h,
        Multiset.card_cons, Nat.cast_succ, add_comm]
    · rw [Multiset.filter_cons_of_neg (p := fun e : (_ : α) × β => q e.2) _ h, if_neg h, zero_add]

omit [DecidableEq α] in
theorem card_keys (m : Map α β) : m.keys.card = count (fun _ => True) m := by
  rw [count, Multiset.countP_True]
  exact Multiset.card_map _ _

variable {q}

theorem indicator_nonneg (v : β) : (0 : ℤ) ≤ if q v then 1 else 0 := by
  split_ifs <;> decide

theorem count_le_of_submap (h : Submap m m') : count q m ≤ count q m' := by
  have hle := total_le_of_submap (f := fun v => if q v then 1 else 0)
    (fun _ v _ => indicator_nonneg v) h
  rw [← cast_count, ← cast_count] at hle
  exact Int.ofNat_le.mp hle

theorem card_keys_le_of_submap (h : Submap m m') : m.keys.card ≤ m'.keys.card := by
  rw [card_keys, card_keys]
  exact count_le_of_submap h

theorem sum_values (m : Map α ℕ) :
    (m.entries.map fun e => e.2).sum = ∑ k ∈ m.keys, (m.lookup k).getD 0 := by
  have hvalue : ∀ e ∈ m.entries, e.2 = (m.lookup e.1).getD 0 := by
    intro e he
    rw [Finmap.lookup_eq_some_iff.mpr he, Option.getD_some]
  have hkeys : m.keys.val = m.entries.map Sigma.fst := rfl
  rw [Multiset.map_congr rfl hvalue, Finset.sum, hkeys, Multiset.map_map]
  rfl

theorem count_insertAll_le (m : Map α β) (l : List (α × β)) :
    count q (insertAll m l) ≤ count q m + l.countP fun e => q e.2 := by
  have hsum : (l.map fun e => if q e.2 then (1 : ℤ) else 0).sum = l.countP fun e => q e.2 := by
    induction l with
    | nil => rfl
    | cons e l ih =>
      by_cases h : q e.2 <;> simp [h, ih, add_comm]
  have hle := total_insertAll_le (f := fun v => if q v then 1 else 0) (m := m) (l := l)
    (fun _ v _ => indicator_nonneg v) fun e _ => indicator_nonneg e.2
  rw [hsum, ← cast_count, ← cast_count] at hle
  exact_mod_cast hle

end Count

end Ironcat.Lib.MapTotal
