import Mathlib.Data.Finmap
import Mathlib.Tactic

/-!
# Bulk updates of finite maps

Inserting a list of bindings and erasing a list of keys, and when one undoes
the other.
-/

namespace Ironcat.Lib.FiniteMap

abbrev Map (α β : Type) := Finmap (fun _ : α => β)

variable {α β : Type} [DecidableEq α]

def insertAll (m : Map α β) (l : List (α × β)) : Map α β :=
  l.foldl (fun m e => m.insert e.1 e.2) m

def eraseAll (m : Map α β) (ks : List α) : Map α β := ks.foldl (fun m k => m.erase k) m

@[simp] theorem insertAll_nil (m : Map α β) : insertAll m [] = m := rfl

@[simp] theorem insertAll_cons (m : Map α β) (e : α × β) (l : List (α × β)) :
    insertAll m (e :: l) = insertAll (m.insert e.1 e.2) l := rfl

@[simp] theorem eraseAll_nil (m : Map α β) : eraseAll m [] = m := rfl

@[simp] theorem eraseAll_cons (m : Map α β) (k : α) (ks : List α) :
    eraseAll m (k :: ks) = eraseAll (m.erase k) ks := rfl

omit [DecidableEq α] in
def hasValue (m : Map α β) (p : β → Bool) : Bool := 0 < m.entries.countP fun e => p e.2

variable {m : Map α β}

theorem hasValue_iff {p : β → Bool} : hasValue m p ↔ ∃ k v, m.lookup k = some v ∧ p v := by
  simp only [hasValue, decide_eq_true_eq, Multiset.countP_pos]
  constructor
  · rintro ⟨⟨k, v⟩, hmem, hp⟩
    exact ⟨k, v, Finmap.mem_lookup_iff.mpr hmem, hp⟩
  · rintro ⟨k, v, hlook, hp⟩
    exact ⟨⟨k, v⟩, Finmap.mem_lookup_iff.mp hlook, hp⟩

section

variable (m : Map α β) (p : β → Bool)

def filterValues : Map α β where
  entries := m.entries.filter fun e => p e.2
  nodupKeys := by
    obtain ⟨⟨l⟩, hl⟩ := m
    exact List.NodupKeys.sublist List.filter_sublist hl

theorem lookup_filterValues (x : α) : (filterValues m p).lookup x = (m.lookup x).filter p := by
  refine Option.ext fun v => ?_
  rw [Finmap.lookup_eq_some_iff, filterValues, Multiset.mem_filter,
    ← Finmap.lookup_eq_some_iff, Option.filter_eq_some_iff]

def retain (p : α → β → Bool) : Map α β where
  entries := m.entries.filter fun e => p e.1 e.2
  nodupKeys := by
    obtain ⟨⟨l⟩, hl⟩ := m
    exact List.NodupKeys.sublist List.filter_sublist hl

theorem lookup_retain (p : α → β → Bool) (x : α) :
    (retain m p).lookup x = (m.lookup x).filter (p x) := by
  refine Option.ext fun v => ?_
  rw [Finmap.lookup_eq_some_iff, retain, Multiset.mem_filter,
    ← Finmap.lookup_eq_some_iff, Option.filter_eq_some_iff]

theorem lookup_erase_eq (k x : α) : (m.erase k).lookup x = if x = k then none else m.lookup x := by
  split_ifs with h
  · rw [h, Finmap.lookup_erase]
  · exact Finmap.lookup_erase_ne h

theorem lookup_insert_eq (k x : α) (v : β) :
    (m.insert k v).lookup x = if x = k then some v else m.lookup x := by
  split_ifs with h
  · rw [h, Finmap.lookup_insert]
  · exact Finmap.lookup_insert_of_ne m h

end

variable {x : α} {v : β}

theorem lookup_insert_cases {k : α} {w : β} (h : (m.insert k v).lookup x = some w) :
    (x = k ∧ w = v) ∨ m.lookup x = some w := by
  rw [lookup_insert_eq] at h
  split_ifs at h with heq
  · exact .inl ⟨heq, (Option.some.inj h).symm⟩
  · exact .inr h

section

variable (m : Map α β) (k : α) (f : β → β)

def modify : Map α β :=
  match m.lookup k with
  | some v => m.insert k (f v)
  | none => m

theorem lookup_modify (k x : α) (f : β → β) :
    (modify m k f).lookup x = if x = k then (m.lookup x).map f else m.lookup x := by
  unfold modify
  cases hk : m.lookup k with
  | none =>
    split_ifs with hx
    · rw [hx, hk]
      rfl
    · rfl
  | some v =>
    rw [lookup_insert_eq]
    split_ifs with hx
    · rw [hx, hk]
      rfl
    · rfl

theorem keys_modify : (modify m k f).keys = m.keys := by
  ext x
  rw [Finmap.mem_keys, Finmap.mem_keys, ← Finmap.lookup_isSome, ← Finmap.lookup_isSome,
    lookup_modify]
  split_ifs
  · rw [Option.isSome_map]
  · rfl

theorem keys_insert (v : β) : (m.insert k v).keys = insert k m.keys := by
  ext x
  rw [Finmap.mem_keys, Finmap.mem_insert, Finset.mem_insert, Finmap.mem_keys]

theorem card_keys_insert_le (v : β) : (m.insert k v).keys.card ≤ m.keys.card + 1 := by
  rw [keys_insert]
  exact Finset.card_insert_le k m.keys

end

theorem card_keys_erase {k : α} (h : m.lookup k = some v) :
    (m.erase k).keys.card + 1 = m.keys.card := by
  rw [Finmap.keys_erase]
  exact Finset.card_erase_add_one (Finmap.mem_keys.mpr (Finmap.mem_of_lookup_eq_some h))

theorem insert_erase {k : α} (h : m.lookup k = some v) : (m.erase k).insert k v = m := by
  refine Finmap.ext_lookup fun x => ?_
  rw [lookup_insert_eq, lookup_erase_eq]
  split_ifs with hx
  · rw [hx, h]
  · rfl

theorem map_induction {C : Map α β → Prop} (hempty : C ∅)
    (hinsert : ∀ m k v, k ∉ m → C m → C (m.insert k v)) (m : Map α β) : C m := by
  refine Finmap.induction_on m fun l => ?_
  induction l using AList.insertRec with
  | H0 => exact hempty
  | IH k v l hk ih =>
    rw [← Finmap.insert_toFinmap]
    exact hinsert _ k v hk ih

theorem lookup_eraseAll (m : Map α β) (ks : List α) (x : α) :
    (eraseAll m ks).lookup x = if x ∈ ks then none else m.lookup x := by
  induction ks generalizing m with
  | nil => simp
  | cons k ks ih =>
    rw [eraseAll_cons, ih, lookup_erase_eq]
    by_cases hks : x ∈ ks <;> by_cases hk : x = k <;> simp [hks, hk]

variable {l : List (α × β)}

theorem lookup_insertAll_of_notMem (m : Map α β) (h : x ∉ l.map Prod.fst) :
    (insertAll m l).lookup x = m.lookup x := by
  induction l generalizing m with
  | nil => rfl
  | cons e l ih =>
    rw [List.map_cons, List.mem_cons, not_or] at h
    rw [insertAll_cons, ih _ h.2, lookup_insert_eq, if_neg h.1]

theorem lookup_insertAll_of_mem (m : Map α β) (h : x ∈ l.map Prod.fst) :
    ∃ v, (x, v) ∈ l ∧ (insertAll m l).lookup x = some v := by
  induction l generalizing m with
  | nil => cases h
  | cons e l ih =>
    by_cases hl : x ∈ l.map Prod.fst
    · obtain ⟨v, hv, hlook⟩ := ih (m.insert e.1 e.2) hl
      exact ⟨v, List.mem_cons_of_mem e hv, hlook⟩
    · obtain rfl : x = e.1 := (List.mem_cons.mp h).resolve_right hl
      refine ⟨e.2, List.mem_cons_self, ?_⟩
      rw [insertAll_cons, lookup_insertAll_of_notMem _ hl, lookup_insert_eq, if_pos rfl]

theorem lookup_insertAll_cases (h : (insertAll m l).lookup x = some v) :
    (x, v) ∈ l ∨ x ∉ l.map Prod.fst ∧ m.lookup x = some v := by
  by_cases hx : x ∈ l.map Prod.fst
  · obtain ⟨w, hw, hlook⟩ := lookup_insertAll_of_mem m hx
    rw [hlook] at h
    exact Or.inl (Option.some.inj h ▸ hw)
  · exact Or.inr ⟨hx, by rwa [lookup_insertAll_of_notMem m hx] at h⟩

theorem mem_insertAll : x ∈ insertAll m l ↔ x ∈ l.map Prod.fst ∨ x ∈ m := by
  rw [← Finmap.lookup_isSome, ← Finmap.lookup_isSome]
  by_cases hx : x ∈ l.map Prod.fst
  · obtain ⟨v, -, hlook⟩ := lookup_insertAll_of_mem m hx
    simp only [hlook, hx, Option.isSome_some, true_or]
  · simp only [lookup_insertAll_of_notMem m hx, hx, false_or]

theorem mem_eraseAll {ks : List α} : x ∈ eraseAll m ks ↔ x ∉ ks ∧ x ∈ m := by
  rw [← Finmap.lookup_isSome, ← Finmap.lookup_isSome, lookup_eraseAll]
  by_cases hx : x ∈ ks <;> simp [hx]

theorem eraseAll_insertAll (hnew : ∀ k ∈ l.map Prod.fst, k ∉ m) :
    eraseAll (insertAll m l) (l.map Prod.fst) = m := by
  refine Finmap.ext_lookup fun x => ?_
  rw [lookup_eraseAll]
  split_ifs with hx
  · exact (Finmap.lookup_eq_none.mpr (hnew x hx)).symm
  · exact lookup_insertAll_of_notMem m hx

theorem insertAll_eraseAll (hold : ∀ e ∈ l, m.lookup e.1 = some e.2) :
    insertAll (eraseAll m (l.map Prod.fst)) l = m := by
  refine Finmap.ext_lookup fun x => ?_
  by_cases hx : x ∈ l.map Prod.fst
  · obtain ⟨v, hv, hlook⟩ := lookup_insertAll_of_mem (eraseAll m (l.map Prod.fst)) hx
    rw [hlook, hold (x, v) hv]
  · rw [lookup_insertAll_of_notMem _ hx, lookup_eraseAll, if_neg hx]

end Ironcat.Lib.FiniteMap
