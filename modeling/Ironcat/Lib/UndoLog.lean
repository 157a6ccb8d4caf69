import Ironcat.Lib.FiniteMap

/-!
# Reversible updates of a finite map

An update removes some keys and then writes some bindings. A run of updates
keeps, for each of them, the values it removed; reverting the updates from the
last to the first with these values restores the map the run started from,
provided no update overwrites a binding.
-/

namespace Ironcat.Lib.UndoLog

open Lib.FiniteMap

structure Update (α β : Type) where
  spent : List α
  created : List (α × β)

variable {α β : Type} [DecidableEq α]

section

variable (m : Map α β) (u : Update α β)

def Update.apply : Map α β :=
  insertAll (eraseAll m u.spent) u.created

def Update.revert (vs : List β) : Map α β :=
  insertAll (eraseAll m (u.created.map Prod.fst)) (u.spent.zip vs)

def Spends (ks : List α) (vs : List β) : Prop := ks.map m.lookup = vs.map some

def Update.Fresh : Prop :=
  ∀ k ∈ u.created.map Prod.fst, k ∉ eraseAll m u.spent

theorem Spends.nil : Spends m [] [] := rfl

end

variable {m : Map α β} {ks : List α} {vs : List β}

theorem Spends.length_eq (h : Spends m ks vs) : ks.length = vs.length := by
  simpa using congrArg List.length h

theorem spends_cons {k : α} {v : β} :
    Spends m (k :: ks) (v :: vs) ↔ m.lookup k = some v ∧ Spends m ks vs := by
  simp [Spends]

theorem Spends.mem (h : Spends m ks vs) {k : α} (hk : k ∈ ks) : k ∈ m := by
  have hmem : m.lookup k ∈ vs.map some := h ▸ List.mem_map_of_mem hk
  obtain ⟨v, -, hv⟩ := List.mem_map.mp hmem
  exact Finmap.lookup_isSome.mp (by rw [← hv]; rfl)

theorem Spends.exists_lookup (h : Spends m ks vs) {v : β} (hv : v ∈ vs) :
    ∃ k ∈ ks, m.lookup k = some v := by
  have hmem : some v ∈ ks.map m.lookup := h ▸ List.mem_map_of_mem hv
  obtain ⟨k, hk, heq⟩ := List.mem_map.mp hmem
  exact ⟨k, hk, heq⟩

theorem spends_filterMap (h : ∀ k ∈ ks, k ∈ m) : Spends m ks (ks.filterMap m.lookup) := by
  induction ks with
  | nil => exact Spends.nil m
  | cons k ks ih =>
    rw [List.forall_mem_cons] at h
    obtain ⟨v, hv⟩ := Finmap.mem_iff.mp h.1
    rw [List.filterMap_cons_some (f := fun k => m.lookup k) hv]
    exact spends_cons.mpr ⟨hv, ih h.2⟩

theorem Spends.congr {m' : Map α β} (h : Spends m ks vs)
    (hlookup : ∀ k ∈ ks, m'.lookup k = m.lookup k) : Spends m' ks vs := by
  rw [Spends, ← h]
  exact List.map_congr_left hlookup

theorem Spends.unique {vs' : List β} (h : Spends m ks vs) (h' : Spends m ks vs') : vs' = vs :=
  List.map_injective_iff.mpr (Option.some_injective β) (h'.symm.trans h)

theorem spends_erase {k : α} : Spends (m.erase k) ks vs ↔ Spends m ks vs ∧ k ∉ ks := by
  constructor
  · intro h
    have hk : k ∉ ks := fun hmem => (Finmap.mem_erase.mp (h.mem hmem)).1 rfl
    refine ⟨?_, hk⟩
    rw [Spends, ← h]
    refine List.map_congr_left fun x hx => ?_
    have hne : x ≠ k := fun hxk => hk (hxk ▸ hx)
    rw [lookup_erase_eq, if_neg hne]
  · rintro ⟨h, hk⟩
    rw [Spends, ← h]
    refine List.map_congr_left fun x hx => ?_
    have hne : x ≠ k := fun hxk => hk (hxk ▸ hx)
    rw [lookup_erase_eq, if_neg hne]

theorem Spends.zip_keys (h : Spends m ks vs) : (ks.zip vs).map Prod.fst = ks :=
  List.map_fst_zip (le_of_eq h.length_eq)

theorem Spends.lookup_zip (h : Spends m ks vs) : ∀ e ∈ ks.zip vs, m.lookup e.1 = some e.2 := by
  induction ks generalizing vs with
  | nil => simp
  | cons k ks ih =>
    cases vs with
    | nil => simp
    | cons v vs =>
      obtain ⟨hk, hrest⟩ := spends_cons.mp h
      intro e he
      rcases List.mem_cons.mp he with rfl | he
      · exact hk
      · exact ih hrest e he

theorem Update.revert_apply {u : Update α β} (hspent : Spends m u.spent vs) (hfresh : u.Fresh m) :
    u.revert (u.apply m) vs = m := by
  rw [revert, apply, eraseAll_insertAll hfresh]
  have h := insertAll_eraseAll (l := u.spent.zip vs) hspent.lookup_zip
  rwa [hspent.zip_keys] at h

def applyAll (m : Map α β) (us : List (Update α β)) : Map α β :=
  us.foldl (fun m u => u.apply m) m

def revertAll (m : Map α β) (us : List (Update α β)) (log : List (List β)) : Map α β :=
  (us.zip log).foldr (fun e m => e.1.revert m e.2) m

inductive Records : Map α β → List (Update α β) → List (List β) → Prop
  | nil (m : Map α β) : Records m [] []
  | cons {m : Map α β} {u : Update α β} {us : List (Update α β)} {vs : List β}
      {log : List (List β)} (hspent : Spends m u.spent vs) (hrest : Records (u.apply m) us log) :
      Records m (u :: us) (vs :: log)

def FreshRun : Map α β → List (Update α β) → Prop
  | _, [] => True
  | m, u :: us => u.Fresh m ∧ FreshRun (u.apply m) us

variable {us : List (Update α β)}

theorem Records.lengths {log : List (List β)} (h : Records m us log) :
    List.Forall₂ (fun u vs => u.spent.length = vs.length) us log := by
  induction h with
  | nil => exact List.Forall₂.nil
  | cons hspent _ ih => exact List.Forall₂.cons hspent.length_eq ih

variable {Q : α → β → Prop}

theorem Update.apply_forall {u : Update α β} (hm : ∀ k v, m.lookup k = some v → Q k v)
    (hu : ∀ e ∈ u.created, Q e.1 e.2) : ∀ k v, (u.apply m).lookup k = some v → Q k v := by
  intro k v h
  rcases lookup_insertAll_cases h with hmem | ⟨-, hold⟩
  · exact hu (k, v) hmem
  · rw [lookup_eraseAll] at hold
    split_ifs at hold
    exact hm k v hold

theorem applyAll_forall (hm : ∀ k v, m.lookup k = some v → Q k v)
    (hus : ∀ u ∈ us, ∀ e ∈ u.created, Q e.1 e.2) :
    ∀ k v, (applyAll m us).lookup k = some v → Q k v := by
  induction us generalizing m with
  | nil => exact hm
  | cons u us ih =>
    rw [List.forall_mem_cons] at hus
    exact ih (u.apply_forall hm hus.1) hus.2

theorem Records.forall_log {log : List (List β)} (h : Records m us log)
    (hm : ∀ k v, m.lookup k = some v → Q k v) (hus : ∀ u ∈ us, ∀ e ∈ u.created, Q e.1 e.2) :
    ∀ vs ∈ log, ∀ v ∈ vs, ∃ k, Q k v := by
  induction h with
  | nil => simp
  | @cons m u us vs log hspent _ ih =>
    rw [List.forall_mem_cons] at hus ⊢
    refine ⟨fun v hv => ?_, ih (u.apply_forall hm hus.1) hus.2⟩
    obtain ⟨k, -, hk⟩ := hspent.exists_lookup hv
    exact ⟨k, hm k v hk⟩

theorem mem_applyAll {x : α} (hx : x ∈ m ∨ ∃ u ∈ us, x ∈ u.created.map Prod.fst)
    (hspent : ∀ u ∈ us, x ∉ u.spent) : x ∈ applyAll m us := by
  induction us generalizing m with
  | nil => simpa [applyAll] using hx
  | cons u us ih =>
    rw [List.forall_mem_cons] at hspent
    refine ih ?_ hspent.2
    rcases hx with hx | ⟨u', hu', hx⟩
    · exact .inl (mem_insertAll.mpr (.inr (mem_eraseAll.mpr ⟨hspent.1, hx⟩)))
    · rcases List.mem_cons.mp hu' with rfl | hu'
      · exact .inl (mem_insertAll.mpr (.inl hx))
      · exact .inr ⟨u', hu', hx⟩

theorem Records.revertAll_applyAll {log : List (List β)} (h : Records m us log)
    (hfresh : FreshRun m us) : revertAll (applyAll m us) us log = m := by
  induction h with
  | nil m => rfl
  | @cons m u us vs log hspent _ ih =>
    have hrest : revertAll (applyAll (u.apply m) us) us log = u.apply m := ih hfresh.2
    change u.revert (revertAll (applyAll (u.apply m) us) us log) vs = m
    rw [hrest, Update.revert_apply hspent hfresh.1]

end Ironcat.Lib.UndoLog
