import Mathlib.Tactic

/-!
# Fallible computations and checked sums

Guards and early exits in `Except`, what a successful loop of fallible steps
means, and sums whose every partial result has to fit in 64 signed bits.
-/

namespace Ironcat.Lib.Checked

variable {ε α β : Type}

def ensure (c : Prop) [Decidable c] (e : ε) : Except ε Unit := if c then .ok () else .error e

def okOr (e : ε) : Option α → Except ε α
  | some a => .ok a
  | none => .error e

theorem ok_bind (a : α) (f : α → Except ε β) : (Except.ok a >>= f) = f a := rfl

theorem error_bind (e : ε) (f : α → Except ε β) : (Except.error e >>= f) = .error e := rfl

variable {x : Except ε α} {b : β}

theorem bind_eq_ok {f : α → Except ε β} : (x >>= f) = .ok b ↔ ∃ a, x = .ok a ∧ f a = .ok b := by
  cases x with
  | error e =>
    constructor
    · intro h
      cases h
    · rintro ⟨a, h, -⟩
      cases h
  | ok a =>
    constructor
    · intro h
      exact ⟨a, rfl, h⟩
    · rintro ⟨a', h, hf⟩
      cases h
      exact hf

variable {e : ε}

theorem bind_eq_error {f : α → Except ε β} :
    (x >>= f) = .error e ↔ x = .error e ∨ ∃ a, x = .ok a ∧ f a = .error e := by
  cases x with
  | error e' =>
    change Except.error e' = Except.error e ↔ _
    simp
  | ok a =>
    change f a = .error e ↔ _
    simp

theorem bind_congr_of_ok {f g : α → Except ε β} (h : ∀ a, x = .ok a → f a = g a) :
    (x >>= f) = x >>= g := by
  cases x with
  | error e => rfl
  | ok a => exact h a rfl

variable {a : α}

theorem pure_eq_ok {b : α} : (pure a : Except ε α) = .ok b ↔ a = b :=
  Except.ok.injEq a b ▸ Iff.rfl

@[simp] theorem ensure_eq_ok {c : Prop} [Decidable c] {u : Unit} : ensure c e = .ok u ↔ c := by
  unfold ensure
  split_ifs with h <;> simp [h]

@[simp] theorem okOr_eq_ok {o : Option α} : okOr e o = .ok a ↔ o = some a := by
  cases o <;> simp [okOr]

variable {ε' : Type}

@[simp] theorem mapError_eq_ok {f : ε → ε'} : x.mapError f = .ok a ↔ x = .ok a := by
  cases x <;> simp [Except.mapError]

@[simp] theorem mapError_eq_error {f : ε → ε'} {e : ε'} :
    x.mapError f = .error e ↔ ∃ e', x = .error e' ∧ f e' = e := by
  cases x <;> simp [Except.mapError]

theorem map_bind {f : α → Except ε β} {γ : Type} {g : β → γ} :
    (x >>= f).map g = x >>= fun a => (f a).map g := by
  cases x <;> rfl

@[simp] theorem map_eq_error {f : α → β} : x.map f = .error e ↔ x = .error e := by
  cases x <;> simp [Except.map]

@[simp] theorem map_eq_ok {f : α → β} : x.map f = .ok b ↔ ∃ a, x = .ok a ∧ f a = b := by
  cases x <;> simp [Except.map]

@[simp] theorem toOption_eq_some : x.toOption = some a ↔ x = .ok a := by
  cases x <;> simp [Except.toOption]

theorem isOk_iff : x.isOk ↔ ∃ a, x = .ok a := by
  cases x with
  | error e => exact iff_of_false Bool.false_ne_true fun ⟨_, h⟩ => by cases h
  | ok a => exact iff_of_true rfl ⟨a, rfl⟩

variable {l : List α}

theorem forM_eq_ok {f : α → Except ε Unit} {u : Unit} :
    forM l f = .ok u ↔ ∀ a ∈ l, f a = .ok () := by
  induction l with
  | nil => exact ⟨fun _ a ha => (List.not_mem_nil ha).elim, fun _ => rfl⟩
  | cons a l ih =>
    rw [List.forM_cons, bind_eq_ok, List.forall_mem_cons, ← ih]
    exact ⟨fun ⟨_, h₁, h₂⟩ => ⟨h₁, h₂⟩, fun ⟨h₁, h₂⟩ => ⟨(), h₁, h₂⟩⟩

theorem mapM_eq_ok {f : α → Except ε β} {g : α → β} (h : ∀ a ∈ l, f a = .ok (g a)) :
    l.mapM f = .ok (l.map g) := by
  induction l with
  | nil => rfl
  | cons a l ih =>
    rw [List.forall_mem_cons] at h
    simp only [List.mapM_cons, h.1, ih h.2]
    rfl

variable {f : β → α → Except ε β} {b' : β}

theorem foldlM_cons_eq_ok :
    (a :: l).foldlM f b = .ok b' ↔ ∃ m, f b a = .ok m ∧ l.foldlM f m = .ok b' := by
  rw [List.foldlM_cons, bind_eq_ok]

theorem foldlM_nil_eq_ok : ([] : List α).foldlM f b = .ok b' ↔ b = b' := by
  rw [List.foldlM_nil, pure_eq_ok]

theorem foldlM_cons_of_eq_ok {m : β} (h : f b a = .ok m) : (a :: l).foldlM f b = l.foldlM f m := by
  rw [List.foldlM_cons, h]
  rfl

theorem foldlM_concat_of_eq_ok {m : β} (h : l.foldlM f b = .ok m) :
    (l ++ [a]).foldlM f b = f m a := by
  rw [List.foldlM_append, h]
  exact bind_pure (f m a)

theorem foldlM_append_eq_ok {l₁ l₂ : List α} :
    (l₁ ++ l₂).foldlM f b = .ok b' ↔
      ∃ m, l₁.foldlM f b = .ok m ∧ l₂.foldlM f m = .ok b' := by
  rw [List.foldlM_append, bind_eq_ok]

theorem foldlM_concat_eq_ok :
    (l ++ [a]).foldlM f b = .ok b' ↔ ∃ m, l.foldlM f b = .ok m ∧ f m a = .ok b' := by
  simp only [foldlM_append_eq_ok, foldlM_cons_eq_ok, foldlM_nil_eq_ok, exists_eq_right]

theorem foldlM_invariant (I : β → Prop) (step : ∀ a ∈ l, ∀ m m', I m → f m a = .ok m' → I m')
    (hb : I b) (h : l.foldlM f b = .ok b') : I b' := by
  induction l generalizing b with
  | nil =>
    obtain rfl := foldlM_nil_eq_ok.mp h
    exact hb
  | cons a l ih =>
    obtain ⟨m, hm, hrest⟩ := foldlM_cons_eq_ok.mp h
    exact ih (fun x hx => step x (List.mem_cons_of_mem a hx))
      (step a List.mem_cons_self b m hb hm) hrest

variable {g : β → α → Except ε β}

theorem foldlM_congr (h : ∀ a ∈ l, ∀ b, f b a = g b a) (b : β) : l.foldlM f b = l.foldlM g b := by
  induction l generalizing b with
  | nil => rfl
  | cons a l ih =>
    rw [List.foldlM_cons, List.foldlM_cons, h a List.mem_cons_self]
    exact bind_congr_of_ok fun m _ => ih (fun x hx => h x (List.mem_cons_of_mem a hx)) m

theorem foldlM_congr_of_invariant (I : ℕ → β → Prop) {k : ℕ} (hb : I k b)
    (step : ∀ a ∈ l, ∀ n m, n < k + l.length → I n m →
      f m a = g m a ∧ ∀ m', g m a = .ok m' → I (n + 1) m') :
    l.foldlM f b = l.foldlM g b ∧ ∀ b', l.foldlM g b = .ok b' → I (k + l.length) b' := by
  induction l generalizing b k with
  | nil =>
    refine ⟨rfl, fun b' h => ?_⟩
    obtain rfl := foldlM_nil_eq_ok.mp h
    exact hb
  | cons a l ih =>
    have hlen : k + (a :: l).length = k + 1 + l.length := by
      rw [List.length_cons]
      omega
    rw [hlen] at step ⊢
    obtain ⟨hfg, hnext⟩ := step a List.mem_cons_self k b (by omega) hb
    have hrest : ∀ m, g b a = .ok m → l.foldlM f m = l.foldlM g m ∧
        ∀ b', l.foldlM g m = .ok b' → I (k + 1 + l.length) b' := fun m hm =>
      ih (hnext m hm) fun x hx => step x (List.mem_cons_of_mem a hx)
    rw [List.foldlM_cons, List.foldlM_cons, hfg]
    refine ⟨bind_congr_of_ok fun m hm => (hrest m hm).1, fun b' h => ?_⟩
    obtain ⟨m, hm, h⟩ := bind_eq_ok.mp h
    exact (hrest m hm).2 b' h

theorem foldlM_ok_imp (step : ∀ a ∈ l, ∀ m m', f m a = .ok m' → g m a = .ok m')
    (h : l.foldlM f b = .ok b') : l.foldlM g b = .ok b' := by
  induction l generalizing b with
  | nil => exact h
  | cons a l ih =>
    obtain ⟨m, hm, hrest⟩ := foldlM_cons_eq_ok.mp h
    refine foldlM_cons_eq_ok.mpr ⟨m, step a List.mem_cons_self b m hm, ?_⟩
    exact ih (fun x hx => step x (List.mem_cons_of_mem a hx)) hrest

def Avoids (bad : ε → Prop) (x : Except ε α) : Prop := ∀ e, x = .error e → ¬ bad e

section
variable {bad : ε → Prop}

theorem avoids_ok (a : α) : Avoids bad (.ok a : Except ε α) := fun _ h => by cases h

theorem avoids_ensure {c : Prop} [Decidable c] (h : ¬ bad e) : Avoids bad (ensure c e) := by
  unfold ensure
  split_ifs
  · exact avoids_ok ()
  · intro e' he
    cases he
    exact h

theorem avoids_okOr {o : Option α} (h : bad e → ∃ a, o = some a) : Avoids bad (okOr e o) := by
  intro e' he hbad
  cases o with
  | some a => cases he
  | none =>
    cases he
    obtain ⟨a, ha⟩ := h hbad
    cases ha

theorem avoids_mapError {x : Except ε' α} {f : ε' → ε} (h : ∀ e, ¬ bad (f e)) :
    Avoids bad (x.mapError f) := by
  cases x with
  | ok a => exact avoids_ok a
  | error e =>
    intro e' he
    cases he
    exact h e

theorem Avoids.bind {f : α → Except ε β} (hx : Avoids bad x)
    (hf : ∀ a, x = .ok a → Avoids bad (f a)) : Avoids bad (x >>= f) := by
  cases x with
  | error e => exact fun e' he => hx e' (by cases he; rfl)
  | ok a => exact hf a rfl

theorem avoids_forM {f : α → Except ε Unit} (h : ∀ a ∈ l, Avoids bad (f a)) :
    Avoids bad (forM l f) := by
  induction l with
  | nil => exact avoids_ok ()
  | cons a l ih =>
    rw [List.forall_mem_cons] at h
    exact h.1.bind fun _ _ => ih h.2

theorem avoids_foldlM (I : β → Prop) (hb : I b)
    (h : ∀ a ∈ l, ∀ m, I m → Avoids bad (f m a) ∧ ∀ m', f m a = .ok m' → I m') :
    Avoids bad (l.foldlM f b) := by
  induction l generalizing b with
  | nil => exact avoids_ok b
  | cons a l ih =>
    rw [List.forall_mem_cons] at h
    have hstep := h.1 b hb
    rw [List.foldlM_cons]
    exact hstep.1.bind fun m hm => ih (hstep.2 m hm) h.2

end

def i64Min : ℤ := -2 ^ 63

def i64Max : ℤ := 2 ^ 63 - 1

def checkedAdd (a b : ℤ) : Option ℤ :=
  if i64Min ≤ a + b ∧ a + b ≤ i64Max then some (a + b) else none

def checkedSum (l : List ℤ) : Option ℤ := l.foldlM checkedAdd 0

theorem checkedAdd_eq_some {a b c : ℤ} :
    checkedAdd a b = some c ↔ c = a + b ∧ i64Min ≤ a + b ∧ a + b ≤ i64Max := by
  unfold checkedAdd
  split_ifs with h
  · simp [h, eq_comm]
  · simp [h]

variable {s : ℤ}

theorem foldlM_checkedAdd_eq {l : List ℤ} {a : ℤ} (h : l.foldlM checkedAdd a = some s) :
    s = a + l.sum := by
  induction l generalizing a with
  | nil =>
    cases h
    simp
  | cons x l ih =>
    rw [List.foldlM_cons] at h
    obtain ⟨m, hm, hrest⟩ := Option.bind_eq_some_iff.mp h
    obtain ⟨rfl, -⟩ := checkedAdd_eq_some.mp hm
    rw [ih hrest, List.sum_cons]
    ring

theorem foldlM_checkedAdd_of_nonneg {l : List ℤ} {a : ℤ} (ha : 0 ≤ a) (hl : ∀ x ∈ l, 0 ≤ x)
    (hmax : a + l.sum ≤ i64Max) : l.foldlM checkedAdd a = some (a + l.sum) := by
  induction l generalizing a with
  | nil => simp
  | cons x l ih =>
    rw [List.forall_mem_cons] at hl
    rw [List.sum_cons] at hmax
    have hrest : 0 ≤ l.sum := List.sum_nonneg hl.2
    have hmin : i64Min ≤ 0 := by decide
    have hx : checkedAdd a x = some (a + x) :=
      checkedAdd_eq_some.mpr ⟨rfl, by omega, by omega⟩
    rw [List.foldlM_cons, hx, List.sum_cons, ← add_assoc]
    exact ih (by omega) hl.2 (by omega)

theorem checkedSum_eq {l : List ℤ} (h : checkedSum l = some s) : s = l.sum := by
  rw [foldlM_checkedAdd_eq h, zero_add]

theorem foldlM_checkedAdd_le {l : List ℤ} {a : ℤ} (ha : a ≤ i64Max)
    (h : l.foldlM checkedAdd a = some s) : s ≤ i64Max := by
  induction l generalizing a with
  | nil =>
    cases h
    exact ha
  | cons x l ih =>
    rw [List.foldlM_cons] at h
    obtain ⟨m, hm, hrest⟩ := Option.bind_eq_some_iff.mp h
    obtain ⟨rfl, _, hmax⟩ := checkedAdd_eq_some.mp hm
    exact ih hmax hrest

theorem checkedSum_le {l : List ℤ} (h : checkedSum l = some s) : s ≤ i64Max :=
  foldlM_checkedAdd_le (by decide) h

theorem checkedSum_of_nonneg {l : List ℤ} (hl : ∀ x ∈ l, 0 ≤ x) (hmax : l.sum ≤ i64Max) :
    checkedSum l = some l.sum := by
  have h := foldlM_checkedAdd_of_nonneg (le_refl 0) hl (by rwa [zero_add])
  rwa [zero_add] at h

end Ironcat.Lib.Checked
