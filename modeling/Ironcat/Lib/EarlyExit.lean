import Ironcat.Lib.Checked

/-!
# Loops that stop at the first error

A loop over a list whose body may fail. The state reached before the failing
element is kept, and so is the error.
-/

namespace Ironcat.Lib.EarlyExit

open Lib.Checked

variable {α σ τ ε : Type} {step : σ → α → Except ε σ} {s s' : σ} {l l₁ l₂ : List α} {e : ε}

def foldUntil (step : σ → α → Except ε σ) : σ → List α → σ × Option ε
  | s, [] => (s, none)
  | s, a :: l =>
    match step s a with
    | .error e => (s, some e)
    | .ok s' => foldUntil step s' l

theorem foldUntil_cons_of_ok {a : α} (h : step s a = .ok s') :
    foldUntil step s (a :: l) = foldUntil step s' l := by
  simp only [foldUntil, h]

theorem foldUntil_cons_of_error {a : α} (h : step s a = .error e) :
    foldUntil step s (a :: l) = (s, some e) := by
  simp only [foldUntil, h]

theorem foldUntil_eq_none :
    foldUntil step s l = (s', none) ↔ l.foldlM step s = .ok s' := by
  induction l generalizing s with
  | nil =>
    rw [foldlM_nil_eq_ok]
    simp [foldUntil]
  | cons a l ih =>
    rw [foldlM_cons_eq_ok]
    cases h : step s a with
    | error e => simp [foldUntil_cons_of_error h]
    | ok m => simp [foldUntil_cons_of_ok h, ih]

theorem foldUntil_eq_some :
    foldUntil step s l = (s', some e) ↔ ∃ done a rest, l = done ++ a :: rest ∧
      done.foldlM step s = .ok s' ∧ step s' a = .error e := by
  induction l generalizing s with
  | nil => simp [foldUntil]
  | cons b l ih =>
    constructor
    · intro h
      cases hb : step s b with
      | error e' =>
        rw [foldUntil_cons_of_error hb, Prod.mk.injEq, Option.some.injEq] at h
        obtain ⟨rfl, rfl⟩ := h
        exact ⟨[], b, l, rfl, rfl, hb⟩
      | ok m =>
        rw [foldUntil_cons_of_ok hb, ih] at h
        obtain ⟨done, a, rest, rfl, hdone, ha⟩ := h
        exact ⟨b :: done, a, rest, rfl, foldlM_cons_eq_ok.mpr ⟨m, hb, hdone⟩, ha⟩
    · rintro ⟨done, a, rest, hl, hdone, ha⟩
      cases done with
      | nil =>
        obtain ⟨rfl, rfl⟩ := List.cons.inj hl
        obtain rfl := foldlM_nil_eq_ok.mp hdone
        exact foldUntil_cons_of_error ha
      | cons c done =>
        obtain ⟨rfl, rfl⟩ := List.cons.inj hl
        obtain ⟨m, hm, hdone⟩ := foldlM_cons_eq_ok.mp hdone
        rw [foldUntil_cons_of_ok hm, ih]
        exact ⟨done, a, rest, rfl, hdone, ha⟩

variable {step' : τ → α → Except ε τ}

theorem foldUntil_map (f : σ → τ) (hstep : ∀ s a, (step s a).map f = step' (f s) a) (s : σ)
    (l : List α) :
    foldUntil step' (f s) l = (f (foldUntil step s l).1, (foldUntil step s l).2) := by
  induction l generalizing s with
  | nil => rfl
  | cons a l ih =>
    have ha := hstep s a
    cases h : step s a with
    | error e =>
      rw [h] at ha
      rw [foldUntil_cons_of_error h, foldUntil_cons_of_error ha.symm]
    | ok m =>
      rw [h] at ha
      rw [foldUntil_cons_of_ok h, foldUntil_cons_of_ok ha.symm, ih]

theorem foldlM_of_map (f : σ → τ) (hstep : ∀ s a, (step s a).map f = step' (f s) a) {t : τ}
    (h : l.foldlM step' (f s) = .ok t) : ∃ s', l.foldlM step s = .ok s' ∧ f s' = t := by
  rw [← foldUntil_eq_none, foldUntil_map f hstep, Prod.mk.injEq] at h
  exact ⟨_, foldUntil_eq_none.mp (Prod.ext rfl h.2), h.1⟩

end Ironcat.Lib.EarlyExit
