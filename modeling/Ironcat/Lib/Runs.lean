import Mathlib.Tactic

/-!
# Runs under a step condition

A run folds a step function over a list of operations. `Along` says that a
condition on the state and the next operation holds at every step of the run.
-/

namespace Ironcat.Lib.Runs

variable {σ ω : Type}

def run (step : σ → ω → σ) (s : σ) (ops : List ω) : σ := ops.foldl step s

def Along (step : σ → ω → σ) (cond : σ → ω → Prop) : σ → List ω → Prop
  | _, [] => True
  | s, op :: ops => cond s op ∧ Along step cond (step s op) ops

instance Along.decidable (step : σ → ω → σ) (cond : σ → ω → Prop) [∀ s op, Decidable (cond s op)] :
    ∀ s ops, Decidable (Along step cond s ops)
  | _, [] => isTrue trivial
  | s, op :: ops =>
    have := Along.decidable step cond (step s op) ops
    inferInstanceAs (Decidable (cond s op ∧ _))

@[simp] theorem run_nil (step : σ → ω → σ) (s : σ) : run step s [] = s := rfl

@[simp] theorem run_cons (step : σ → ω → σ) (s : σ) (op : ω) (ops : List ω) :
    run step s (op :: ops) = run step (step s op) ops := rfl

variable {s : σ}

theorem run_invariant {step : σ → ω → σ} {cond : σ → ω → Prop} (I : σ → Prop)
    (hstep : ∀ s op, I s → cond s op → I (step s op)) {ops : List ω} (hs : I s)
    (halong : Along step cond s ops) : I (run step s ops) := by
  induction ops generalizing s with
  | nil => exact hs
  | cons op ops ih => exact ih (hstep s op hs halong.1) halong.2

theorem run_always {step : σ → ω → σ} (I : σ → Prop) (hstep : ∀ s op, I s → I (step s op))
    (hs : I s) (ops : List ω) : I (run step s ops) := by
  induction ops generalizing s with
  | nil => exact hs
  | cons op ops ih => exact ih (hstep s op hs)

theorem along_of_forall {step : σ → ω → σ} {cond : σ → ω → Prop} {ops : List ω}
    (h : ∀ op ∈ ops, ∀ s, cond s op) : Along step cond s ops := by
  induction ops generalizing s with
  | nil => trivial
  | cons op ops ih =>
    rw [List.forall_mem_cons] at h
    exact ⟨h.1 s, ih h.2⟩

theorem Along.and {step : σ → ω → σ} {cond : σ → ω → Prop} {p : ω → Prop} {ops : List ω}
    (h : Along step cond s ops) (hp : ∀ op ∈ ops, p op) :
    Along step (fun s op => cond s op ∧ p op) s ops := by
  induction ops generalizing s with
  | nil => trivial
  | cons op ops ih =>
    rw [List.forall_mem_cons] at hp
    exact ⟨⟨h.1, hp.1⟩, ih h.2 hp.2⟩

theorem Along.forall_mem {step : σ → ω → σ} {cond : σ → ω → Prop} {p : ω → Prop}
    (hp : ∀ s op, cond s op → p op) {ops : List ω} (h : Along step cond s ops) :
    ∀ op ∈ ops, p op := by
  induction ops generalizing s with
  | nil => simp
  | cons op ops ih => exact List.forall_mem_cons.mpr ⟨hp s op h.1, ih h.2⟩

section Decreasing

variable {step : σ → ω → σ} {cond : σ → ω → Prop} {I : σ → Prop} {f : σ → ℕ}
variable (hstep : ∀ s op, I s → cond s op → I (step s op))
variable (hf : ∀ s op, I s → cond s op → f (step s op) < f s)
include hstep hf

theorem length_le_of_decreasing {ops : List ω} (hs : I s) (halong : Along step cond s ops) :
    ops.length ≤ f s := by
  induction ops generalizing s with
  | nil => exact Nat.zero_le _
  | cons op ops ih =>
    have hrest := ih (hstep s op hs halong.1) halong.2
    have hless := hf s op hs halong.1
    rw [List.length_cons]
    omega

theorem exists_run_to_end (hs : I s) :
    ∃ ops, Along step cond s ops ∧ ∀ op, ¬ cond (run step s ops) op := by
  induction hn : f s using Nat.strong_induction_on generalizing s with
  | _ n ih =>
    by_cases hend : ∃ op, cond s op
    · obtain ⟨op, hop⟩ := hend
      obtain ⟨ops, halong, hops⟩ := ih _ (hn ▸ hf s op hs hop) (hstep s op hs hop) rfl
      exact ⟨op :: ops, ⟨hop, halong⟩, hops⟩
    · exact ⟨[], trivial, fun op hop => hend ⟨op, hop⟩⟩

end Decreasing

end Ironcat.Lib.Runs
