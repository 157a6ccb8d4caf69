import Mathlib.Logic.Basic

/-!
# A task and a lock it does not re-enter

A task over shared data `σ` behind one lock, written as the sequence of its
acquisitions, releases and accesses. While the task holds no guard the other
tasks run and may leave any data behind.
-/

namespace Ironcat.Lib.Locks

variable {σ α β : Type}

inductive Mode
  | read
  | write

inductive Task (σ α : Type) where
  | done (a : α)
  | acquire (mode : Mode) (next : Task σ α)
  | release (next : Task σ α)
  | access (f : σ → σ) (next : σ → Task σ α)

namespace Task

def bind : Task σ α → (α → Task σ β) → Task σ β
  | .done a, k => k a
  | .acquire mode next, k => .acquire mode (next.bind k)
  | .release next, k => .release (next.bind k)
  | .access f next, k => .access f fun s => (next s).bind k

instance : Monad (Task σ) where
  pure := .done
  bind := bind

def look : Task σ σ := .access id .done

def update (f : σ → σ) : Task σ Unit := .access f fun _ => .done ()

def withLock (mode : Mode) (body : Task σ α) : Task σ α :=
  .acquire mode (body.bind fun a => .release (.done a))

def alone : Task σ α → σ → α × σ
  | .done a, s => (a, s)
  | .acquire _ next, s => next.alone s
  | .release next, s => next.alone s
  | .access f next, s => (next s).alone (f s)

/-- Some execution from `s` with the guard `held` reaches an acquisition that is
made while a guard is alive. -/
inductive Reenters : Option Mode → σ → Task σ α → Prop
  | here {held mode : Mode} {s : σ} {next : Task σ α} :
      Reenters (some held) s (.acquire mode next)
  | granted {mode : Mode} {s : σ} {next : Task σ α} :
      Reenters (some mode) s next → Reenters none s (.acquire mode next)
  | released {held : Option Mode} {s : σ} {next : Task σ α} (s' : σ) :
      Reenters none s' next → Reenters held s (.release next)
  | accessed {held : Mode} {s : σ} {f : σ → σ} {next : σ → Task σ α} :
      Reenters (some held) (f s) (next s) → Reenters (some held) s (.access f next)
  | accessedFree {s : σ} {f : σ → σ} {next : σ → Task σ α} (s' s'' : σ) :
      Reenters none s'' (next s') → Reenters none s (.access f next)

@[simp] theorem alone_pure (a : α) (s : σ) : (pure a : Task σ α).alone s = (a, s) := rfl

@[simp] theorem alone_look (s : σ) : (look : Task σ σ).alone s = (s, s) := rfl

@[simp] theorem alone_update (f : σ → σ) (s : σ) : (update f).alone s = ((), f s) := rfl

@[simp] theorem alone_bind (t : Task σ α) (k : α → Task σ β) (s : σ) :
    (t >>= k).alone s = (k (t.alone s).1).alone (t.alone s).2 := by
  change (t.bind k).alone s = _
  induction t generalizing s with
  | done a => rfl
  | acquire mode next ih => exact ih s
  | release next ih => exact ih s
  | access f next ih => exact ih s (f s)

@[simp] theorem alone_withLock (mode : Mode) (body : Task σ α) (s : σ) :
    (withLock mode body).alone s = body.alone s :=
  alone_bind body (fun a => .release (.done a)) s

def wp : Task σ α → (α → Option Mode → σ → Prop) → Option Mode → σ → Prop
  | .done a, Q, held, s => Q a held s
  | .acquire _ _, _, some _, _ => False
  | .acquire mode next, Q, none, s => next.wp Q (some mode) s
  | .release next, Q, _, _ => ∀ s', next.wp Q none s'
  | .access f next, Q, some held, s => (next s).wp Q (some held) (f s)
  | .access _ next, Q, none, _ => ∀ s' s'', (next s').wp Q none s''

variable {s : σ} {held : Option Mode}

theorem not_reenters_iff {t : Task σ α} :
    ¬ Reenters held s t ↔ t.wp (fun _ _ _ => True) held s := by
  induction t generalizing held s with
  | done a => exact iff_of_true (fun h => nomatch h) trivial
  | acquire mode next ih =>
    cases held with
    | some held => exact iff_of_false (fun h => h .here) id
    | none => exact (not_congr ⟨fun | .granted h => h, .granted⟩).trans ih
  | release next ih =>
    constructor
    · exact fun h s' => ih.1 fun hn => h (.released s' hn)
    · exact fun h => fun | .released s' hn => ih.2 (h s') hn
  | access f next ih =>
    cases held with
    | some held => exact (not_congr ⟨fun | .accessed h => h, .accessed⟩).trans (ih s)
    | none =>
      constructor
      · exact fun h s' s'' => (ih s').1 fun hn => h (.accessedFree s' s'' hn)
      · exact fun h => fun | .accessedFree s' s'' hn => (ih s').2 (h s' s'') hn

variable {Q : α → Option Mode → σ → Prop}

@[simp] theorem wp_pure {a : α} : (pure a : Task σ α).wp Q held s ↔ Q a held s := Iff.rfl

@[simp] theorem wp_bind {t : Task σ α} {k : α → Task σ β} {Q : β → Option Mode → σ → Prop} :
    (t >>= k).wp Q held s ↔ t.wp (fun a => (k a).wp Q) held s := by
  change (t.bind k).wp Q held s ↔ _
  induction t generalizing held s with
  | done a => exact Iff.rfl
  | acquire mode next ih =>
    cases held with
    | some held => exact Iff.rfl
    | none => exact ih
  | release next ih => exact forall_congr' fun s' => ih
  | access f next ih =>
    cases held with
    | some held => exact ih s
    | none => exact forall_congr' fun s' => forall_congr' fun s'' => ih s'

@[simp] theorem wp_look {Q : σ → Option Mode → σ → Prop} {held : Mode} :
    (look : Task σ σ).wp Q (some held) s ↔ Q s (some held) s := Iff.rfl

@[simp] theorem wp_look_free {Q : σ → Option Mode → σ → Prop} :
    (look : Task σ σ).wp Q none s ↔ ∀ s' s'', Q s' none s'' := Iff.rfl

@[simp] theorem wp_update {f : σ → σ} {Q : Unit → Option Mode → σ → Prop} {held : Mode} :
    (update f).wp Q (some held) s ↔ Q () (some held) (f s) := Iff.rfl

@[simp] theorem wp_withLock {mode : Mode} {body : Task σ α} :
    (withLock mode body).wp Q none s ↔
      body.wp (fun a _ _ => ∀ s', Q a none s') (some mode) s :=
  wp_bind

@[simp] theorem not_wp_withLock {mode held : Mode} {body : Task σ α} :
    ¬ (withLock mode body).wp Q (some held) s := id

end Task

end Ironcat.Lib.Locks
