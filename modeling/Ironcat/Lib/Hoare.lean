import Mathlib.Control.Monad.Basic

/-!
# Triples for programs that may fail

A program over a state either returns a value with the next state or stops with
a fault. A triple says what holds after each of the two.
-/

namespace Ironcat.Lib.Hoare

variable {σ τ ε α β : Type}

def Triple (pre : σ → Prop) (prog : StateT σ (Except ε) α) (post : α → σ → Prop)
    (fault : ε → Prop) : Prop :=
  ∀ s, pre s → match prog s with
    | .ok (a, s') => post a s'
    | .error e => fault e

theorem get_bind_apply (next : σ → StateT σ (Except ε) β) (s : σ) : (get >>= next) s = next s s := rfl

theorem liftM_bind_apply (x : Except ε α) (next : α → StateT σ (Except ε) β) (s : σ) :
    ((liftM x : StateT σ (Except ε) α) >>= next) s = x >>= fun a => next a s := by
  cases x <;> rfl

theorem bind_apply (prog : StateT σ (Except ε) α) (next : α → StateT σ (Except ε) β) (s : σ) :
    (prog >>= next) s = prog s >>= fun r => next r.1 r.2 := rfl

variable {prog : StateT σ (Except ε) α} {s s' : σ} {a : α}

theorem bind_apply_of_ok (h : prog s = .ok (a, s')) (next : α → StateT σ (Except ε) β) :
    (prog >>= next) s = next a s' := by
  rw [bind_apply, h]
  rfl

variable {e : ε}

theorem bind_apply_of_error (h : prog s = .error e) (next : α → StateT σ (Except ε) β) :
    (prog >>= next) s = .error e := by
  rw [bind_apply, h]
  rfl

theorem bind_apply_eq_ok {next : α → StateT σ (Except ε) β} {r : β × σ} :
    (prog >>= next) s = .ok r ↔ ∃ a s', prog s = .ok (a, s') ∧ next a s' = .ok r := by
  rw [bind_apply]
  cases hrun : prog s with
  | ok p =>
    constructor
    · exact fun h => ⟨p.1, p.2, rfl, h⟩
    · rintro ⟨a, s', hp, h⟩
      cases hp
      exact h
  | error e =>
    constructor
    · nofun
    · rintro ⟨a, s', hp, -⟩
      cases hp

variable {x : Except ε α}

theorem liftM_bind_apply_eq_ok {next : α → StateT σ (Except ε) β} {r : β × σ} :
    ((liftM x : StateT σ (Except ε) α) >>= next) s = .ok r ↔
      ∃ a, x = .ok a ∧ next a s = .ok r := by
  rw [liftM_bind_apply]
  cases x with
  | ok a =>
    constructor
    · exact fun h => ⟨a, rfl, h⟩
    · rintro ⟨a', ha, h⟩
      cases ha
      exact h
  | error e =>
    constructor
    · nofun
    · rintro ⟨a, ha, -⟩
      cases ha

theorem ok_bind_apply (hx : x = .ok a) (next : α → StateT σ (Except ε) β) (s : σ) :
    ((liftM x : StateT σ (Except ε) α) >>= next) s = next a s := by
  rw [liftM_bind_apply, hx]
  rfl

section Rules

variable {pre pre' : σ → Prop} {post post' : α → σ → Prop} {fault fault' : ε → Prop}

theorem Triple.of_ok (h : Triple pre prog post fault) (hs : pre s) (hrun : prog s = .ok (a, s')) :
    post a s' := by
  have hres := h s hs
  rwa [hrun] at hres

theorem Triple.of_error (h : Triple pre prog post fault) (hs : pre s) (hrun : prog s = .error e) :
    fault e := by
  have hres := h s hs
  rwa [hrun] at hres

theorem Triple.intro {prog : StateT σ (Except ε) α}
    (hok : ∀ s, pre s → ∀ a s', prog s = .ok (a, s') → post a s')
    (herror : ∀ s, pre s → ∀ e, prog s = .error e → fault e) : Triple pre prog post fault := by
  intro s hs
  cases hrun : prog s with
  | ok r => exact hok s hs r.1 r.2 hrun
  | error e => exact herror s hs e hrun

theorem Triple.mono (h : Triple pre prog post fault) (hpre : ∀ s, pre' s → pre s)
    (hpost : ∀ a s, post a s → post' a s) (hfault : ∀ e, fault e → fault' e) :
    Triple pre' prog post' fault' :=
  Triple.intro (fun s hs _ _ hrun => hpost _ _ (h.of_ok (hpre s hs) hrun))
    fun s hs _ hrun => hfault _ (h.of_error (hpre s hs) hrun)

theorem Triple.of_imp (h : Triple pre prog post fault) (hpre : ∀ s, pre' s → pre s) :
    Triple pre' prog post fault :=
  fun s hs => h s (hpre s hs)

theorem Triple.imp_post (h : Triple pre prog post fault) (hpost : ∀ a s, post a s → post' a s) :
    Triple pre prog post' fault :=
  h.mono (fun _ hs => hs) hpost fun _ he => he

theorem triple_pure (h : ∀ s, pre s → post a s) :
    Triple pre (pure a : StateT σ (Except ε) α) post fault :=
  fun s hs => h s hs

theorem triple_and {c : Prop} (h : c → Triple pre prog post fault) :
    Triple (fun s => c ∧ pre s) prog post fault :=
  fun s hs => h hs.1 s hs.2

theorem triple_throw (h : fault e) : Triple pre (throw e : StateT σ (Except ε) α) post fault :=
  fun _ _ => h

theorem triple_set {post : Unit → σ → Prop} (h : ∀ s, pre s → post () s') :
    Triple pre (set s' : StateT σ (Except ε) PUnit) post fault :=
  fun s hs => h s hs

theorem triple_modify {f : σ → σ} {post : Unit → σ → Prop} (h : ∀ s, pre s → post () (f s)) :
    Triple pre (modify f : StateT σ (Except ε) PUnit) post fault :=
  fun s hs => h s hs

theorem Triple.bind {next : α → StateT σ (Except ε) β} {post' : β → σ → Prop}
    (h : Triple pre prog post fault) (hnext : ∀ a, Triple (post a) (next a) post' fault) :
    Triple pre (prog >>= next) post' fault := by
  intro s hs
  have hres := h s hs
  change match (prog s >>= fun r => next r.1 r.2) with
    | .ok (a, s') => post' a s'
    | .error e => fault e
  cases hrun : prog s with
  | ok r =>
    rw [hrun] at hres
    exact hnext r.1 r.2 hres
  | error e =>
    rw [hrun] at hres
    exact hres

theorem triple_get_bind {next : σ → StateT σ (Except ε) β} {post : β → σ → Prop}
    (h : ∀ s, pre s → Triple (· = s) (next s) post fault) :
    Triple pre (get >>= next) post fault :=
  fun s hs => h s hs s rfl

theorem triple_set_bind {next : PUnit → StateT σ (Except ε) β} {post : β → σ → Prop}
    (h : Triple (· = s') (next ()) post fault) :
    Triple pre ((set s' : StateT σ (Except ε) PUnit) >>= next) post fault :=
  fun _ _ => h s' rfl

theorem triple_liftM_bind {next : α → StateT σ (Except ε) β} {post : β → σ → Prop}
    (hok : ∀ a, x = .ok a → Triple pre (next a) post fault) (herror : ∀ e, x = .error e → fault e) :
    Triple pre ((liftM x : StateT σ (Except ε) α) >>= next) post fault := by
  intro s hs
  cases hx : x with
  | ok a => exact hok a hx s hs
  | error e => exact herror e hx

theorem triple_ok_bind (hx : x = .ok a) {next : α → StateT σ (Except ε) β} {post : β → σ → Prop}
    (h : Triple pre (next a) post fault) :
    Triple pre ((liftM x : StateT σ (Except ε) α) >>= next) post fault :=
  triple_liftM_bind (fun b hb => by rw [hx] at hb; cases hb; exact h)
    fun e he => by rw [hx] at he; cases he

theorem triple_ite {c : Prop} [Decidable c] {p q : StateT σ (Except ε) α}
    (hp : c → Triple pre p post fault) (hq : ¬ c → Triple pre q post fault) :
    Triple pre (if c then p else q) post fault := by
  split_ifs with hc
  · exact hp hc
  · exact hq hc

end Rules

def Keeps (inv : σ → Prop) (prog : StateT σ (Except ε) α) (result : α → Prop)
    (fault : ε → Prop) : Prop :=
  Triple inv prog (fun a s => result a ∧ inv s) fault

variable {inv : σ → Prop} {result : α → Prop} {fault : ε → Prop}

theorem keeps_pure (h : result a) : Keeps inv (pure a : StateT σ (Except ε) α) result fault :=
  triple_pure fun _ hs => ⟨h, hs⟩

theorem Keeps.weaken (h : Keeps inv prog result fault) : Keeps inv prog (fun _ => True) fault :=
  h.imp_post fun _ _ hs => ⟨trivial, hs.2⟩

theorem keeps_throw (h : fault e) : Keeps inv (throw e : StateT σ (Except ε) α) result fault :=
  triple_throw h

theorem Keeps.bind {next : α → StateT σ (Except ε) β} {post : β → σ → Prop}
    (h : Keeps inv prog result fault) (hnext : ∀ a, result a → Triple inv (next a) post fault) :
    Triple inv (prog >>= next) post fault := by
  refine Triple.bind h fun a s hs => ?_
  exact hnext a hs.1 s hs.2

end Ironcat.Lib.Hoare
