import Mathlib.Tactic
import Mathlib.Data.List.Nodup

/-!
# Trees over lists by pairing neighbours

A level of the tree is a list; the next one combines neighbours, an odd last
element with itself. The pairing alone can be undone when no complete pair
consists of two equal elements, and when the combination of two elements
determines them, so can the whole ascent.
-/

namespace Ironcat.Lib.PairTree

variable {α : Type} {pair : α × α → α} {l l' : List α} {d : ℕ}

def pairUp : List α → List (α × α)
  | a :: b :: l => (a, b) :: pairUp l
  | [a] => [(a, a)]
  | [] => []

def HasTwins : List α → Prop
  | a :: b :: l => a = b ∨ HasTwins l
  | _ => False

theorem pairUp_inj : ∀ {l l' : List α}, ¬ HasTwins l → ¬ HasTwins l' →
    pairUp l = pairUp l' → l = l'
  | [], [], _, _, _ => rfl
  | [], [_], _, _, h => by cases h
  | [], _ :: _ :: _, _, _, h => by cases h
  | [_], [], _, _, h => by cases h
  | [_], [_], _, _, h => by
    cases h
    rfl
  | [a], b :: c :: l, _, htwins, h => by
    obtain ⟨hhead, _⟩ := List.cons.inj h
    obtain ⟨rfl, rfl⟩ := Prod.mk.inj hhead
    exact absurd (.inl rfl) htwins
  | _ :: _ :: _, [], _, _, h => by cases h
  | a :: b :: l, [c], htwins, _, h => by
    obtain ⟨hhead, _⟩ := List.cons.inj h
    obtain ⟨rfl, rfl⟩ := Prod.mk.inj hhead
    exact absurd (.inl rfl) htwins
  | a :: b :: l, c :: e :: l', htwins, htwins', h => by
    obtain ⟨hhead, htail⟩ := List.cons.inj h
    obtain ⟨rfl, rfl⟩ := Prod.mk.inj hhead
    have hrest := pairUp_inj (fun hl => htwins (.inr hl)) (fun hl => htwins' (.inr hl)) htail
    rw [hrest]

theorem mem_of_mem_pairUp : ∀ {l : List α} {p : α × α}, p ∈ pairUp l → p.1 ∈ l
  | [a], p, h => by
    obtain rfl := List.mem_singleton.mp h
    exact List.mem_singleton.mpr rfl
  | a :: b :: l, p, h => by
    rcases List.mem_cons.mp h with rfl | h
    · exact List.mem_cons_self
    · exact List.mem_cons_of_mem a (List.mem_cons_of_mem b (mem_of_mem_pairUp h))

theorem nodup_pairUp : ∀ {l : List α}, l.Nodup → (pairUp l).Nodup
  | [], _ => List.nodup_nil
  | [a], _ => List.nodup_singleton _
  | a :: b :: l, h => by
    have hl := h.of_cons.of_cons
    refine List.nodup_cons.mpr ⟨fun hmem => ?_, nodup_pairUp hl⟩
    exact (List.nodup_cons.mp h).1 (List.mem_cons_of_mem b (mem_of_mem_pairUp hmem))

theorem not_hasTwins_of_nodup : ∀ {l : List α}, l.Nodup → ¬ HasTwins l
  | [], _, htwins => htwins
  | [_], _, htwins => htwins
  | a :: b :: l, h, htwins => by
    rcases htwins with rfl | htwins
    · exact (List.nodup_cons.mp h).1 List.mem_cons_self
    · exact not_hasTwins_of_nodup h.of_cons.of_cons htwins

def nextLevel (pair : α × α → α) (l : List α) : List α := (pairUp l).map pair

def ascend (pair : α × α → α) : ℕ → List α → List α
  | 0, l => l
  | d+1, l => ascend pair d (nextLevel pair l)

def combined (pair : α × α → α) : ℕ → List α → List (α × α)
  | 0, _ => []
  | d+1, l => pairUp l ++ combined pair d (nextLevel pair l)

def TwinsBelow (pair : α × α → α) : ℕ → List α → Prop
  | 0, _ => False
  | d+1, l => HasTwins l ∨ TwinsBelow pair d (nextLevel pair l)

theorem map_inj_of_injOn {β γ : Type} {f : β → γ} {xs ys : List β}
    (h : Set.InjOn f {p | p ∈ xs ∨ p ∈ ys}) (heq : xs.map f = ys.map f) : xs = ys := by
  induction xs generalizing ys with
  | nil => exact (List.map_eq_nil_iff.mp heq.symm).symm
  | cons x xs ih =>
    cases ys with
    | nil => cases heq
    | cons y ys =>
      obtain ⟨hhead, htail⟩ := List.cons.inj heq
      have hxy : x = y := h (.inl List.mem_cons_self) (.inr List.mem_cons_self) hhead
      have hrest : xs = ys := ih (h.mono fun p hp =>
        hp.imp (List.mem_cons_of_mem x) (List.mem_cons_of_mem y)) htail
      rw [hxy, hrest]

theorem ascend_inj (hinj : Set.InjOn pair {p | p ∈ combined pair d l ∨ p ∈ combined pair d l'})
    (htwins : ¬ TwinsBelow pair d l) (htwins' : ¬ TwinsBelow pair d l')
    (h : ascend pair d l = ascend pair d l') : l = l' := by
  induction d generalizing l l' with
  | zero => exact h
  | succ d ih =>
    rw [TwinsBelow, not_or] at htwins htwins'
    have hnext : nextLevel pair l = nextLevel pair l' := by
      refine ih (hinj.mono fun p hp => ?_) htwins.2 htwins'.2 h
      exact hp.imp (List.mem_append_right _) (List.mem_append_right _)
    refine pairUp_inj htwins.1 htwins'.1 (map_inj_of_injOn (hinj.mono fun p hp => ?_) hnext)
    exact hp.imp (List.mem_append_left _) (List.mem_append_left _)

theorem not_twinsBelow_of_nodup (hinj : Set.InjOn pair {p | p ∈ combined pair d l})
    (hl : l.Nodup) : ¬ TwinsBelow pair d l := by
  induction d generalizing l with
  | zero => exact id
  | succ d ih =>
    have hnext : (nextLevel pair l).Nodup := by
      refine List.Nodup.map_on (fun p hp q hq hpq => ?_) (nodup_pairUp hl)
      exact hinj (List.mem_append_left _ hp) (List.mem_append_left _ hq) hpq
    refine not_or.mpr ⟨not_hasTwins_of_nodup hl, ih (hinj.mono fun p hp => ?_) hnext⟩
    exact List.mem_append_right _ hp

end Ironcat.Lib.PairTree
