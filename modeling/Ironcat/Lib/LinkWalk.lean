import Ironcat.Lib.Forest

/-!
# Loops that follow links

A loop whose rounds go on with a new state or end in a result, with no bound on
the number of rounds. When each round follows a link from the node it is at, and
finitely many nodes have a link, the loop ends exactly when it meets no cycle.
-/

namespace Ironcat.Lib.LinkWalk

open Lib.Forest

variable {σ ρ α : Type} {round : σ → σ ⊕ ρ} {s : σ}

def loop (round : σ → σ ⊕ ρ) : ℕ → σ → Option ρ
  | 0, _ => none
  | n+1, s =>
    match round s with
    | .inl s' => loop round n s'
    | .inr r => some r

theorem loop_inl {s' : σ} (n : ℕ) (h : round s = .inl s') : loop round (n + 1) s = loop round n s' := by
  rw [loop, h]

theorem loop_inr {r : ρ} (n : ℕ) (h : round s = .inr r) : loop round (n + 1) s = some r := by
  rw [loop, h]

theorem loop_eq_none (I : σ → Prop) (hround : ∀ s, I s → ∃ s', round s = .inl s' ∧ I s') (hs : I s)
    (n : ℕ) : loop round n s = none := by
  induction n generalizing s with
  | zero => rfl
  | succ n ih =>
    obtain ⟨s', hnext, hs'⟩ := hround s hs
    rw [loop_inl n hnext]
    exact ih hs'

def OnCycle (link : α → Option α) (a : α) : Prop := ∃ b, link a = some b ∧ Descends link b a

structure Follows (round : σ → σ ⊕ ρ) (node : σ → α) (link : α → Option α) : Prop where
  next : ∀ s s', round s = .inl s' → link (node s) = some (node s')
  stop : ∀ s r, round s = .inr r → link (node s) = none

variable {node : σ → α} {link : α → Option α}

theorem Follows.loop_eq_none (h : Follows round node link) {a : α}
    (hs : Descends link (node s) a) (ha : OnCycle link a) (n : ℕ) : loop round n s = none := by
  refine LinkWalk.loop_eq_none (fun t => Descends link (node t) a) (fun t ht => ?_) hs n
  obtain ⟨b, hb, hback⟩ : ∃ b, link (node t) = some b ∧ Descends link b a := by
    rcases descends_iff.mp ht with heq | hstep
    · rw [heq]
      exact ha
    · exact hstep
  rcases hround : round t with t' | r
  · obtain rfl := Option.some.inj (hb.symm.trans (h.next t t' hround))
    exact ⟨t', rfl, hback⟩
  · exact absurd (hb.symm.trans (h.stop t r hround)) (by simp)

theorem Follows.loop_isSome [DecidableEq α] (h : Follows round node link) {nodes : Finset α}
    (hnodes : ∀ a b, Descends link (node s) a → link a = some b → a ∈ nodes)
    (hacyclic : ∀ a, Descends link (node s) a → ¬ OnCycle link a) :
    ∃ r, loop round (nodes.card + 1) s = some r := by
  induction hcard : nodes.card generalizing nodes s with
  | zero =>
    rcases hround : round s with s' | r
    · have hmem := hnodes _ _ (Descends.refl _) (h.next s s' hround)
      rw [Finset.card_eq_zero.mp hcard] at hmem
      exact absurd hmem (Finset.notMem_empty _)
    · exact ⟨r, loop_inr 0 hround⟩
  | succ n ih =>
    rcases hround : round s with s' | r
    · have hlink := h.next s s' hround
      have hmem := hnodes _ _ (Descends.refl _) hlink
      have hleft : ∀ a b, Descends link (node s') a → link a = some b → a ∈ nodes.erase (node s) := by
        intro a b ha hab
        refine Finset.mem_erase.mpr ⟨?_, hnodes a b (Descends.head hlink ha) hab⟩
        rintro rfl
        exact hacyclic _ (Descends.refl _) ⟨_, hlink, ha⟩
      have hcount : (nodes.erase (node s)).card = n := by
        rw [Finset.card_erase_of_mem hmem, hcard, Nat.add_sub_cancel]
      rw [loop_inl _ hround]
      exact ih hleft (fun a ha => hacyclic a (Descends.head hlink ha)) hcount
    · exact ⟨r, loop_inr _ hround⟩

end Ironcat.Lib.LinkWalk
