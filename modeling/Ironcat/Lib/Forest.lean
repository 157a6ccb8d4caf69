import Mathlib.Tactic
import Mathlib.Logic.Relation

/-!
# Forests given by parent links

A forest is a partial function from a node to its parent. `Descends` is its
reflexive transitive closure, `reaches` the bounded walk that decides it, and a
`Ranked` forest is one whose nodes know their depth.
-/

namespace Ironcat.Lib.Forest

variable {α : Type} {parent : α → Option α} {rank : α → ℕ} {a b c : α}

def Descends (parent : α → Option α) : α → α → Prop :=
  Relation.ReflTransGen fun a b => parent a = some b

theorem Descends.refl (a : α) : Descends parent a a := Relation.ReflTransGen.refl

theorem Descends.trans (hab : Descends parent a b) (hbc : Descends parent b c) :
    Descends parent a c :=
  Relation.ReflTransGen.trans hab hbc

theorem Descends.head (hab : parent a = some b) (hbc : Descends parent b c) :
    Descends parent a c :=
  Relation.ReflTransGen.head hab hbc

theorem descends_iff :
    Descends parent a b ↔ a = b ∨ ∃ p, parent a = some p ∧ Descends parent p b := by
  constructor
  · intro h
    rcases Relation.ReflTransGen.cases_head h with rfl | ⟨p, hp, hpb⟩
    · exact .inl rfl
    · exact .inr ⟨p, hp, hpb⟩
  · rintro (rfl | ⟨p, hp, hpb⟩)
    · exact Descends.refl a
    · exact Descends.head hp hpb

theorem Descends.comparable (hab : Descends parent a b) (hac : Descends parent a c) :
    Descends parent b c ∨ Descends parent c b := by
  refine Relation.ReflTransGen.total_of_right_unique ?_ hab hac
  intro x y z hy hz
  exact Option.mem_unique hy hz

theorem Descends.le_of_monotone {f : α → ℕ} (hf : ∀ a b, parent a = some b → f b ≤ f a)
    (h : Descends parent a b) : f b ≤ f a := by
  induction h with
  | refl => exact le_rfl
  | tail _ hstep ih => exact (hf _ _ hstep).trans ih

variable {parent' : α → Option α}

theorem Descends.mono (hsub : ∀ a b, parent' a = some b → parent a = some b)
    (h : Descends parent' a b) : Descends parent a b := by
  induction h with
  | refl => exact Descends.refl a
  | tail _ hstep ih => exact ih.trans (Descends.head (hsub _ _ hstep) (Descends.refl _))

theorem descends_congr (nodes : α → Prop) (hagree : ∀ a, nodes a → parent' a = parent a)
    (hclosed : ∀ a b, nodes a → parent a = some b → nodes b) (ha : nodes a) :
    Descends parent' a b ↔ Descends parent a b := by
  constructor
  · intro h
    induction h using Relation.ReflTransGen.head_induction_on with
    | refl => exact Descends.refl b
    | head hstep _ ih =>
      rw [hagree _ ha] at hstep
      exact Descends.head hstep (ih (hclosed _ _ ha hstep))
  · intro h
    induction h using Relation.ReflTransGen.head_induction_on with
    | refl => exact Descends.refl b
    | head hstep _ ih =>
      refine Descends.head ?_ (ih (hclosed _ _ ha hstep))
      rw [hagree _ ha, hstep]

def Ranked (parent : α → Option α) (rank : α → ℕ) : Prop :=
  ∀ a b, parent a = some b → rank a = rank b + 1

def reaches [DecidableEq α] (parent : α → Option α) (anc : α) : ℕ → α → Bool
  | 0, _ => false
  | fuel+1, a =>
    if a = anc then true
    else
      match parent a with
      | some p => reaches parent anc fuel p
      | none => false

theorem reaches_iff [DecidableEq α] (hrank : Ranked parent rank) {fuel : ℕ} (hfuel : rank a < fuel) :
    reaches parent b fuel a = true ↔ Descends parent a b := by
  induction fuel generalizing a with
  | zero => omega
  | succ fuel ih =>
    rw [descends_iff, reaches]
    by_cases hab : a = b
    · simp [hab]
    · cases hp : parent a with
      | none => simp [hab]
      | some p =>
        have hlt := hrank a p hp
        simp [hab, ih (a := p) (by omega)]

theorem rank_lt_card [DecidableEq α] (hrank : Ranked parent rank) {nodes : Finset α}
    (hclosed : ∀ a ∈ nodes, ∀ b, parent a = some b → b ∈ nodes)
    (hroot : ∀ a ∈ nodes, parent a = none → rank a = 0) (ha : a ∈ nodes) :
    rank a < nodes.card := by
  suffices h : ∀ n a, a ∈ nodes → rank a = n →
      ∃ path ⊆ nodes, path.card = n + 1 ∧ ∀ b ∈ path, rank b ≤ n by
    obtain ⟨path, hsub, hcard, _⟩ := h _ a ha rfl
    have := Finset.card_le_card hsub
    omega
  intro n
  induction n with
  | zero =>
    intro a ha hzero
    exact ⟨{a}, by simpa using ha, by simp, by simp [hzero]⟩
  | succ n ih =>
    intro a ha hn
    cases hp : parent a with
    | none =>
      have := hroot a ha hp
      omega
    | some p =>
      have hpn := hrank a p hp
      obtain ⟨path, hsub, hcard, hle⟩ := ih p (hclosed a ha p hp) (by omega)
      have hnot : a ∉ path := by
        intro hmem
        have := hle a hmem
        omega
      refine ⟨insert a path, Finset.insert_subset ha hsub, ?_, ?_⟩
      · rw [Finset.card_insert_of_notMem hnot, hcard]
      · intro b hb
        rcases Finset.mem_insert.mp hb with rfl | hb
        · omega
        · exact (hle b hb).trans (Nat.le_succ n)

theorem exists_descends_rank (hrank : Ranked parent rank)
    (hroot : ∀ a, parent a = none → rank a = 0) {k : ℕ} (hk : k ≤ rank a) :
    ∃ b, Descends parent a b ∧ rank b = k := by
  induction hn : rank a - k generalizing a with
  | zero => exact ⟨a, Descends.refl a, by omega⟩
  | succ n ih =>
    cases hp : parent a with
    | none =>
      have := hroot a hp
      omega
    | some p =>
      have hstep := hrank a p hp
      obtain ⟨b, hb, hbk⟩ := ih (by omega : k ≤ rank p) (by omega)
      exact ⟨b, Descends.head hp hb, hbk⟩

theorem Descends.rank_le (hrank : Ranked parent rank) (h : Descends parent a b) : rank b ≤ rank a :=
  h.le_of_monotone fun _ _ hab => by
    rw [hrank _ _ hab]
    exact Nat.le_succ _

theorem Descends.eq_of_rank_le (hrank : Ranked parent rank) (h : Descends parent a b)
    (hle : rank a ≤ rank b) : a = b := by
  rcases descends_iff.mp h with rfl | ⟨p, hp, hpb⟩
  · rfl
  · have hstep := hrank a p hp
    have hbelow := hpb.rank_le hrank
    omega

/-- The common ancestor of two nodes that lies above all others. -/
structure IsMeet (parent : α → Option α) (a b m : α) : Prop where
  left : Descends parent a m
  right : Descends parent b m
  highest : ∀ c, Descends parent a c → Descends parent b c → Descends parent m c

theorem isMeet_self (a : α) : IsMeet parent a a a :=
  ⟨Descends.refl a, Descends.refl a, fun _ hc _ => hc⟩

theorem IsMeet.symm {m : α} (h : IsMeet parent a b m) : IsMeet parent b a m :=
  ⟨h.right, h.left, fun c hb ha => h.highest c ha hb⟩

theorem IsMeet.of_descends {a' m : α} (hrank : Ranked parent rank) (ha : Descends parent a a')
    (hle : ∀ c, Descends parent a c → Descends parent b c → rank c ≤ rank a')
    (h : IsMeet parent a' b m) : IsMeet parent a b m := by
  refine ⟨ha.trans h.left, h.right, fun c hac hbc => h.highest c ?_ hbc⟩
  rcases ha.comparable hac with hdown | hup
  · exact hdown
  · rw [hup.eq_of_rank_le hrank (hle c hac hbc)]
    exact Descends.refl _

theorem IsMeet.of_parents {p q m : α} (hrank : Ranked parent rank) (heq : rank a = rank b)
    (hne : a ≠ b) (ha : parent a = some p) (hb : parent b = some q) (h : IsMeet parent p q m) :
    IsMeet parent a b m := by
  refine ⟨Descends.head ha h.left, Descends.head hb h.right, fun c hac hbc => ?_⟩
  have hca : c ≠ a := by
    rintro rfl
    exact hne (hbc.eq_of_rank_le hrank heq.ge).symm
  have hcb : c ≠ b := by
    rintro rfl
    exact hne (hac.eq_of_rank_le hrank heq.le)
  rcases descends_iff.mp hac with rfl | ⟨p', hp', hpc⟩
  · exact absurd rfl hca
  · rcases descends_iff.mp hbc with rfl | ⟨q', hq', hqc⟩
    · exact absurd rfl hcb
    · obtain rfl := Option.mem_unique ha hp'
      obtain rfl := Option.mem_unique hb hq'
      exact h.highest c hpc hqc

end Ironcat.Lib.Forest
