import Mathlib.Tactic

/-!
# Positions in a stream of frames

A list of frames is sent as the concatenation of their encodings. A position in
the stream splits it into the frames that are complete there, the frames still
to come, and the number of elements already seen of the first of these.
-/

namespace Ironcat.Lib.Framing

variable {F α : Type} (encode : F → List α)

def wire (fs : List F) : List α := fs.flatMap encode

def intoFrame : List F → ℕ → ℕ
  | [], n => n
  | f :: fs, n =>
    if n < (encode f).length then n else intoFrame fs (n - (encode f).length)

def complete : List F → ℕ → List F
  | [], _ => []
  | f :: fs, n =>
    if n < (encode f).length then [] else f :: complete fs (n - (encode f).length)

def coming : List F → ℕ → List F
  | [], _ => []
  | f :: fs, n =>
    if n < (encode f).length then f :: fs else coming fs (n - (encode f).length)

def cuts : ℕ → List (List α) → List ℕ
  | _, [] => []
  | n, c :: cs => (n + c.length) :: cuts (n + c.length) cs

section
variable {encode}

@[simp] theorem wire_nil : wire encode [] = [] := rfl

@[simp] theorem wire_cons (f : F) (fs : List F) :
    wire encode (f :: fs) = encode f ++ wire encode fs := rfl

end

theorem complete_append_coming (fs : List F) (n : ℕ) :
    complete encode fs n ++ coming encode fs n = fs := by
  induction fs generalizing n with
  | nil => rfl
  | cons f fs ih =>
    unfold complete coming
    split_ifs with h
    · rfl
    · rw [List.cons_append, ih]

theorem length_wire_complete (fs : List F) (n : ℕ) :
    (wire encode (complete encode fs n)).length + intoFrame encode fs n = n := by
  induction fs generalizing n with
  | nil => simp [complete, intoFrame]
  | cons f fs ih =>
    unfold complete intoFrame
    split_ifs with h
    · simp
    · rw [wire_cons, List.length_append, Nat.add_assoc, ih]
      omega

theorem wire_split (fs : List F) (n : ℕ) :
    wire encode fs = wire encode (complete encode fs n) ++ wire encode (coming encode fs n) := by
  rw [wire, wire, wire, ← List.flatMap_append, complete_append_coming]

theorem take_wire (fs : List F) (n : ℕ) :
    (wire encode fs).take n = wire encode (complete encode fs n) ++
      (wire encode (coming encode fs n)).take (intoFrame encode fs n) := by
  calc (wire encode fs).take n
      = (wire encode (complete encode fs n) ++ wire encode (coming encode fs n)).take
          ((wire encode (complete encode fs n)).length + intoFrame encode fs n) := by
        rw [← wire_split, length_wire_complete]
    _ = _ := List.take_length_add_append _

variable {encode} in
theorem intoFrame_le {fs : List F} {n : ℕ} (hn : n ≤ (wire encode fs).length) :
    intoFrame encode fs n ≤ (wire encode (coming encode fs n)).length := by
  have hlen := length_wire_complete encode fs n
  have hsplit := congrArg List.length (wire_split encode fs n)
  rw [List.length_append] at hsplit
  omega

theorem drop_wire (fs : List F) (n : ℕ) :
    (wire encode fs).drop n = (wire encode (coming encode fs n)).drop (intoFrame encode fs n) := by
  induction fs generalizing n with
  | nil => simp [coming, intoFrame]
  | cons f fs ih =>
    unfold coming intoFrame
    split_ifs with h
    · rfl
    · rw [← ih, wire_cons, List.drop_append, List.drop_eq_nil_of_le (by omega), List.nil_append]

theorem split_add (fs : List F) (n k : ℕ) :
    coming encode fs (n + k) = coming encode (coming encode fs n) (intoFrame encode fs n + k) ∧
      intoFrame encode fs (n + k) =
        intoFrame encode (coming encode fs n) (intoFrame encode fs n + k) := by
  induction fs generalizing n with
  | nil => simp [coming, intoFrame]
  | cons f fs ih =>
    by_cases h : n < (encode f).length
    · simp only [coming, intoFrame, if_pos h]
      exact ⟨trivial, trivial⟩
    · have hk : ¬ n + k < (encode f).length := by omega
      have hsub : n + k - (encode f).length = n - (encode f).length + k := by omega
      simp only [coming, intoFrame, if_neg h, if_neg hk, hsub]
      exact ih _

theorem intoFrame_zero (fs : List F) : intoFrame encode fs 0 = 0 := by
  have hlen := length_wire_complete encode fs 0
  omega

theorem coming_zero {fs : List F} (hne : ∀ f ∈ fs, 0 < (encode f).length) :
    coming encode fs 0 = fs := by
  cases fs with
  | nil => rfl
  | cons f fs => rw [coming, if_pos (hne f List.mem_cons_self)]

theorem coming_length_wire (fs : List F) : coming encode fs (wire encode fs).length = [] := by
  induction fs with
  | nil => rfl
  | cons f fs ih =>
    rw [coming, wire_cons, List.length_append, if_neg (by omega), Nat.add_sub_cancel_left]
    exact ih

def pieces (size : ℕ) : ℕ → List α → List (List α)
  | 0, l => [l]
  | k+1, l => l.take size :: pieces size k (l.drop size)

theorem flatten_pieces (size k : ℕ) (l : List α) : (pieces size k l).flatten = l := by
  induction k generalizing l with
  | zero => simp [pieces]
  | succ k ih => rw [pieces, List.flatten_cons, ih, List.take_append_drop]

theorem length_of_mem_pieces {size k : ℕ} {l c : List α} (hc : c ∈ pieces size k l) (hsize : 0 < size)
    (hlow : k * size < l.length) (hhigh : l.length ≤ (k + 1) * size) :
    0 < c.length ∧ c.length ≤ size := by
  induction k generalizing l with
  | zero =>
    obtain rfl := List.mem_singleton.mp hc
    omega
  | succ k ih =>
    have hk : (k + 1) * size = k * size + size := Nat.succ_mul k size
    have hk2 : (k + 1 + 1) * size = k * size + size + size := by rw [Nat.succ_mul, hk]
    rcases List.mem_cons.mp hc with rfl | hc
    · rw [List.length_take]
      omega
    · refine ih hc ?_ ?_ <;> rw [List.length_drop] <;> omega

theorem mem_cuts_pieces {size k : ℕ} {l : List α} (hlow : (k + 1) * size ≤ l.length) (n : ℕ) :
    n + (k + 1) * size ∈ cuts n (pieces size (k + 1) l) := by
  induction k generalizing l n with
  | zero =>
    rw [pieces, cuts, List.length_take, Nat.min_eq_left (by omega), Nat.one_mul]
    exact List.mem_cons_self
  | succ k ih =>
    have hk : (k + 1 + 1) * size = size + (k + 1) * size := by rw [Nat.succ_mul, Nat.add_comm]
    rw [pieces, cuts, List.length_take, Nat.min_eq_left (by omega), hk, ← Nat.add_assoc]
    exact List.mem_cons_of_mem _ (ih (by rw [List.length_drop]; omega) (n + size))

end Ironcat.Lib.Framing
