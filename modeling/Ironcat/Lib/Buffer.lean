import Mathlib.Tactic

/-!
# Loops over fixed buffers

A loop that updates the entries of a buffer in turn, and copying a slice into a
buffer, with the buffer they leave.
-/

namespace Ironcat.Lib.Buffer

variable {α β : Type} {n : ℕ}

theorem foldl_invariant {l : List β} {step : α → β → α} (inv : ℕ → α → Prop) {a : α} (hstart : inv 0 a)
    (hstep : ∀ (k : ℕ) (hk : k < l.length) (a : α), inv k a → inv (k + 1) (step a l[k])) :
    inv l.length (l.foldl step a) := by
  induction l using List.reverseRecOn with
  | nil => exact hstart
  | append_singleton l b ih =>
    have hturn := hstep l.length (by simp) (l.foldl step a) (ih fun k hk a ha => ?_)
    · simpa using hturn
    · have hk' : k < (l ++ [b]).length := by simp; omega
      simpa [List.getElem_append_left hk] using hstep k hk' a ha

def updateEach (indices : List (Fin n)) (f : Fin n → α → α) (v : Vector α n) : Vector α n :=
  indices.foldl (fun v (i : Fin n) => v.set i (f i v[i]) i.isLt) v

theorem getElem_updateEach {indices : List (Fin n)} (h : indices.Nodup) (f : Fin n → α → α)
    (v : Vector α n) (i : Fin n) :
    (updateEach indices f v)[i] = if i ∈ indices then f i v[i] else v[i] := by
  induction indices generalizing v with
  | nil => simp [updateEach]
  | cons j indices ih =>
    obtain ⟨hj, hnodup⟩ := List.nodup_cons.mp h
    change (updateEach indices f (v.set j (f j v[j]) j.isLt))[i] = _
    rw [ih hnodup]
    by_cases hij : i = j
    · subst hij
      simp [hj]
    · simp [hij, Vector.getElem_set_ne, Fin.val_ne_of_ne (Ne.symm hij)]

variable {k : ℕ}

theorem mem_take_finRange (i : Fin n) : i ∈ (List.finRange n).take k ↔ i.val < k := by
  rw [List.mem_take_iff_getElem]
  constructor
  · rintro ⟨j, hj, rfl⟩
    simp at hj ⊢
    omega
  · intro hi
    exact ⟨i.val, by simp [hi], by simp⟩

variable {v : Vector α n}

theorem updateEach_take {f : Fin n → α → α} (h : ∀ i : Fin n, k ≤ i.val → f i v[i] = v[i]) :
    updateEach ((List.finRange n).take k) f v = updateEach (List.finRange n) f v := by
  have hnodup := (List.nodup_finRange n).sublist (List.take_sublist k _)
  apply Vector.ext
  intro i hi
  have hpart := getElem_updateEach hnodup f v ⟨i, hi⟩
  have hall := getElem_updateEach (List.nodup_finRange n) f v ⟨i, hi⟩
  simp only [mem_take_finRange, List.mem_finRange, if_true] at hpart hall
  refine hpart.trans (Eq.trans ?_ hall.symm)
  split_ifs with hik
  · rfl
  · exact (h ⟨i, hi⟩ (Nat.le_of_not_lt hik)).symm

theorem toList_updateEach (f : Fin n → α → α) (v : Vector α n) :
    (updateEach (List.finRange n) f v).toList = List.ofFn fun i => f i v[i] := by
  apply List.ext_getElem
  · simp
  · intro i hi hi'
    have hlt : i < n := by simpa using hi
    have hentry := getElem_updateEach (List.nodup_finRange n) f v ⟨i, hlt⟩
    simpa using hentry

theorem toList_updateEach_zipWith (f : α → β → α) (v : Vector α n) (w : Vector β n) :
    (updateEach (List.finRange n) (fun i a => f a w[i]) v).toList =
      List.zipWith f v.toList w.toList := by
  rw [toList_updateEach]
  apply List.ext_getElem
  · simp
  · intro i hi hi'
    simp

/-- `dst[start..start + src.len()].copy_from_slice(src)` -/
def copyFromSlice (dst : Vector α n) (start : ℕ) (src : List α) : Vector α n :=
  Vector.ofFn fun i => if start ≤ i then src.getD (i - start) dst[i] else dst[i]

theorem toList_copyFromSlice {start : ℕ} {src : List α} (h : start + src.length ≤ n)
    (dst : Vector α n) : (copyFromSlice dst start src).toList =
      dst.toList.take start ++ src ++ dst.toList.drop (start + src.length) := by
  apply List.ext_getElem
  · simp
    omega
  · intro i hi hi'
    have hlt : i < n := by simpa using hi
    have htake : (dst.toList.take start).length = start := by
      simp
      omega
    simp only [copyFromSlice, Vector.getElem_toList, Vector.getElem_ofFn, List.getElem_append,
      List.length_append, htake, List.getElem_take, List.getElem_drop]
    grind

theorem toList_copyFromSlice_next {done src rest : List α} (hv : v.toList = done ++ rest)
    (h : done.length + src.length ≤ n) :
    (copyFromSlice v done.length src).toList = done ++ src ++ rest.drop src.length := by
  rw [toList_copyFromSlice h, hv, List.take_left, ← List.drop_drop, List.drop_left]

theorem length_flatten_of_forall {l : List (List α)} (h : ∀ x ∈ l, x.length = k) :
    l.flatten.length = l.length * k := by
  have hsum := List.sum_eq_card_nsmul (l.map List.length) k (by simpa using h)
  rw [List.length_flatten, hsum, List.length_map, smul_eq_mul]

theorem toList_copyFromSlice_take {done rest : List α} (piece : List α)
    (hv : v.toList = done ++ rest) (hdone : done.length ≤ n) :
    (copyFromSlice v done.length (piece.take (n - done.length))).toList =
      (done ++ piece).take n ++ rest.drop piece.length := by
  have hlen : done.length + rest.length = n := by
    rw [← List.length_append, ← hv, Vector.length_toList]
  have hpiece : (piece.take (n - done.length)).length = min (n - done.length) piece.length :=
    List.length_take
  have hrest : rest.drop (min (n - done.length) piece.length) = rest.drop piece.length := by
    by_cases hp : piece.length ≤ n - done.length
    · rw [min_eq_right hp]
    · rw [List.drop_of_length_le (by omega), List.drop_of_length_le (by omega)]
  rw [toList_copyFromSlice_next hv (by omega), List.take_append, List.take_of_length_le hdone, hpiece,
    hrest]

theorem toList_foldl_copyFromSlice {l : List β} {m : ℕ} (hm : l.length = m) {f : Fin m → List α}
    (hf : ∀ i, (f i).length = k) (hfit : ∀ i < m, i * k ≤ n) {step : Vector α n → β → Vector α n}
    (hstep : ∀ (i : ℕ) (hi : i < l.length) (hi' : i < m) (v : Vector α n),
      step v l[i] = copyFromSlice v (i * k) ((f ⟨i, hi'⟩).take (n - i * k))) (v : Vector α n) :
    (l.foldl step v).toList = (List.ofFn f).flatten.take n ++ v.toList.drop (m * k) := by
  -- after `i` turns the first `i` pieces are there
  let inv (i : ℕ) (s : Vector α n) : Prop :=
    s.toList = ((List.ofFn f).take i).flatten.take n ++ v.toList.drop (i * k)
  have hloop : inv l.length (l.foldl step v) := by
    refine foldl_invariant inv (by simp [inv]) fun i hi s hs => ?_
    have hi' : i < m := hm ▸ hi
    have hlen : ((List.ofFn f).take i).flatten.length = i * k := by
      rw [length_flatten_of_forall (k := k), List.length_take_of_le (by simpa using hi'.le)]
      intro x hx
      obtain ⟨j, rfl⟩ := List.mem_ofFn.mp (List.mem_of_mem_take hx)
      exact hf j
    have htake : (List.ofFn f).take (i + 1) = (List.ofFn f).take i ++ [f ⟨i, hi'⟩] := by
      rw [List.take_succ_eq_append_getElem (by simpa using hi')]
      simp
    simp only [inv, List.take_of_length_le (hlen.trans_le (hfit i hi'))] at hs
    have hnext := toList_copyFromSlice_take (f ⟨i, hi'⟩) hs (hlen.trans_le (hfit i hi'))
    rw [hlen, ← hstep i hi hi', List.drop_drop, hf, ← Nat.succ_mul] at hnext
    simpa [inv, htake] using hnext
  simp only [inv, hm] at hloop
  rw [hloop, List.take_of_length_le (i := m) (by simp)]

theorem toList_eq_ofFn (v : Vector α n) : v.toList = List.ofFn fun i : Fin n => v[i] := by
  apply List.ext_getElem
  · simp
  · intro i hi hi'
    simp

theorem chunk_lt {m : ℕ} (hn : n = m * k) (i : Fin m) (j : Fin k) : i.val * k + j.val < n := by
  rw [hn]
  have := Nat.mul_le_mul_right k i.isLt
  have := j.isLt
  linarith

theorem flatten_chunks {m : ℕ} (hn : n = m * k) (v : Vector α n) :
    (List.ofFn fun i : Fin m => List.ofFn fun j : Fin k =>
      v.get ⟨i.val * k + j.val, chunk_lt hn i j⟩).flatten = v.toList := by
  subst hn
  rw [← List.ofFn_mul fun p => v.get p, toList_eq_ofFn]
  rfl

end Ironcat.Lib.Buffer
