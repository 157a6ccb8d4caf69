import Ironcat.HeaderTree

/-!
# Paths between stored headers

`get_path` returns the headers from a child of one header up to another,
`find_fork_point` a header below two others.
-/

namespace Ironcat.HeaderPaths

open Lib.Checked Types Headers HeaderTree

variable {P : Primitives} {genesis : BlockHeader} {headers : HeaderStore}
variable {path : List (Hash256 × ℕ)} {source target : Hash256} {p : StoredHeader}

inductive Ascends (headers : HeaderStore) (source : Hash256) :
    List (Hash256 × ℕ) → Hash256 → Prop
  | nil : Ascends headers source [] source
  | concat {path : List (Hash256 × ℕ)} {hash : Hash256} {s : StoredHeader}
      (hbelow : Ascends headers source path s.header.prevHash) (hget : headers.get hash = some s) :
      Ascends headers source (path ++ [(hash, s.height)]) hash

theorem pathDown_ascends {fuel : ℕ}
    (h : headers.pathDown source fuel target = .ok path) :
    Ascends headers source path.reverse target := by
  induction fuel generalizing target path with
  | zero => cases h
  | succ fuel ih =>
    by_cases heq : target = source
    · simp only [HeaderStore.pathDown, heq, if_true, pure_eq_ok] at h
      rw [← h, heq]
      exact .nil
    · simp only [HeaderStore.pathDown, heq, if_false, bind_eq_ok, okOr_eq_ok, pure_eq_ok] at h
      obtain ⟨s, hget, rest, hrest, rfl⟩ := h
      rw [List.reverse_cons]
      exact .concat (ih hrest) hget

theorem getPath_ascends (h : headers.getPath source target = .ok path) :
    Ascends headers source path target := by
  simp only [HeaderStore.getPath, bind_eq_ok, pure_eq_ok] at h
  obtain ⟨down, hdown, rfl⟩ := h
  exact pathDown_ascends hdown

theorem ascends_nil :
    Ascends headers source [] target ↔ source = target := by
  constructor
  · intro h
    generalize hl : ([] : List (Hash256 × ℕ)) = l at h
    cases h with
    | nil => rfl
    | concat => simp at hl
  · rintro rfl
    exact .nil

theorem ascends_concat {e : Hash256 × ℕ} :
    Ascends headers source (path ++ [e]) target ↔ ∃ s, headers.get target = some s ∧
      e = (target, s.height) ∧ Ascends headers source path s.header.prevHash := by
  constructor
  · intro h
    generalize hl : path ++ [e] = l at h
    cases h with
    | nil => simp at hl
    | concat hbelow hget =>
      obtain ⟨rfl, he⟩ := List.append_inj' hl rfl
      exact ⟨_, hget, List.singleton_injective he, hbelow⟩
  · rintro ⟨s, hget, rfl, hbelow⟩
    exact .concat hbelow hget

variable {path' : List (Hash256 × ℕ)}

theorem Ascends.split (h : Ascends headers source (path ++ path') target) :
    ∃ mid, Ascends headers source path mid ∧ Ascends headers mid path' target := by
  induction path' using List.reverseRecOn generalizing target with
  | nil => exact ⟨target, by simpa using h, .nil⟩
  | append_singleton path' e ih =>
    rw [← List.append_assoc, ascends_concat] at h
    obtain ⟨s, hget, rfl, hbelow⟩ := h
    obtain ⟨mid, hlow, hhigh⟩ := ih hbelow
    exact ⟨mid, hlow, .concat hhigh hget⟩

theorem Ascends.mem_byHash (h : Ascends headers source path target) {entry : Hash256 × ℕ}
    (hentry : entry ∈ path) : entry.1 ∈ headers.byHash := by
  induction h with
  | nil => cases hentry
  | concat _ hget ih =>
    rcases List.mem_append.mp hentry with hentry | hentry
    · exact ih hentry
    · rw [List.mem_singleton.mp hentry]
      exact Finmap.mem_of_lookup_eq_some hget

theorem Ascends.height (htree : Tree P genesis headers)
    (hroot : headers.get genesis.prevHash = none) (h : Ascends headers source path target)
    (hsource : headers.get source = some p) :
    ∃ s, headers.get target = some s ∧ s.height = p.height + path.length := by
  induction h with
  | nil => exact ⟨p, hsource, rfl⟩
  | @concat path hash s hbelow hget ih =>
    obtain ⟨q, hq, hqheight⟩ := ih
    have hne : hash ≠ genesis.blockHash P := by
      rintro rfl
      have hs : headers.get (genesis.blockHash P) = _ := htree.rooted.root
      obtain rfl := Option.mem_unique hget hs
      exact absurd (hroot.symm.trans hq) (by simp)
    obtain ⟨q', hq', hchild, _⟩ := htree.rooted.parent hash s hget hne
    obtain rfl := Option.mem_unique hq hq'
    refine ⟨s, hget, ?_⟩
    rw [List.length_append, List.length_singleton]
    omega

theorem Ascends.ancestor (h : Ascends headers source path target) :
    headers.ancestor path.length target = .ok source := by
  induction h with
  | nil => rfl
  | @concat path hash s hbelow hget ih =>
    rw [List.length_append, List.length_singleton]
    exact bind_eq_ok.mpr ⟨s, okOr_eq_ok.mpr hget, ih⟩

theorem Ascends.target_unique {target' : Hash256} (h : Ascends headers source path target)
    (h' : Ascends headers source path target') : target = target' := by
  rcases List.eq_nil_or_concat' path with rfl | ⟨below, e, rfl⟩
  · exact (ascends_nil.mp h).symm.trans (ascends_nil.mp h')
  · obtain ⟨_, _, he, _⟩ := ascends_concat.mp h
    obtain ⟨_, _, he', _⟩ := ascends_concat.mp h'
    exact congrArg Prod.fst (he.symm.trans he')

theorem Ascends.path_unique (h : Ascends headers source path target)
    (h' : Ascends headers source path' target) (hlen : path.length = path'.length) :
    path = path' := by
  induction h generalizing path' with
  | nil => exact (List.length_eq_zero_iff.mp hlen.symm).symm
  | @concat path hash s hbelow hget ih =>
    rcases List.eq_nil_or_concat' path' with rfl | ⟨below, e, rfl⟩
    · simp at hlen
    · obtain ⟨s', hget', rfl, hbelow'⟩ := ascends_concat.mp h'
      obtain rfl := Option.mem_unique hget hget'
      rw [ih hbelow' (by simpa using hlen)]

theorem meet_self (n : ℕ) (hash : Hash256) : headers.meet n hash hash = .ok hash := by
  cases n <;> exact if_pos rfl

theorem Ascends.findForkPoint (htree : Tree P genesis headers)
    (hroot : headers.get genesis.prevHash = none) (h : Ascends headers source path target)
    (hsource : headers.get source = some p) :
    headers.findForkPoint source target = .ok source := by
  obtain ⟨s, hs, hheight⟩ := h.height htree hroot hsource
  have hlow : headers.ancestor (p.height - s.height) source = .ok source := by
    rw [hheight, Nat.sub_add_eq, Nat.sub_self, Nat.zero_sub]
    rfl
  have hhigh : headers.ancestor (s.height - p.height) target = .ok source := by
    rw [hheight, Nat.add_sub_cancel_left]
    exact h.ancestor
  refine bind_eq_ok.mpr ⟨p, okOr_eq_ok.mpr hsource, bind_eq_ok.mpr ⟨s, okOr_eq_ok.mpr hs, ?_⟩⟩
  exact bind_eq_ok.mpr ⟨source, hlow, bind_eq_ok.mpr ⟨source, hhigh, meet_self _ _⟩⟩

end Ironcat.HeaderPaths
