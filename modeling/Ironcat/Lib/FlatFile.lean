import Ironcat.Lib.Checked
import Ironcat.Lib.FiniteMap

/-!
# Append-only files behind an index

Entries are appended to numbered files. The writer keeps its own count of the
bytes in the file it appends to, and an index records where each entry was
put. A write may fail after any part of its bytes. `Backed` says that what was
handed in stands where the index and the entries waiting for it point; it lasts
as long as every completed write finds its file as long as the writer counts.
-/

namespace Ironcat.Lib.FlatFile

open Lib.Checked Lib.FiniteMap

variable {α : Type}

structure Log (α : Type) where
  limit : ℕ
  files : Map ℕ (List α)
  number : ℕ
  offset : ℕ

inductive Fault
  | openNext
  | write (written : ℕ)
deriving DecidableEq, Repr

inductive WriteError
  | numberOverflow
  | openFailed
  | writeFailed
deriving DecidableEq, Repr

def content (files : Map ℕ (List α)) (n : ℕ) : List α := (files.lookup n).getD []

namespace Log

def Full (l : Log α) (size : ℕ) : Prop := 0 < l.offset ∧ l.limit < l.offset + size

instance (l : Log α) (size : ℕ) : Decidable (l.Full size) :=
  inferInstanceAs (Decidable (_ ∧ _))

def rotate (l : Log α) (lastNumber size : ℕ) (fault : Option Fault) :
    Except WriteError (Log α) :=
  if l.Full size then do
    ensure (l.number + 1 ≤ lastNumber) .numberOverflow
    ensure (fault ≠ some .openNext) .openFailed
    return { l with
      files := l.files.insert (l.number + 1) (content l.files (l.number + 1))
      number := l.number + 1
      offset := 0 }
  else
    return l

def append (l : Log α) (bytes : List α) : Log α :=
  { l with files := l.files.insert l.number (content l.files l.number ++ bytes) }

def write (l : Log α) (lastNumber : ℕ) (entry : List α) (fault : Option Fault) :
    Except WriteError (ℕ × ℕ) × Log α :=
  match l.rotate lastNumber entry.length fault with
  | .error e => (.error e, l)
  | .ok l' =>
    match fault with
    | some (.write written) => (.error .writeFailed, l'.append (entry.take written))
    | _ => (.ok (l'.number, l'.offset),
        { l'.append entry with offset := l'.offset + entry.length })

/-- The file the next entry of this size goes to is as long as the writer
counts. -/
def Ready (l : Log α) (size : ℕ) : Prop :=
  if l.Full size then content l.files (l.number + 1) = []
  else l.offset = (content l.files l.number).length

instance [DecidableEq α] (l : Log α) (size : ℕ) : Decidable (l.Ready size) :=
  inferInstanceAs (Decidable (if l.Full size then content l.files (l.number + 1) = []
    else l.offset = (content l.files l.number).length))

end Log

def Grows (files files' : Map ℕ (List α)) : Prop := ∀ n, content files n <+: content files' n

theorem Grows.refl (files : Map ℕ (List α)) : Grows files files := fun _ => List.prefix_refl _

theorem Grows.trans {f g h : Map ℕ (List α)} (hfg : Grows f g) (hgh : Grows g h) : Grows f h :=
  fun n => (hfg n).trans (hgh n)

theorem content_insert (files : Map ℕ (List α)) (n m : ℕ) (file : List α) :
    content (files.insert n file) m = if m = n then file else content files m := by
  rw [content, lookup_insert_eq]
  split_ifs <;> rfl

theorem grows_insert {files : Map ℕ (List α)} {n : ℕ} {file : List α}
    (h : content files n <+: file) : Grows files (files.insert n file) := by
  intro m
  rw [content_insert]
  split_ifs with hm
  · rwa [hm]
  · exact List.prefix_refl _

variable {lastNumber : ℕ} {fault : Option Fault} {l l' : Log α}

namespace Log

theorem append_grows (l : Log α) (bytes : List α) : Grows l.files (l.append bytes).files :=
  grows_insert (List.prefix_append _ _)

variable {size : ℕ}

theorem rotate_eq_ok (h : l.rotate lastNumber size fault = .ok l') :
    (l.Full size ∧ l' = { l with
        files := l.files.insert (l.number + 1) (content l.files (l.number + 1))
        number := l.number + 1
        offset := 0 }) ∨ (¬ l.Full size ∧ l' = l) := by
  unfold rotate at h
  split_ifs at h with hfull
  · obtain ⟨_, -, h⟩ := bind_eq_ok.mp h
    obtain ⟨_, -, h⟩ := bind_eq_ok.mp h
    exact Or.inl ⟨hfull, (pure_eq_ok.mp h).symm⟩
  · exact Or.inr ⟨hfull, (pure_eq_ok.mp h).symm⟩

theorem rotate_grows (h : l.rotate lastNumber size fault = .ok l') : Grows l.files l'.files := by
  rcases rotate_eq_ok h with ⟨-, rfl⟩ | ⟨-, rfl⟩
  · exact grows_insert (List.prefix_refl _)
  · exact Grows.refl _

theorem rotate_limit (h : l.rotate lastNumber size fault = .ok l') : l'.limit = l.limit := by
  rcases rotate_eq_ok h with ⟨-, rfl⟩ | ⟨-, rfl⟩ <;> rfl

theorem write_grows (l : Log α) (lastNumber : ℕ) (entry : List α) (fault : Option Fault) :
    Grows l.files (l.write lastNumber entry fault).2.files := by
  unfold write
  split
  · exact Grows.refl _
  · rename_i l' hrot
    split
    · exact (rotate_grows hrot).trans (append_grows l' _)
    · exact (rotate_grows hrot).trans (append_grows l' _)

theorem write_limit (l : Log α) (lastNumber : ℕ) (entry : List α) (fault : Option Fault) :
    (l.write lastNumber entry fault).2.limit = l.limit := by
  unfold write
  split
  · rfl
  · rename_i l' hrot
    have hlimit := rotate_limit hrot
    split <;> exact hlimit

theorem write_isOk {entry : List α} (h : l.Full entry.length → l.number + 1 ≤ lastNumber) :
    ∃ p l', l.write lastNumber entry none = (.ok p, l') := by
  have hrot : ∃ r, l.rotate lastNumber entry.length none = .ok r := by
    unfold rotate
    split_ifs with hfull
    · exact ⟨_, bind_eq_ok.mpr ⟨(), ensure_eq_ok.mpr (h hfull),
        bind_eq_ok.mpr ⟨(), ensure_eq_ok.mpr (by simp), rfl⟩⟩⟩
    · exact ⟨l, rfl⟩
  obtain ⟨r, hr⟩ := hrot
  unfold write
  rw [hr]
  exact ⟨_, _, rfl⟩

theorem write_eq_ok {n o : ℕ} {entry : List α} (hready : l.Ready entry.length)
    (h : l.write lastNumber entry fault = (.ok (n, o), l')) :
    (∃ before, content l'.files n = before ++ entry ∧ before.length = o) ∧
      (o = 0 ∨ o + entry.length ≤ l.limit) := by
  unfold write at h
  split at h
  · cases h
  · rename_i r hrot
    have hcount : r.offset = (content r.files r.number).length ∧
        (r.offset = 0 ∨ r.offset + entry.length ≤ l.limit) := by
      rcases rotate_eq_ok hrot with ⟨hfull, rfl⟩ | ⟨hfull, rfl⟩
      · rw [Ready, if_pos hfull] at hready
        rw [content_insert, if_pos rfl, hready]
        exact ⟨rfl, Or.inl rfl⟩
      · rw [Ready, if_neg hfull] at hready
        unfold Full at hfull
        exact ⟨hready, by omega⟩
    split at h
    · cases h
    · cases h
      refine ⟨⟨content r.files r.number, ?_, hcount.1.symm⟩, hcount.2⟩
      change content (r.append entry).files r.number = _
      rw [append, content_insert, if_pos rfl]

end Log

structure Place where
  number : ℕ
  offset : ℕ
  size : ℕ
deriving DecidableEq, Repr

def HoldsAt (skip : ℕ) (files : Map ℕ (List α)) (p : Place) (raw : List α) : Prop :=
  ∃ before after, content files p.number = before ++ raw ++ after ∧
    before.length = p.offset + skip ∧ p.size = raw.length

variable {raw : List α} {p : Place}

theorem HoldsAt.grows {skip : ℕ} {files files' : Map ℕ (List α)} (h : HoldsAt skip files p raw)
    (hgrow : Grows files files') : HoldsAt skip files' p raw := by
  obtain ⟨before, after, hfile, hlen, hsize⟩ := h
  obtain ⟨more, hmore⟩ := hgrow p.number
  exact ⟨before, after ++ more, by rw [← hmore, hfile, List.append_assoc], hlen, hsize⟩

theorem HoldsAt.read {skip : ℕ} {files : Map ℕ (List α)} (h : HoldsAt skip files p raw) :
    p.size = raw.length ∧
      ∃ after, (content files p.number).drop (p.offset + skip) = raw ++ after := by
  obtain ⟨before, after, hfile, hlen, hsize⟩ := h
  exact ⟨hsize, after, by rw [hfile, List.append_assoc, List.drop_left' hlen]⟩

theorem HoldsAt.lookup {skip : ℕ} {files : Map ℕ (List α)} (h : HoldsAt skip files p raw)
    (hskip : 0 < skip) : files.lookup p.number = some (content files p.number) := by
  obtain ⟨before, after, hfile, hlen, -⟩ := h
  cases hlook : files.lookup p.number with
  | some file => rw [content, hlook]; rfl
  | none =>
    have hempty : content files p.number = [] := by rw [content, hlook]; rfl
    rw [hempty, List.append_assoc, eq_comm, List.append_eq_nil_iff] at hfile
    rw [hfile.1, List.length_nil] at hlen
    omega

theorem Log.write_holds {n o bound : ℕ} {header : List α} (hlimit : l.limit < bound)
    (hraw : raw.length < bound) (hready : l.Ready (header ++ raw).length)
    (h : l.write lastNumber (header ++ raw) fault = (.ok (n, o), l')) :
    HoldsAt header.length l'.files ⟨n, o % bound, raw.length % bound⟩ raw := by
  obtain ⟨⟨before, hfile, hlen⟩, hroom⟩ := Log.write_eq_ok hready h
  have hoffset : o % bound = o := Nat.mod_eq_of_lt (by omega)
  refine ⟨before ++ header, [], ?_, ?_, Nat.mod_eq_of_lt hraw⟩
  · rw [hfile, List.append_nil, List.append_assoc]
  · rw [List.length_append, hlen, hoffset]

/-! ## Checking an index against the files

The files have to reach the end of every entry the index points at. -/

def raise (skip : ℕ) (sizes : Map ℕ ℕ) (p : Place) : Map ℕ ℕ :=
  sizes.insert p.number (max ((sizes.lookup p.number).getD 0) (p.offset + skip + p.size))

instance (skip : ℕ) : RightCommutative (raise skip) where
  right_comm sizes p q := by
    obtain ⟨n, po, ps⟩ := p
    obtain ⟨m, qo, qs⟩ := q
    refine Finmap.ext_lookup fun x => ?_
    simp only [raise, lookup_insert_eq]
    obtain rfl | hne := eq_or_ne n m
    · simp only [if_true, Option.getD_some, max_right_comm]
      split_ifs <;> rfl
    · simp only [if_neg hne, if_neg hne.symm]
      by_cases hx : x = n
      · simp [hx, hne]
      · simp [hx]

def expectedSizes (skip : ℕ) (places : Multiset Place) : Map ℕ ℕ := places.foldl (raise skip) ∅

def verify (skip : ℕ) (files : Map ℕ (List α)) (places : Multiset Place) : Option ℕ :=
  let sizes := expectedSizes skip places
  if 0 < sizes.entries.countP fun e => (content files e.1).length < e.2 then none
  else some (sizes.keys.sup id)

/-! ## The ledger

`queued` lists what was handed in and not yet committed, `committed` what the
last commit of each key handed in. -/

structure Deposits (κ V : Type) where
  committed : Map κ V
  queued : List (κ × V)

section Backed
variable {κ L V : Type} [DecidableEq κ]

namespace Deposits

def empty : Deposits κ V := ⟨∅, []⟩

omit [DecidableEq κ] in
def push (g : Deposits κ V) (k : κ) (v : V) : Deposits κ V := { g with queued := g.queued ++ [(k, v)] }

def commit (g : Deposits κ V) : Deposits κ V := ⟨insertAll g.committed g.queued, []⟩

omit [DecidableEq κ] in
def drop (g : Deposits κ V) : Deposits κ V := { g with queued := [] }

end Deposits

/-! `R files l v` says that the files hold `v` at the location `l`. -/
variable (R : Map ℕ (List α) → L → V → Prop)

def Indexed (files : Map ℕ (List α)) (index : Map κ L) (committed : Map κ V) : Prop :=
  ∀ k v, committed.lookup k = some v → ∃ l, index.lookup k = some l ∧ R files l v

def Waiting (files : Map ℕ (List α)) : List (κ × L) → List (κ × V) → Prop :=
  List.Forall₂ fun e q => e.1 = q.1 ∧ R files e.2 q.2

structure Backed (files : Map ℕ (List α)) (index : Map κ L) (pending : List (κ × L))
    (g : Deposits κ V) : Prop where
  indexed : Indexed R files index g.committed
  waiting : Waiting R files pending g.queued

variable {R}
variable {files files' : Map ℕ (List α)} {index : Map κ L} {pending : List (κ × L)}
  {g : Deposits κ V}

theorem Indexed.insert {committed : Map κ V} (h : Indexed R files index committed) {k : κ} {l : L}
    {v : V} (hv : R files l v) : Indexed R files (index.insert k l) (committed.insert k v) := by
  intro x w hx
  rw [lookup_insert_eq] at hx
  rw [lookup_insert_eq]
  split_ifs at hx ⊢ with hk
  · cases hx
    exact ⟨l, rfl, hv⟩
  · exact h x w hx

theorem Indexed.insertAll {queued : List (κ × V)} (hw : Waiting R files pending queued) :
    ∀ {index : Map κ L} {committed : Map κ V}, Indexed R files index committed →
      Indexed R files (insertAll index pending) (insertAll committed queued) := by
  induction hw with
  | nil => exact fun h => h
  | @cons e q pending queued hhead _ ih =>
    intro index committed h
    rw [insertAll_cons, insertAll_cons, ← hhead.1]
    exact ih (h.insert hhead.2)

namespace Backed

theorem start (files : Map ℕ (List α)) :
    Backed R files (∅ : Map κ L) [] (Deposits.empty : Deposits κ V) :=
  ⟨(fun _ _ h => nomatch h), .nil⟩

theorem mono (h : Backed R files index pending g) (hR : ∀ l v, R files l v → R files' l v) :
    Backed R files' index pending g where
  indexed := fun k v hv => by
    obtain ⟨l, hl, hold⟩ := h.indexed k v hv
    exact ⟨l, hl, hR l v hold⟩
  waiting := h.waiting.imp fun _ _ hq => ⟨hq.1, hR _ _ hq.2⟩

theorem push (h : Backed R files index pending g) (k : κ) {l : L} {v : V} (hv : R files l v) :
    Backed R files index (pending ++ [(k, l)]) (g.push k v) :=
  ⟨h.indexed, List.rel_append h.waiting (.cons ⟨rfl, hv⟩ .nil)⟩

theorem commit (h : Backed R files index pending g) :
    Backed R files (insertAll index pending) [] g.commit :=
  ⟨h.indexed.insertAll h.waiting, .nil⟩

theorem drop (h : Backed R files index pending g) : Backed R files index [] g.drop :=
  ⟨h.indexed, .nil⟩

end Backed
end Backed

end Ironcat.Lib.FlatFile
