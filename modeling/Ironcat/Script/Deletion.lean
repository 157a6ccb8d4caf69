import Ironcat.Script.Walkers

/-!
# What FindAndDelete deletes

`find_and_delete` compares raw bytes at every position. Where no push encoding
of the data lies across or inside another instruction, it deletes the
instructions that push the data and nothing else. Otherwise it leaves fewer bytes,
unless the encoding that it meets first overlaps a push of the data.
-/

namespace Ironcat.Script

open Lib.ByteCodec SignatureHash

def pushedData : Bytes → Option Bytes
  | [] => none
  | op :: rest =>
    match Opcode.ofByte op with
    | .op0 => some []
    | .pushBytes _ => some rest
    | .pushData1 => some (rest.drop 1)
    | .pushData2 => some (rest.drop 2)
    | .pushData4 => some (rest.drop 4)
    | .op1Negate => some [0x81]
    | .opN n => some [n]
    | _ => none

/-- The instructions that do not push the data, in order. -/
def withoutPushes (script data : Bytes) : Bytes :=
  ((instructions script).filter fun i => pushedData i ≠ some data).flatten

section Scan

variable {patterns : List Bytes} {s tail : Bytes}

theorem matchesAt_iff {rest pattern : Bytes} : matchesAt rest pattern ↔ pattern <+: rest := by
  simp only [matchesAt, decide_eq_true_eq]
  constructor
  · rintro ⟨-, htake⟩
    exact htake ▸ List.take_prefix _ _
  · intro h
    exact ⟨h.length_le, List.prefix_iff_eq_take.mp h ▸ rfl⟩

theorem deleteLoop_nil (fuel : ℕ) : deleteLoop patterns fuel [] = [] := by
  cases fuel <;> rfl

theorem deleteLoop_copy {fuel : ℕ} (h : ∀ k < s.length, ∀ p ∈ patterns, ¬ p <+: s.drop k ++ tail) :
    deleteLoop patterns (s.length + fuel) (s ++ tail) = s ++ deleteLoop patterns fuel tail := by
  induction s with
  | nil => rw [List.length_nil, Nat.zero_add, List.nil_append, List.nil_append]
  | cons b s ih =>
    have hnone : patterns.find? (matchesAt (b :: (s ++ tail))) = none := by
      rw [List.find?_eq_none]
      intro p hp hmatch
      exact h 0 (Nat.succ_pos _) p hp (matchesAt_iff.mp hmatch)
    have hrest := ih fun k hk p hp => h (k + 1) (Nat.succ_lt_succ hk) p hp
    rw [List.length_cons, Nat.add_right_comm, List.cons_append, deleteLoop, hnone]
    exact congrArg (b :: ·) hrest

theorem deleteLoop_delete {fuel : ℕ} {p : Bytes} (hp : p ∈ patterns) (hne : p ≠ [])
    (hunique : ∀ q ∈ patterns, q <+: p ++ tail → q = p) :
    deleteLoop patterns (fuel + 1) (p ++ tail) = deleteLoop patterns fuel tail := by
  obtain ⟨b, rest, rfl⟩ := List.exists_cons_of_ne_nil hne
  have hfind : patterns.find? (matchesAt (b :: rest ++ tail)) = some (b :: rest) := by
    cases hfound : patterns.find? (matchesAt (b :: rest ++ tail)) with
    | none =>
      exact absurd (matchesAt_iff.mpr (List.prefix_append _ _)) (List.find?_eq_none.mp hfound _ hp)
    | some q =>
      rw [hunique q (List.mem_of_find?_eq_some hfound) (matchesAt_iff.mp (List.find?_some hfound))]
  rw [List.cons_append] at hfind ⊢
  rw [deleteLoop, hfind]
  dsimp only
  rw [← List.cons_append, List.drop_left]

end Scan

section Instructions

variable {op : UInt8} {r rest i j s data : Bytes}

theorem isWhole_unique (hi : isWhole i) (hj : isWhole j) (his : i <+: s) (hjs : j <+: s) : i = j := by
  cases i with
  | nil => cases hi
  | cons op r =>
    cases j with
    | nil => cases hj
    | cons op' r' =>
      obtain ⟨t, rfl⟩ := his
      rw [List.cons_append] at hjs
      obtain ⟨rfl, hr'⟩ := List.cons_prefix_cons.mp hjs
      have hsize := instructionSize_of_prefix (isWhole_cons.mp hi) (List.prefix_append r t)
      have hsize' := instructionSize_of_prefix (isWhole_cons.mp hj) hr'
      have hlen : r.length = r'.length := by omega
      rw [List.prefix_of_prefix_length_le (List.prefix_append r t) hr' hlen.le |>.eq_of_length hlen]

theorem ofByte_direct (op : UInt8) : op ≤ 0x4b ∧ op ≠ 0 → Opcode.ofByte op = .pushBytes op := by
  revert op
  exact Opcode.forall_byte (by decide +kernel)

def IsPayloadPush (i data : Bytes) : Prop :=
  isWhole i ∧ (i.head?.map Opcode.ofByte).any Opcode.hasPayload ∧ pushedData i = some data

theorem isPayloadPush_direct (hne : data ≠ []) (hlen : data.length ≤ 75) :
    IsPayloadPush (UInt8.ofNat data.length :: data) data := by
  have hpos := List.length_pos_of_ne_nil hne
  have hbyte : (UInt8.ofNat data.length).toNat = data.length := by
    rw [UInt8.toNat_ofNat', Nat.mod_eq_of_lt (by omega)]
  have hle : UInt8.ofNat data.length ≤ 0x4b := by
    rw [UInt8.le_iff_toNat_le, hbyte]
    exact hlen
  have hzero : UInt8.ofNat data.length ≠ 0 := by
    intro h
    rw [h] at hbyte
    exact hpos.ne hbyte
  have hop := ofByte_direct _ ⟨hle, hzero⟩
  refine ⟨isWhole_cons.mpr ?_, ?_, ?_⟩
  · rw [instructionSize, if_pos hle, hbyte, Nat.add_comm]
  · rw [List.head?_cons, Option.map_some, hop]
    rfl
  · rw [pushedData, hop]

theorem isPayloadPush_lengthField {k : ℕ} (hlen : data.length < 256 ^ k)
    (hop : (op = 0x4c ∧ k = 1) ∨ (op = 0x4d ∧ k = 2) ∨ (op = 0x4e ∧ k = 4)) :
    IsPayloadPush (op :: (leBytes k data.length ++ data)) data := by
  have htake : (leBytes k data.length ++ data).take k = leBytes k data.length :=
    List.take_left' (leBytes_length k _)
  have hdrop : (leBytes k data.length ++ data).drop k = data :=
    List.drop_left' (leBytes_length k _)
  have hfield : ofLeBytes ((leBytes k data.length ++ data).take k) = data.length := by
    rw [htake, ofLeBytes_leBytes hlen]
  have hsize : (leBytes k data.length ++ data).length = k + data.length := by
    rw [List.length_append, leBytes_length]
  rcases hop with ⟨rfl, rfl⟩ | ⟨rfl, rfl⟩ | ⟨rfl, rfl⟩
  · refine ⟨isWhole_cons.mpr ?_, rfl, congrArg some hdrop⟩
    change 2 + ofLeBytes _ = _
    rw [hfield, hsize]
    omega
  · refine ⟨isWhole_cons.mpr ?_, rfl, congrArg some hdrop⟩
    change 3 + ofLeBytes _ = _
    rw [hfield, hsize]
    omega
  · refine ⟨isWhole_cons.mpr ?_, rfl, congrArg some hdrop⟩
    change 5 + ofLeBytes _ = _
    rw [hfield, hsize]
    omega

theorem isPayloadPush_of_mem (hne : data ≠ []) (hlen : data.length < 2 ^ 32)
    (h : i ∈ buildPushPatterns data) : IsPayloadPush i data := by
  simp only [buildPushPatterns, List.mem_append, List.mem_ite_nil_right, List.mem_singleton] at h
  rcases h with ((⟨hle, rfl⟩ | ⟨hle, rfl⟩) | ⟨hle, rfl⟩) | rfl
  · exact isPayloadPush_direct hne hle
  · exact @isPayloadPush_lengthField _ data 1 (Nat.lt_succ_of_le hle) (.inl ⟨rfl, rfl⟩)
  · exact isPayloadPush_lengthField (Nat.lt_succ_of_le hle) (.inr (.inl ⟨rfl, rfl⟩))
  · exact isPayloadPush_lengthField hlen (.inr (.inr ⟨rfl, rfl⟩))

theorem eq_of_lengthField {k : ℕ} (hsize : 1 + k + ofLeBytes (rest.take k) = rest.length + 1)
    (hdata : rest.drop k = data) :
    rest = leBytes k data.length ++ data ∧ data.length < 256 ^ k := by
  have hlen : (rest.take k).length = k := List.length_take_of_le (by omega)
  have hfield : ofLeBytes (rest.take k) = data.length := by
    rw [← hdata, List.length_drop]
    omega
  constructor
  · have hbytes := leBytes_ofLeBytes (rest.take k)
    rw [hlen, hfield] at hbytes
    rw [hbytes, ← hdata, List.take_append_drop]
  · have hlt := ofLeBytes_lt (rest.take k)
    rwa [hlen, hfield] at hlt

theorem mem_of_isPayloadPush (h : IsPayloadPush i data) :
    i ∈ buildPushPatterns data ∧ data.length < 2 ^ 32 := by
  obtain ⟨hwhole, hpay, hdata⟩ := h
  cases i with
  | nil => cases hwhole
  | cons op rest =>
    have hsize := isWhole_cons.mp hwhole
    simp only [buildPushPatterns, List.mem_append, List.mem_ite_nil_right, List.mem_singleton]
    rcases Opcode.ofByte_cases op with ⟨hle, -, hof⟩ | ⟨rfl, hof⟩ | ⟨rfl, hof⟩ | ⟨rfl, hof⟩ |
      ⟨-, -, -, -, hno⟩
    · rw [pushedData, hof] at hdata
      obtain rfl := Option.some.inj hdata
      rw [instructionSize, if_pos hle] at hsize
      have hop : rest.length = op.toNat := by omega
      have hbyte := op.toNat_lt
      refine ⟨.inl (.inl (.inl ⟨?_, ?_⟩)), by omega⟩
      · rw [hop]
        exact hle
      · rw [hop, UInt8.ofNat_toNat]
    · rw [pushedData, hof] at hdata
      obtain ⟨hrest, hlen⟩ := @eq_of_lengthField rest data 1 hsize (Option.some.inj hdata)
      exact ⟨.inl (.inl (.inr ⟨Nat.le_of_lt_succ hlen, congrArg (_ :: ·) hrest⟩)), by omega⟩
    · rw [pushedData, hof] at hdata
      obtain ⟨hrest, hlen⟩ := @eq_of_lengthField rest data 2 hsize (Option.some.inj hdata)
      exact ⟨.inl (.inr ⟨Nat.le_of_lt_succ hlen, congrArg (_ :: ·) hrest⟩), by omega⟩
    · rw [pushedData, hof] at hdata
      obtain ⟨hrest, hlen⟩ := @eq_of_lengthField rest data 4 hsize (Option.some.inj hdata)
      exact ⟨.inr (congrArg (_ :: ·) hrest), hlen⟩
    · rw [List.head?_cons, Option.map_some, Option.any_some, hno] at hpay
      cases hpay

end Instructions

/-- No encoding of the data starts in an instruction that does not push it. -/
def NoMisalignedPush (data : Bytes) : List Bytes → Prop
  | [] => True
  | i :: is =>
    (pushedData i ≠ some data → ∀ k < i.length, ∀ p ∈ buildPushPatterns data,
      ¬ p <+: i.drop k ++ is.flatten) ∧ NoMisalignedPush data is

/-- An opcode that pushes a small number does not push the data. -/
def NoOpcodePush (data : Bytes) (is : List Bytes) : Prop :=
  ∀ i ∈ is, pushedData i = some data → (i.head?.map Opcode.ofByte).any Opcode.hasPayload

instance (data : Bytes) (is : List Bytes) : Decidable (NoOpcodePush data is) :=
  inferInstanceAs (Decidable (∀ i ∈ is, pushedData i = some data →
    (i.head?.map Opcode.ofByte).any Opcode.hasPayload))

instance NoMisalignedPush.decidable (data : Bytes) : ∀ is, Decidable (NoMisalignedPush data is)
  | [] => isTrue trivial
  | i :: is =>
    have := NoMisalignedPush.decidable data is
    inferInstanceAs (Decidable ((pushedData i ≠ some data → ∀ k < i.length,
      ∀ p ∈ buildPushPatterns data, ¬ p <+: i.drop k ++ is.flatten) ∧ NoMisalignedPush data is))

/-- An instruction that pushes the data starts within the first `n` bytes. -/
def coversPush (data : Bytes) : List Bytes → ℕ → Bool
  | [], _ => false
  | i :: is, n => 0 < n && (pushedData i = some data || coversPush data is (n - i.length))

/-- An encoding of the data starts in an instruction that does not push it and runs
over the start of one that does. -/
def Straddles (data : Bytes) : List Bytes → Prop
  | [] => False
  | i :: is =>
    (pushedData i ≠ some data ∧ ∃ k < i.length, ∃ p ∈ buildPushPatterns data,
      p <+: i.drop k ++ is.flatten ∧ coversPush data is (p.length - (i.length - k))) ∨
      Straddles data is

section Deletion

variable {data script i : Bytes} {is : List Bytes}

def kept (data : Bytes) (is : List Bytes) : Bytes :=
  (is.filter fun i => pushedData i ≠ some data).flatten

theorem kept_cons_of_push (h : pushedData i = some data) : kept data (i :: is) = kept data is := by
  rw [kept, List.filter_cons_of_neg (by simpa using h), kept]

theorem kept_cons_of_other (h : pushedData i ≠ some data) :
    kept data (i :: is) = i ++ kept data is := by
  rw [kept, List.filter_cons_of_pos (by simpa using h), List.flatten_cons, kept]

theorem deleteLoop_push (hne : data ≠ []) (h : IsPayloadPush i data) (fuel : ℕ) (tail : Bytes) :
    deleteLoop (buildPushPatterns data) (fuel + 1) (i ++ tail) =
      deleteLoop (buildPushPatterns data) fuel tail := by
  obtain ⟨hmem, hlen⟩ := mem_of_isPayloadPush h
  refine deleteLoop_delete hmem ?_ fun p hp hpre =>
    isWhole_unique (isPayloadPush_of_mem hne hlen hp).1 h.1 hpre (List.prefix_append _ _)
  rintro rfl
  cases h.1

theorem length_pos_of_isWhole (h : isWhole i) : 0 < i.length := by
  cases i with
  | nil => cases h
  | cons op rest => exact Nat.succ_pos _

theorem deleteLoop_instructions (hne : data ≠ []) (hwhole : ∀ i ∈ is, isWhole i)
    (hop : NoOpcodePush data is) (haligned : NoMisalignedPush data is) {fuel : ℕ}
    (hfuel : is.flatten.length ≤ fuel) :
    deleteLoop (buildPushPatterns data) fuel is.flatten = kept data is := by
  induction is generalizing fuel with
  | nil => exact deleteLoop_nil fuel
  | cons i is ih =>
    rw [List.forall_mem_cons] at hwhole
    have hpos := length_pos_of_isWhole hwhole.1
    rw [List.flatten_cons, List.length_append] at hfuel
    have hrest := fun fuel => @ih hwhole.2 (fun j hj => hop j (List.mem_cons_of_mem i hj)) haligned.2
      fuel
    rw [List.flatten_cons]
    by_cases hpush : pushedData i = some data
    · obtain ⟨fuel, rfl⟩ : ∃ k, fuel = k + 1 := Nat.exists_eq_succ_of_ne_zero (by omega)
      rw [deleteLoop_push hne ⟨hwhole.1, hop i List.mem_cons_self hpush, hpush⟩,
        hrest fuel (by omega), kept_cons_of_push hpush]
    · obtain ⟨fuel, rfl⟩ := Nat.exists_eq_add_of_le ((Nat.le_add_right _ _).trans hfuel)
      rw [deleteLoop_copy (haligned.1 hpush), hrest fuel (by omega), kept_cons_of_other hpush]

end Deletion

/-- An opcode that pushes a number is no byte of the encodings of that number. -/
theorem opcode_notMem_patterns {op : UInt8} {rest data : Bytes}
    (hdata : pushedData (op :: rest) = some data) (hne : data ≠ [])
    (hno : (Opcode.ofByte op).hasPayload = false) : ∀ p ∈ buildPushPatterns data, op ∉ p := by
  have hbytes : ∀ op : UInt8, ∀ n ∈ pushedData [op], (Opcode.ofByte op).hasPayload = false →
      n ≠ [] → ∀ p ∈ buildPushPatterns n, op ∉ p :=
    Opcode.forall_byte (by decide +kernel)
  refine hbytes op data ?_ hno hne
  change pushedData [op] = some data
  rw [← hdata]
  cases hcode : Opcode.ofByte op with
  | pushBytes | pushData1 | pushData2 | pushData4 =>
    rw [hcode] at hno
    cases hno
  | _ => rw [pushedData, pushedData, hcode]

section Converse

variable {patterns : List Bytes} {data script : Bytes} {is : List Bytes}

theorem deleteLoop_count {op : UInt8} (h : ∀ p ∈ patterns, op ∉ p) (hne : ∀ p ∈ patterns, p ≠ [])
    {fuel : ℕ} {s : Bytes} (hfuel : s.length ≤ fuel) :
    (deleteLoop patterns fuel s).count op = s.count op := by
  induction fuel generalizing s with
  | zero =>
    obtain rfl := List.length_eq_zero_iff.mp (Nat.le_zero.mp hfuel)
    rfl
  | succ fuel ih =>
    cases s with
    | nil => rfl
    | cons b s =>
      rw [List.length_cons] at hfuel
      unfold deleteLoop
      split
      · next p hfind =>
        have hp := List.mem_of_find?_eq_some hfind
        obtain ⟨t, ht⟩ := matchesAt_iff.mp (List.find?_some hfind)
        have hpos := List.length_pos_of_ne_nil (hne p hp)
        rw [← ht, List.drop_left, List.count_append, List.count_eq_zero_of_not_mem (h p hp), zero_add]
        refine ih ?_
        have := congrArg List.length ht
        rw [List.length_append, List.length_cons] at this
        omega
      · rw [List.count_cons, List.count_cons, ih (by omega)]

theorem kept_sublist (data : Bytes) (is : List Bytes) : (kept data is).Sublist is.flatten :=
  List.filter_sublist.flatten

theorem count_kept_lt {op : UInt8} {rest : Bytes} (hmem : op :: rest ∈ is)
    (hpush : pushedData (op :: rest) = some data) :
    (kept data is).count op < is.flatten.count op := by
  induction is with
  | nil => cases hmem
  | cons i is ih =>
    rw [List.flatten_cons, List.count_append]
    rcases List.mem_cons.mp hmem with rfl | hrest
    · have hle := (kept_sublist data is).count_le op
      rw [kept_cons_of_push hpush, List.count_cons_self]
      omega
    · have hlt := ih hrest
      by_cases hi : pushedData i = some data
      · rw [kept_cons_of_push hi]
        omega
      · rw [kept_cons_of_other hi, List.count_append]
        omega

theorem patterns_ne_nil : ∀ p ∈ buildPushPatterns data, p ≠ [] := by
  intro p hp
  simp only [buildPushPatterns, List.mem_append, List.mem_ite_nil_right, List.mem_singleton] at hp
  rcases hp with ((⟨-, rfl⟩ | ⟨-, rfl⟩) | ⟨-, rfl⟩) | rfl <;> exact List.cons_ne_nil _ _

theorem noOpcodePush_of_eq (hne : data ≠ [])
    (heq : deleteLoop (buildPushPatterns data) is.flatten.length is.flatten = kept data is) :
    NoOpcodePush data is := by
  intro i hi hpush
  by_contra hno
  cases i with
  | nil => cases hpush
  | cons op rest =>
    rw [List.head?_cons, Option.map_some, Option.any_some, Bool.not_eq_true] at hno
    have hcount := deleteLoop_count (opcode_notMem_patterns hpush hne hno) patterns_ne_nil
      (le_refl is.flatten.length)
    rw [heq] at hcount
    exact (count_kept_lt hi hpush).ne hcount

/-- The scan is inside an instruction that does not push the data, with `t` left of
it, and no encoding that starts from there on runs over the start of a push of it. -/
structure Clear (data t : Bytes) (is : List Bytes) : Prop where
  whole : ∀ i ∈ is, isWhole i
  opcode : NoOpcodePush data is
  here : ∀ k < t.length, ∀ p ∈ buildPushPatterns data, p <+: t.drop k ++ is.flatten →
    coversPush data is (p.length - (t.length - k)) = false
  later : ¬ Straddles data is

variable {t : Bytes}

theorem Clear.suffix (h : Clear data t is) (n : ℕ) : Clear data (t.drop n) is := by
  refine ⟨h.whole, h.opcode, fun k hk p hp hpre => ?_, h.later⟩
  rw [List.length_drop] at hk
  rw [List.drop_drop] at hpre
  have hcovers := h.here (n + k) (by omega) p hp hpre
  rw [List.length_drop]
  rwa [show t.length - n - k = t.length - (n + k) by omega]

theorem Clear.nil_of_cons {i : Bytes} (h : Clear data t (i :: is)) : Clear data [] is :=
  ⟨(List.forall_mem_cons.mp h.whole).2, fun j hj => h.opcode j (List.mem_cons_of_mem i hj),
    nofun, fun hs => h.later (.inr hs)⟩

theorem Clear.of_cons {i : Bytes} (h : Clear data [] (i :: is)) (hi : pushedData i ≠ some data) :
    Clear data i is := by
  refine ⟨h.nil_of_cons.whole, h.nil_of_cons.opcode, fun k hk p hp hpre => ?_, h.nil_of_cons.later⟩
  rw [← Bool.not_eq_true]
  exact fun hcovers => h.later (.inl ⟨hi, k, hk, p, hp, hpre, hcovers⟩)

/-- Where the scan resumes behind `n` bytes in which no push of the data starts. -/
theorem Clear.resume {n : ℕ} (h : Clear data [] is) (hn : n ≤ is.flatten.length)
    (hcovers : coversPush data is n = false) :
    ∃ t js, is.flatten.drop n = t ++ js.flatten ∧ Clear data t js ∧
      t.length + (kept data js).length + n = (kept data is).length := by
  induction is generalizing n with
  | nil =>
    obtain rfl : n = 0 := Nat.le_zero.mp hn
    exact ⟨[], [], rfl, h, rfl⟩
  | cons i is ih =>
    rcases Nat.eq_zero_or_pos n with rfl | hpos
    · exact ⟨[], i :: is, rfl, h, by rw [List.length_nil, Nat.zero_add, Nat.add_zero]⟩
    · rw [coversPush, decide_eq_true hpos, Bool.true_and, Bool.or_eq_false_iff,
        decide_eq_false_iff_not] at hcovers
      obtain ⟨hi, hcovers⟩ := hcovers
      rw [List.flatten_cons, List.length_append] at hn
      rw [List.flatten_cons, kept_cons_of_other hi, List.length_append]
      rcases Nat.lt_or_ge n i.length with hlt | hge
      · refine ⟨i.drop n, is, List.drop_append_of_le_length hlt.le, (h.of_cons hi).suffix n, ?_⟩
        rw [List.length_drop]
        omega
      · obtain ⟨t, js, hdrop, hclear, hlen⟩ := ih h.nil_of_cons (by omega) hcovers
        refine ⟨t, js, ?_, hclear, by omega⟩
        rw [← hdrop, List.drop_append, List.drop_of_length_le hge, List.nil_append]

/-- The scan from here on keeps at most what the instructions keep, and less if it
meets an encoding that no instruction pushes. -/
def Shortens (data t : Bytes) (is : List Bytes) (out : Bytes) : Prop :=
  out.length ≤ t.length + (kept data is).length ∧
    (out.length = t.length + (kept data is).length →
      (∀ k < t.length, ∀ p ∈ buildPushPatterns data, ¬ p <+: t.drop k ++ is.flatten) ∧
        NoMisalignedPush data is)

theorem shortens_step {fuel : ℕ} {b : UInt8}
    (ih : ∀ {t : Bytes} {is : List Bytes}, Clear data t is → (t ++ is.flatten).length ≤ fuel →
      Shortens data t is (deleteLoop (buildPushPatterns data) fuel (t ++ is.flatten)))
    (h : Clear data (b :: t) is) (hfuel : (b :: t ++ is.flatten).length ≤ fuel + 1) :
    Shortens data (b :: t) is
      (deleteLoop (buildPushPatterns data) (fuel + 1) (b :: t ++ is.flatten)) := by
  rw [List.cons_append, List.length_cons] at hfuel
  rw [List.cons_append]
  unfold deleteLoop
  split
  · next p hfind =>
    have hp := List.mem_of_find?_eq_some hfind
    have hpre := matchesAt_iff.mp (List.find?_some hfind)
    have hpos := List.length_pos_of_ne_nil (patterns_ne_nil p hp)
    have hle := hpre.length_le
    rw [List.length_cons, List.length_append] at hle
    obtain ⟨t', js, hdrop, hclear, hlen⟩ : ∃ t' js,
        (b :: (t ++ is.flatten)).drop p.length = t' ++ js.flatten ∧ Clear data t' js ∧
          t'.length + (kept data js).length + p.length =
            (b :: t).length + (kept data is).length := by
      rcases Nat.lt_or_ge (b :: t).length p.length with hlt | hge
      · have hcovers := h.here 0 (Nat.succ_pos _) p hp hpre
        have hnil : Clear data [] is := ⟨h.whole, h.opcode, nofun, h.later⟩
        obtain ⟨t', js, hdrop, hclear, hlen⟩ := hnil.resume
          (by rw [List.length_cons] at hlt ⊢; omega) hcovers
        rw [Nat.sub_zero] at hdrop hlen
        refine ⟨t', js, ?_, hclear, by omega⟩
        rw [← hdrop, ← List.cons_append, List.drop_append, List.drop_of_length_le hlt.le,
          List.nil_append]
      · refine ⟨(b :: t).drop p.length, is, ?_, h.suffix _, ?_⟩
        · rw [← List.cons_append, List.drop_append_of_le_length hge]
        · rw [List.length_drop]
          omega
    have hfits : (t' ++ js.flatten).length ≤ fuel := by
      rw [← hdrop, List.length_drop, List.length_cons]
      omega
    obtain ⟨hout, -⟩ := ih hclear hfits
    rw [hdrop]
    exact ⟨by omega, fun heq => by omega⟩
  · next hfind =>
    obtain ⟨hout, hno⟩ := ih (h.suffix 1) (by simpa using hfuel)
    rw [List.drop_one, List.tail_cons] at hout hno
    refine ⟨by rw [List.length_cons, List.length_cons]; omega, fun heq => ?_⟩
    rw [List.length_cons, List.length_cons] at heq
    obtain ⟨hhere, hlater⟩ := hno (by omega)
    refine ⟨fun k hk p hp hpre => ?_, hlater⟩
    cases k with
    | zero => exact List.find?_eq_none.mp hfind p hp (matchesAt_iff.mpr hpre)
    | succ k => exact hhere k (Nat.lt_of_succ_lt_succ hk) p hp hpre

theorem shortens_deleteLoop (hne : data ≠ []) {fuel : ℕ} (h : Clear data t is)
    (hfuel : (t ++ is.flatten).length ≤ fuel) :
    Shortens data t is (deleteLoop (buildPushPatterns data) fuel (t ++ is.flatten)) := by
  induction fuel generalizing t is with
  | zero =>
    rw [List.length_append] at hfuel
    obtain rfl := List.length_eq_zero_iff.mp (show t.length = 0 by omega)
    cases is with
    | nil => exact ⟨Nat.le_refl _, fun _ => ⟨nofun, trivial⟩⟩
    | cons i is =>
      have hpos := length_pos_of_isWhole (h.whole i List.mem_cons_self)
      rw [List.flatten_cons, List.length_append] at hfuel
      omega
  | succ fuel ih =>
    cases t with
    | cons b t => exact shortens_step ih h hfuel
    | nil =>
      cases is with
      | nil => exact ⟨Nat.le_refl _, fun _ => ⟨nofun, trivial⟩⟩
      | cons i is =>
        obtain ⟨hi, -⟩ := List.forall_mem_cons.mp h.whole
        have hpos := length_pos_of_isWhole hi
        rw [List.nil_append, List.flatten_cons] at hfuel ⊢
        by_cases hpush : pushedData i = some data
        · rw [List.length_append] at hfuel
          obtain ⟨hout, hno⟩ := ih h.nil_of_cons (by rw [List.nil_append]; omega)
          rw [deleteLoop_push hne ⟨hi, h.opcode i List.mem_cons_self hpush, hpush⟩]
          rw [Shortens, kept_cons_of_push hpush]
          exact ⟨hout, fun heq => ⟨nofun, fun hnot => absurd hpush hnot, (hno heq).2⟩⟩
        · obtain ⟨b, t, rfl⟩ := List.exists_cons_of_ne_nil (List.ne_nil_of_length_pos hpos)
          obtain ⟨hout, hno⟩ := shortens_step ih (h.of_cons hpush) hfuel
          rw [Shortens, kept_cons_of_other hpush, List.length_append, List.length_nil, Nat.zero_add]
          refine ⟨hout, fun heq => ⟨nofun, fun _ => (hno heq).1, (hno heq).2⟩⟩

end Converse

section FindAndDelete

variable {script data : Bytes}

/-- Where no encoding of the data is misaligned and no opcode pushes it as a number,
the instructions that push it are deleted and all others stay as they are. Nothing
else gives that result, but for scripts where a misaligned encoding runs over the
start of an instruction that pushes the data. -/
theorem findAndDelete_removes_pushes (hcomplete : Complete script) (hne : data ≠ []) :
    (NoOpcodePush data (instructions script) ∧ NoMisalignedPush data (instructions script) →
        findAndDelete script data = withoutPushes script data) ∧
      (findAndDelete script data = withoutPushes script data →
        NoOpcodePush data (instructions script) ∧
          (NoMisalignedPush data (instructions script) ∨ Straddles data (instructions script))) := by
  have hloop : findAndDelete script data = deleteLoop (buildPushPatterns data)
      (instructions script).flatten.length (instructions script).flatten := by
    rw [instructions_flatten, findAndDelete, if_neg hne]
  rw [hloop]
  refine ⟨fun h => deleteLoop_instructions hne hcomplete h.1 h.2 le_rfl, fun heq => ?_⟩
  have hop := noOpcodePush_of_eq hne heq
  refine ⟨hop, or_iff_not_imp_right.mpr fun hstraddles => ?_⟩
  have hclear : Clear data [] (instructions script) := ⟨hcomplete, hop, nofun, hstraddles⟩
  refine ((shortens_deleteLoop hne hclear le_rfl).2 ?_).2
  rw [List.nil_append, heq, List.length_nil, Nat.zero_add]
  rfl

/-- The push of the data goes, the other instructions stay. -/
theorem aligned_push_deleted :
    Complete [0x01, 0xAA, 0x51, 0x93] ∧
      findAndDelete [0x01, 0xAA, 0x51, 0x93] [0xAA] =
        withoutPushes [0x01, 0xAA, 0x51, 0x93] [0xAA] ∧
      withoutPushes [0x01, 0xAA, 0x51, 0x93] [0xAA] = [0x51, 0x93] :=
  ⟨by decide +kernel, (findAndDelete_removes_pushes (by decide +kernel) (by decide)).1
    (by decide +kernel), by decide +kernel⟩

/-- The payload of another push holds a push of the data, which is cut out of it. -/
theorem payload_byte_deleted :
    Complete [0x02, 0x01, 0xAA] ∧ withoutPushes [0x02, 0x01, 0xAA] [0xAA] = [0x02, 0x01, 0xAA] ∧
      findAndDelete [0x02, 0x01, 0xAA] [0xAA] = [0x02] := by
  decide +kernel

-- The encoding 02 02 02 starts a byte too early, and what is left is the same.
example : ¬ NoMisalignedPush [0x02, 0x02] (instructions [0x01, 0x02, 0x02, 0x02, 0x02]) ∧
    findAndDelete [0x01, 0x02, 0x02, 0x02, 0x02] [0x02, 0x02] =
      withoutPushes [0x01, 0x02, 0x02, 0x02, 0x02] [0x02, 0x02] := by
  decide +kernel

end FindAndDelete

end Ironcat.Script
