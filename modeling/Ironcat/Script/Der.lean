import Ironcat.Lib.Cursor
import Ironcat.Lib.SignMagnitude
import Ironcat.Script.Engine

/-!
# DER signatures

The two readings of a signature in `script/signature.rs`: `parse_der_lenient`
walks over tags and lengths with a cursor, `check_signature_encoding` looks at
absolute offsets. `Signature::from_scalars` is a parameter.
-/

namespace Ironcat.Script

open Lib.ByteCodec Lib.Checked Lib.Cursor Lib.SignMagnitude

def readLenBytes : ℕ → ℕ → CursorM ℕ
  | 0, len => return len
  | n+1, len => do
    let b ← nextByte
    readLenBytes n ((len <<< 8) + b.toNat)

def readDerLen : CursorM ℕ := do
  let b ← nextByte
  if b &&& 0x80 = 0 then return b.toNat
  else
    let n := (b &&& 0x7f).toNat
    guard (¬ (n = 0 ∨ 4 < n))
    readLenBytes n 0

def readDerInteger : CursorM Bytes := do
  let tag ← nextByte
  guard (tag = 0x02)
  let len ← readDerLen
  guard (len ≠ 0)
  slice len

/-- Leading zeros are dropped up to the last byte, and the rest is aligned to the
right. -/
def scalarFromBytes (bytes : Bytes) : Option (Vector UInt8 32) :=
  let start := (bytes.findIdx? (· ≠ 0)).getD (bytes.length - 1)
  let significant := bytes.drop start
  if h : significant.length ≤ 32 then
    some ⟨(List.replicate (32 - significant.length) 0 ++ significant).toArray, by simp; omega⟩
  else none

/-- The two integers of a sequence. Its length is read and not looked at. -/
def readDerIntegers : CursorM (Bytes × Bytes) := do
  let tag ← nextByte
  guard (tag = 0x30)
  let _totalLen ← readDerLen
  let rBytes ← readDerInteger
  let sBytes ← readDerInteger
  return (rBytes, sBytes)

def parseDerLenient {Signature : Type}
    (fromScalars : Vector UInt8 32 → Vector UInt8 32 → Option Signature) (der : Bytes) :
    Option Signature := do
  let ((rBytes, sBytes), _) ← readDerIntegers der 0
  let r ← scalarFromBytes rBytes
  let s ← scalarFromBytes sBytes
  fromScalars r s

inductive SigHashType
  | all | none | single | allAnyoneCanPay | noneAnyoneCanPay | singleAnyoneCanPay
deriving DecidableEq, Repr

def SigHashType.fromByte (byte : UInt8) : Option SigHashType :=
  if byte = 0x01 then some .all
  else if byte = 0x02 then some .none
  else if byte = 0x03 then some .single
  else if byte = 0x81 then some .allAnyoneCanPay
  else if byte = 0x82 then some .noneAnyoneCanPay
  else if byte = 0x83 then some .singleAnyoneCanPay
  else Option.none

def checkSignatureEncoding (sig : Bytes) : Except Fault Unit :=
  if sig = [] then .ok ()
  else do
    require (9 ≤ sig.length ∧ sig.length ≤ 73) .invalidSignatureEncoding
    let marker ← index sig 0
    require (marker = 0x30) .invalidSignatureEncoding
    let totalLen ← index sig 1
    require (totalLen.toNat = sig.length - 3) .invalidSignatureEncoding
    let rMarker ← index sig 2
    require (rMarker = 0x02) .invalidSignatureEncoding
    let rLen ← index sig 3
    require (rLen ≠ 0) .invalidSignatureEncoding
    let r₀ ← index sig 4
    require (r₀ &&& 0x80 = 0) .invalidSignatureEncoding
    let r₁ ← index sig 5
    require (¬ (1 < rLen.toNat ∧ r₀ = 0x00 ∧ r₁ &&& 0x80 = 0)) .invalidSignatureEncoding
    let sMarkerPos := 4 + rLen.toNat
    require (sMarkerPos < sig.length) .invalidSignatureEncoding
    let sMarker ← index sig sMarkerPos
    require (sMarker = 0x02) .invalidSignatureEncoding
    let sLenPos := sMarkerPos + 1
    require (sLenPos < sig.length) .invalidSignatureEncoding
    let sLen ← index sig sLenPos
    require (sLen ≠ 0) .invalidSignatureEncoding
    let sStart := sLenPos + 1
    require (sStart < sig.length) .invalidSignatureEncoding
    let s₀ ← index sig sStart
    require (s₀ &&& 0x80 = 0) .invalidSignatureEncoding
    require (¬ (1 < sLen.toNat ∧ s₀ = 0x00 ∧ sig[sStart + 1]?.any (· &&& 0x80 = 0)))
      .invalidSignatureEncoding
    require (rLen.toNat + sLen.toNat + 7 = sig.length) .invalidSignatureEncoding
    let hashType ← index sig (sig.length - 1)
    require (SigHashType.fromByte hashType).isSome .invalidSignatureEncoding

/-- The encodings of a length: one byte below 128, or a byte with the number of
bytes that follow. -/
inductive DerLength : ℕ → Bytes → Prop
  | short {n : ℕ} (h : n < 128) : DerLength n [UInt8.ofNat n]
  | long {bytes : Bytes} (hpos : 1 ≤ bytes.length) (hle : bytes.length ≤ 4) :
      DerLength (ofBeBytes bytes) (UInt8.ofNat (0x80 + bytes.length) :: bytes)

theorem consumes_readLenBytes (bytes : Bytes) (len : ℕ) :
    Consumes (readLenBytes bytes.length len) bytes (len * 256 ^ bytes.length + ofBeBytes bytes) := by
  induction bytes generalizing len with
  | nil =>
    have hvalue : len * 256 ^ ([] : Bytes).length + ofBeBytes [] = len := Nat.mul_one len
    rw [hvalue]
    exact consumes_pure len
  | cons b bytes ih =>
    have hvalue : len * 256 ^ (b :: bytes).length + ofBeBytes (b :: bytes) =
        ((len <<< 8) + b.toNat) * 256 ^ bytes.length + ofBeBytes bytes := by
      rw [ofBeBytes_cons, List.length_cons, Nat.shiftLeft_eq]
      ring
    rw [hvalue]
    exact (consumes_nextByte b).bind (ih _)

theorem consumes_readDerLen {n : ℕ} {enc : Bytes} (h : DerLength n enc) :
    Consumes readDerLen enc n := by
  cases h with
  | short hn =>
    have hbyte : (UInt8.ofNat n).toNat = n := by
      rw [UInt8.toNat_ofNat', Nat.mod_eq_of_lt (by omega)]
    have hshort : UInt8.ofNat n &&& 0x80 = 0 := by
      by_contra hset
      have hge := (and_signBit _).mp hset
      omega
    have hread : Consumes (pure (UInt8.ofNat n).toNat) [] n := by
      rw [hbyte]
      exact consumes_pure n
    refine (consumes_nextByte _).bind (a := UInt8.ofNat n) ?_
    rw [if_pos hshort]
    exact hread
  | @long bytes hpos hle =>
    have hbyte : (UInt8.ofNat (0x80 + bytes.length)).toNat = 128 + bytes.length := by
      rw [UInt8.toNat_ofNat', Nat.mod_eq_of_lt (by omega)]
    have hlong : ¬ (UInt8.ofNat (0x80 + bytes.length) &&& 0x80 = 0) :=
      (and_signBit _).mpr (by omega)
    have hcount : (UInt8.ofNat (0x80 + bytes.length) &&& 0x7f).toNat = bytes.length := by
      rw [toNat_and_magnitude, hbyte]
      omega
    have hread := consumes_readLenBytes bytes 0
    rw [Nat.zero_mul, Nat.zero_add] at hread
    refine (consumes_nextByte _).bind (a := UInt8.ofNat (0x80 + bytes.length)) ?_
    rw [if_neg hlong, hcount]
    exact .guard_bind (by omega) hread

theorem consumes_readDerInteger {value enc : Bytes} (hne : value ≠ [])
    (h : DerLength value.length enc) : Consumes readDerInteger (0x02 :: enc ++ value) value := by
  have hlen : value.length ≠ 0 := fun h0 => hne (List.length_eq_zero_iff.mp h0)
  exact (consumes_nextByte 0x02).bind (.guard_bind rfl
    ((consumes_readDerLen h).bind (.guard_bind hlen (consumes_slice value))))

theorem consumes_readDerIntegers {r s lenR lenS lenTotal : Bytes} {total : ℕ} (hr : r ≠ [])
    (hs : s ≠ []) (hlenR : DerLength r.length lenR) (hlenS : DerLength s.length lenS)
    (hlenTotal : DerLength total lenTotal) :
    Consumes readDerIntegers
      (0x30 :: lenTotal ++ ((0x02 :: lenR ++ r) ++ (0x02 :: lenS ++ s))) (r, s) := by
  have hsecond : Consumes (readDerInteger >>= fun s => pure (r, s)) ((0x02 :: lenS ++ s) ++ [])
      (r, s) := (consumes_readDerInteger hs hlenS).bind (consumes_pure (r, s))
  rw [List.append_nil] at hsecond
  exact (consumes_nextByte 0x30).bind (.guard_bind rfl ((consumes_readDerLen hlenTotal).bind
    ((consumes_readDerInteger hr hlenR).bind hsecond)))

theorem significant_spec (bytes : Bytes) (start : ℕ)
    (hstart : start = (bytes.findIdx? (· ≠ 0)).getD (bytes.length - 1)) :
    (∀ b ∈ bytes.take start, b = 0) ∧
      (1 < (bytes.drop start).length → ∃ b rest, bytes.drop start = b :: rest ∧ b ≠ 0) := by
  cases hfind : bytes.findIdx? (· ≠ 0) with
  | none =>
    rw [hfind, Option.getD_none] at hstart
    have hzero := List.findIdx?_eq_none_iff.mp hfind
    refine ⟨fun b hb => ?_, fun hlong => ?_⟩
    · simpa using hzero b (List.mem_of_mem_take hb)
    · rw [List.length_drop] at hlong
      omega
  | some i =>
    rw [hfind, Option.getD_some] at hstart
    subst hstart
    obtain ⟨hi, hne, hbefore⟩ := List.findIdx?_eq_some_iff_getElem.mp hfind
    refine ⟨fun b hb => ?_, fun _ => ⟨_, _, List.drop_eq_getElem_cons hi, by simpa using hne⟩⟩
    obtain ⟨j, hj, rfl⟩ := List.mem_take_iff_getElem.mp hb
    simpa using hbefore j (by omega)

theorem scalarFromBytes_eq (bytes : Bytes) : (scalarFromBytes bytes).map Vector.toList =
    if ofBeBytes bytes < 2 ^ 256 then some (beBytes 32 (ofBeBytes bytes)) else none := by
  unfold scalarFromBytes
  extract_lets start significant
  obtain ⟨hzeros, hhead⟩ := significant_spec bytes start rfl
  have hvalue : ofBeBytes bytes = ofBeBytes significant := by
    rw [← List.take_append_drop start bytes, ofBeBytes_append_zeros hzeros]
  rw [hvalue]
  have hpow : 2 ^ 256 = 256 ^ 32 := by norm_num
  rw [hpow]
  by_cases hfit : significant.length ≤ 32
  · obtain ⟨hlt, hback⟩ := beBytes_ofBeBytes_pad hfit
    rw [dif_pos hfit, if_pos hlt, hback]
    rfl
  · have hnonzero : 1 < significant.length → ∃ b rest, significant = b :: rest ∧ b ≠ 0 := hhead
    obtain ⟨b, rest, hcons, hb⟩ := hnonzero (by omega)
    have hlong : 32 ≤ rest.length := by
      have hlen := congrArg List.length hcons
      rw [List.length_cons] at hlen
      omega
    have hge : 256 ^ 32 ≤ ofBeBytes significant := by
      rw [hcons]
      exact (Nat.pow_le_pow_right (by norm_num) hlong).trans (pow_le_ofBeBytes hb rest)
    rw [dif_neg hfit, if_neg (Nat.not_lt_of_le hge)]
    rfl

/-- R by its offset. -/
def strictR (sig : Bytes) : Bytes := (sig.drop 4).take (sig.getD 3 0).toNat

/-- S by its offset, as in `check_low_s`. -/
def strictS (sig : Bytes) : Bytes :=
  let rLen := (sig.getD 3 0).toNat
  (sig.drop (6 + rLen)).take (sig.getD (5 + rLen) 0).toNat

variable {b : UInt8}

theorem drop_of_index {sig : Bytes} {i : ℕ} (h : index sig i = .ok b) :
    sig.drop i = b :: sig.drop (i + 1) := by
  obtain ⟨hi, rfl⟩ := List.getElem?_eq_some_iff.mp (okOr_eq_ok.mp h)
  exact List.drop_eq_getElem_cons hi

theorem getD_of_index {sig : Bytes} {i : ℕ} (h : index sig i = .ok b) : sig.getD i 0 = b := by
  rw [List.getD_eq_getElem?_getD, okOr_eq_ok.mp h, Option.getD_some]

/-- What `check_signature_encoding` has found where. -/
structure StrictFields (sig : Bytes) (totalLen rLen sLen hashType : UInt8) : Prop where
  marker : index sig 0 = .ok 0x30
  total_at : index sig 1 = .ok totalLen
  total_eq : totalLen.toNat = sig.length - 3
  rMarker : index sig 2 = .ok 0x02
  rLen_at : index sig 3 = .ok rLen
  rLen_ne : rLen ≠ 0
  sMarker : index sig (4 + rLen.toNat) = .ok 0x02
  sLen_at : index sig (5 + rLen.toNat) = .ok sLen
  sLen_ne : sLen ≠ 0
  size : rLen.toNat + sLen.toNat + 7 = sig.length
  size_le : sig.length ≤ 73
  hashType_at : index sig (sig.length - 1) = .ok hashType

theorem strictFields_of_ok {sig : Bytes} (hne : sig ≠ []) (h : checkSignatureEncoding sig = .ok ()) :
    ∃ totalLen rLen sLen hashType, StrictFields sig totalLen rLen sLen hashType := by
  rw [checkSignatureEncoding, if_neg hne] at h
  obtain ⟨_, hsize, h⟩ := bind_eq_ok.mp h
  obtain ⟨marker, hmarker, h⟩ := bind_eq_ok.mp h
  obtain ⟨_, hmarkerEq, h⟩ := bind_eq_ok.mp h
  obtain ⟨totalLen, htotal, h⟩ := bind_eq_ok.mp h
  obtain ⟨_, htotalEq, h⟩ := bind_eq_ok.mp h
  obtain ⟨rMarker, hrMarker, h⟩ := bind_eq_ok.mp h
  obtain ⟨_, hrMarkerEq, h⟩ := bind_eq_ok.mp h
  obtain ⟨rLen, hrLen, h⟩ := bind_eq_ok.mp h
  obtain ⟨_, hrLenNe, h⟩ := bind_eq_ok.mp h
  -- the sign and the padding of R, and that its end is not the end
  obtain ⟨_, -, h⟩ := bind_eq_ok.mp h
  obtain ⟨_, -, h⟩ := bind_eq_ok.mp h
  obtain ⟨_, -, h⟩ := bind_eq_ok.mp h
  obtain ⟨_, -, h⟩ := bind_eq_ok.mp h
  obtain ⟨_, -, h⟩ := bind_eq_ok.mp h
  obtain ⟨sMarker, hsMarker, h⟩ := bind_eq_ok.mp h
  obtain ⟨_, hsMarkerEq, h⟩ := bind_eq_ok.mp h
  obtain ⟨_, -, h⟩ := bind_eq_ok.mp h
  obtain ⟨sLen, hsLen, h⟩ := bind_eq_ok.mp h
  obtain ⟨_, hsLenNe, h⟩ := bind_eq_ok.mp h
  -- the same for S
  obtain ⟨_, -, h⟩ := bind_eq_ok.mp h
  obtain ⟨_, -, h⟩ := bind_eq_ok.mp h
  obtain ⟨_, -, h⟩ := bind_eq_ok.mp h
  obtain ⟨_, -, h⟩ := bind_eq_ok.mp h
  obtain ⟨_, hsum, h⟩ := bind_eq_ok.mp h
  obtain ⟨hashType, hhashType, -⟩ := bind_eq_ok.mp h
  rw [ensure_eq_ok.mp hmarkerEq] at hmarker
  rw [ensure_eq_ok.mp hrMarkerEq] at hrMarker
  rw [ensure_eq_ok.mp hsMarkerEq] at hsMarker
  rw [Nat.add_right_comm] at hsLen
  exact ⟨totalLen, rLen, sLen, hashType, hmarker, htotal, ensure_eq_ok.mp htotalEq, hrMarker, hrLen,
    ensure_eq_ok.mp hrLenNe, hsMarker, hsLen, ensure_eq_ok.mp hsLenNe, ensure_eq_ok.mp hsum,
    (ensure_eq_ok.mp hsize).2, hhashType⟩

section Layout

variable {sig : Bytes} {totalLen rLen sLen hashType : UInt8}

section

variable (h : StrictFields sig totalLen rLen sLen hashType)
include h

theorem StrictFields.strictR_eq : strictR sig = (sig.drop 4).take rLen.toNat := by
  rw [strictR, getD_of_index h.rLen_at]

theorem StrictFields.strictS_eq : strictS sig = (sig.drop (6 + rLen.toNat)).take sLen.toNat := by
  rw [strictS, getD_of_index h.rLen_at, getD_of_index h.sLen_at]

theorem StrictFields.length_strictR : (strictR sig).length = rLen.toNat := by
  have hsize := h.size
  rw [h.strictR_eq, List.length_take, List.length_drop]
  omega

theorem StrictFields.length_strictS : (strictS sig).length = sLen.toNat := by
  have hsize := h.size
  rw [h.strictS_eq, List.length_take, List.length_drop]
  omega

theorem StrictFields.layout :
    sig = (0x30 :: [totalLen] ++
      ((0x02 :: [rLen] ++ strictR sig) ++ (0x02 :: [sLen] ++ strictS sig))) ++ [hashType] := by
  have hsize := h.size
  have hlast : sig.drop (6 + rLen.toNat + sLen.toNat) = [hashType] := by
    have hend : sig.length - 1 = 6 + rLen.toNat + sLen.toNat := by omega
    rw [← hend, drop_of_index h.hashType_at, List.drop_of_length_le (by omega)]
  have hs : sig.drop (6 + rLen.toNat) = strictS sig ++ [hashType] := by
    rw [h.strictS_eq, ← hlast, ← List.drop_drop (i := sLen.toNat), List.take_append_drop]
  have hr : sig.drop 4 = strictR sig ++ sig.drop (4 + rLen.toNat) := by
    rw [h.strictR_eq, ← List.drop_drop, List.take_append_drop]
  have hsecond : sig.drop (4 + rLen.toNat) = 0x02 :: sLen :: (strictS sig ++ [hashType]) := by
    rw [drop_of_index h.sMarker, Nat.add_right_comm, drop_of_index h.sLen_at, Nat.add_right_comm, hs]
  have hfirst : sig.drop 1 = totalLen :: 0x02 :: rLen :: sig.drop 4 := by
    rw [drop_of_index h.total_at, drop_of_index h.rMarker, drop_of_index h.rLen_at]
  have hall : sig = 0x30 :: sig.drop 1 := drop_of_index h.marker
  rw [hfirst, hr, hsecond] at hall
  simpa using hall

end

end Layout

theorem derLength_byte (h : b.toNat < 128) : DerLength b.toNat [b] := by
  have hshort := DerLength.short h
  rwa [UInt8.ofNat_toNat] at hshort

theorem readDerIntegers_encoded {r s lenR lenS lenTotal : Bytes} {total : ℕ} (hr : r ≠ [])
    (hs : s ≠ []) (hlenR : DerLength r.length lenR) (hlenS : DerLength s.length lenS)
    (hlenTotal : DerLength total lenTotal) (trailing : Bytes) :
    ∃ pos, readDerIntegers
      (0x30 :: lenTotal ++ ((0x02 :: lenR ++ r) ++ (0x02 :: lenS ++ s)) ++ trailing) 0 =
        some ((r, s), pos) := by
  have hconsume := consumes_readDerIntegers hr hs hlenR hlenS hlenTotal [] trailing
  rw [List.nil_append] at hconsume
  exact ⟨_, hconsume⟩

theorem readDerIntegers_strict {sig : Bytes} (hne : sig ≠ [])
    (h : checkSignatureEncoding sig = .ok ()) :
    ∃ pos, readDerIntegers sig.dropLast 0 = some ((strictR sig, strictS sig), pos) := by
  obtain ⟨totalLen, rLen, sLen, hashType, hfields⟩ := strictFields_of_ok hne h
  have hsize := hfields.size
  have hmax := hfields.size_le
  have htotal := hfields.total_eq
  have hlenR := hfields.length_strictR
  have hlenS := hfields.length_strictS
  have hr : strictR sig ≠ [] := by
    intro hnil
    rw [hnil] at hlenR
    exact hfields.rLen_ne (UInt8.toNat_inj.mp hlenR.symm)
  have hs : strictS sig ≠ [] := by
    intro hnil
    rw [hnil] at hlenS
    exact hfields.sLen_ne (UInt8.toNat_inj.mp hlenS.symm)
  have hdrop := (congrArg List.dropLast hfields.layout).trans List.dropLast_concat
  have hread := @readDerIntegers_encoded (strictR sig) (strictS sig) [rLen] [sLen] [totalLen] _ hr hs
    (hlenR ▸ derLength_byte (by omega)) (hlenS ▸ derLength_byte (by omega))
    (derLength_byte (by omega)) []
  rwa [List.append_nil, ← hdrop] at hread

example : (checkSignatureEncoding [0x30, 6, 2, 1, 5, 2, 1, 7, 1]).toOption = some () ∧
    readDerIntegers [0x30, 6, 2, 1, 5, 2, 1, 7] 0 = some (([5], [7]), 8) := by
  decide +kernel

/-- The lenient parser reads the integers out of every encoding of their lengths,
and out of a strict signature those at its offsets. -/
theorem der_integers_recovered :
    (∀ (r s lenR lenS lenTotal trailing : Bytes) (total : ℕ), r ≠ [] → s ≠ [] →
      DerLength r.length lenR → DerLength s.length lenS → DerLength total lenTotal →
      ∃ pos, readDerIntegers
        (0x30 :: lenTotal ++ ((0x02 :: lenR ++ r) ++ (0x02 :: lenS ++ s)) ++ trailing) 0 =
          some ((r, s), pos)) ∧
    (∀ bytes : Bytes, (scalarFromBytes bytes).map Vector.toList =
      if ofBeBytes bytes < 2 ^ 256 then some (beBytes 32 (ofBeBytes bytes)) else none) ∧
    (∀ sig : Bytes, sig ≠ [] → checkSignatureEncoding sig = .ok () →
      ∃ pos, readDerIntegers sig.dropLast 0 = some ((strictR sig, strictS sig), pos)) ∧
    ∀ (Signature : Type) (fromScalars : Vector UInt8 32 → Vector UInt8 32 → Option Signature)
      (der r s : Bytes) (pos : ℕ), readDerIntegers der 0 = some ((r, s), pos) →
      parseDerLenient fromScalars der = (scalarFromBytes r).bind fun rScalar =>
        (scalarFromBytes s).bind fun sScalar => fromScalars rScalar sScalar := by
  refine ⟨?_, scalarFromBytes_eq, fun sig hne hcheck => readDerIntegers_strict hne hcheck, ?_⟩
  · intro r s lenR lenS lenTotal trailing total hr hs hlenR hlenS hlenTotal
    exact readDerIntegers_encoded hr hs hlenR hlenS hlenTotal trailing
  · intro Signature fromScalars der r s pos hread
    rw [parseDerLenient, hread]
    rfl

end Ironcat.Script
