import Ironcat.Lib.SignMagnitude
import Ironcat.Script.Branches

/-!
# Script numbers

`encode_script_number`, `decode_script_number` and `is_truthy` read stack
elements as integers with sign and magnitude. The encoder writes shortest forms,
and operands of four bytes are too small for an arithmetic opcode to overflow.
-/

namespace Ironcat.Script

open Lib.ByteCodec Lib.Checked Lib.Hoare Lib.SignMagnitude BlockContext

variable {data : Bytes}

theorem decodeScriptNumber_eq (h : data.length ≤ 4) :
    decodeScriptNumber data = .ok (value data) := by
  rcases List.eq_nil_or_concat data with rfl | ⟨init, last, rfl⟩
  · rfl
  rw [List.concat_eq_append] at h ⊢
  simp only [decodeScriptNumber, List.getLast?_concat, List.dropLast_concat, if_neg (Nat.not_lt_of_le h)]
  split_ifs with hsign
  · have hlast := last.toNat_lt
    rw [value_concat_of_le ((and_signBit last).mp hsign), ofLeBytes_concat, toNat_and_magnitude]
    have hge := (and_signBit last).mp hsign
    rw [show last.toNat % 128 = last.toNat - 128 by omega]
  · rw [value_concat_of_lt (Nat.lt_of_not_le fun hge => hsign ((and_signBit last).mpr hge))]

theorem decodeScriptNumber_eq_ok {v : ℤ} :
    decodeScriptNumber data = .ok v ↔ data.length ≤ 4 ∧ value data = v := by
  by_cases hlen : data.length ≤ 4
  · rw [decodeScriptNumber_eq hlen]
    simp [hlen]
  · have hne : data ≠ [] := by
      rintro rfl
      exact hlen (Nat.zero_le _)
    rw [decodeScriptNumber, List.getLast?_eq_some_getLast hne]
    dsimp only
    rw [if_pos (Nat.lt_of_not_le hlen)]
    simp [hlen]

theorem natAbs_value_lt_of_length (h : data.length ≤ 4) : (value data).natAbs < 2 ^ 31 := by
  by_cases hne : data = []
  · subst hne
    decide
  · exact (natAbs_value_lt hne).trans_le (half_mono h)

theorem isTruthy_iff (data : Bytes) : isTruthy data ↔ value data ≠ 0 := by
  rcases List.eq_nil_or_concat data with rfl | ⟨init, last, rfl⟩
  · decide
  rw [List.concat_eq_append]
  have hinit : init.any (· ≠ 0x00) = true ↔ ofLeBytes init ≠ 0 := by
    rw [ne_eq, ofLeBytes_eq_zero_iff]
    simp
  have hlast : (last ≠ 0x00 ∧ last ≠ 0x80) ↔ last.toNat ≠ 0 ∧ last.toNat ≠ 128 := by
    rw [ne_eq, ne_eq, ← UInt8.toNat_inj, ← UInt8.toNat_inj]
    rfl
  have hpos : 0 < 256 ^ init.length := by positivity
  have htruthy : isTruthy (init ++ [last]) ↔
      ofLeBytes init ≠ 0 ∨ (last.toNat ≠ 0 ∧ last.toNat ≠ 128) := by
    rw [← hinit, ← hlast]
    simp [isTruthy]
  have hzero : ∀ k, ofLeBytes init + 256 ^ init.length * k ≠ 0 ↔ ofLeBytes init ≠ 0 ∨ k ≠ 0 := by
    intro k
    rw [← not_and_or, ne_eq, Nat.add_eq_zero_iff, Nat.mul_eq_zero, or_iff_right hpos.ne']
  rw [htruthy]
  by_cases hsign : last.toNat < 128
  · rw [value_concat_of_lt hsign, ofLeBytes_concat, Int.natCast_ne_zero, hzero]
    omega
  · rw [value_concat_of_le (Nat.le_of_not_lt hsign), neg_ne_zero, Int.natCast_ne_zero, hzero]
    omega

theorem pow_le_of_minimalBytes {fuel n : ℕ} (h : minimalBytes fuel n ≠ []) :
    256 ^ ((minimalBytes fuel n).length - 1) ≤ n := by
  induction fuel generalizing n with
  | zero => exact absurd rfl h
  | succ fuel ih =>
    rw [minimalBytes] at h ⊢
    split_ifs at h ⊢ with hn
    · exact absurd rfl h
    · rw [List.length_cons, Nat.add_sub_cancel]
      by_cases hrest : minimalBytes fuel (n / 256) = []
      · rw [hrest]
        exact Nat.one_le_iff_ne_zero.mpr hn
      · have hpos := List.length_pos_iff.mpr hrest
        calc 256 ^ (minimalBytes fuel (n / 256)).length
            = 256 ^ ((minimalBytes fuel (n / 256)).length - 1) * 256 := by
              rw [← pow_succ, Nat.sub_add_cancel hpos]
          _ ≤ n / 256 * 256 := Nat.mul_le_mul_right _ (ih hrest)
          _ ≤ n := Nat.div_mul_le_self n 256

section Encode

variable {v : ℤ} {init : Bytes} {last : UInt8}

theorem encodeScriptNumber_concat (hbytes : minimalBytes 8 v.natAbs = init ++ [last]) :
    encodeScriptNumber v =
      if 128 ≤ last.toNat then (init ++ [last]) ++ [if v < 0 then 0x80 else 0x00]
      else if v < 0 then init ++ [last ||| 0x80] else init ++ [last] := by
  simp only [encodeScriptNumber, hbytes, List.getLast?_concat, List.dropLast_concat, and_signBit]

theorem value_encode_concat (hv : v.natAbs < 256 ^ 8)
    (hbytes : minimalBytes 8 v.natAbs = init ++ [last]) : value (encodeScriptNumber v) = v := by
  have hnat : ofLeBytes (init ++ [last]) = v.natAbs := by rw [← hbytes, ofLeBytes_minimalBytes hv]
  rw [encodeScriptNumber_concat hbytes]
  split_ifs with hlast hneg hneg
  · rw [value_concat_of_le (by decide), hnat]
    simp only [UInt8.reduceToNat, Nat.sub_self, Nat.mul_zero, Nat.add_zero]
    omega
  · rw [value_concat_of_lt (by decide), ofLeBytes_concat, hnat]
    simp only [UInt8.reduceToNat, Nat.mul_zero, Nat.add_zero]
    omega
  · have hor := toNat_or_signBit (Nat.lt_of_not_le hlast)
    rw [value_concat_of_le (by omega), hor, Nat.add_sub_cancel_left, ← ofLeBytes_concat, hnat]
    omega
  · rw [value_concat_of_lt (Nat.lt_of_not_le hlast), hnat]
    omega

theorem length_encode_concat (hbytes : minimalBytes 8 v.natAbs = init ++ [last]) :
    (encodeScriptNumber v).length =
      if 128 ≤ last.toNat then init.length + 2 else init.length + 1 := by
  rw [encodeScriptNumber_concat hbytes]
  split_ifs <;> simp

theorem encodeScriptNumber_spec (hv : v.natAbs < 256 ^ 8) :
    value (encodeScriptNumber v) = v ∧ IsShortest (encodeScriptNumber v) := by
  have hnat := ofLeBytes_minimalBytes hv
  rcases List.eq_nil_or_concat (minimalBytes 8 v.natAbs) with hbytes | ⟨init, last, hbytes⟩
  · rw [hbytes] at hnat
    obtain rfl : v = 0 := Int.natAbs_eq_zero.mp hnat.symm
    exact ⟨rfl, isShortest_nil⟩
  rw [List.concat_eq_append] at hbytes
  have hvalue := value_encode_concat hv hbytes
  have hle : 256 ^ init.length ≤ v.natAbs := by
    have hpow := @pow_le_of_minimalBytes 8 v.natAbs (by simp [hbytes])
    simpa [hbytes] using hpow
  have hpos : 0 < 256 ^ init.length := by positivity
  refine ⟨hvalue, isShortest_of_half_le (by rw [hvalue]; omega) ?_⟩
  rw [hvalue, length_encode_concat hbytes]
  split_ifs with hlast
  -- a byte for the sign is added only if the magnitude fills the byte below
  · intro _
    rw [hbytes, ofLeBytes_concat] at hnat
    have hmul := Nat.mul_le_mul_left (256 ^ init.length) hlast
    simp only [half, Nat.add_succ_sub_one, Nat.add_sub_cancel]
    omega
  · intro hlong
    obtain ⟨k, hk⟩ : ∃ k, init.length = k + 1 := Nat.exists_eq_succ_of_ne_zero (by omega)
    simp only [half, hk, Nat.add_sub_cancel]
    rw [hk, pow_succ] at hle
    omega

theorem decodeScriptNumber_encode (hv : v.natAbs < 2 ^ 31) :
    decodeScriptNumber (encodeScriptNumber v) = .ok v ∧ ∀ other, value other = v →
      other ≠ encodeScriptNumber v → (encodeScriptNumber v).length < other.length := by
  obtain ⟨hvalue, hshort⟩ := @encodeScriptNumber_spec v (hv.trans (by norm_num))
  have hlen : (encodeScriptNumber v).length ≤ 4 := hshort.length_le (by norm_num) (by rwa [hvalue])
  refine ⟨decodeScriptNumber_eq_ok.mpr ⟨hlen, hvalue⟩, fun other hother => ?_⟩
  exact hshort other (hother.trans hvalue.symm)

end Encode

namespace Opcode

/-- How many numbers an arithmetic opcode takes from the stack. -/
def numOperands : Opcode → ℕ
  | .op1Add | .op1Sub | .opNegate | .opAbs | .opNot | .op0NotEqual => 1
  | .opAdd | .opSub | .opBoolAnd | .opBoolOr | .opNumEqual | .opNumEqualVerify | .opNumNotEqual
  | .opLessThan | .opGreaterThan | .opLessThanOrEqual | .opGreaterThanOrEqual | .opMin | .opMax => 2
  | .opWithin => 3
  | _ => 0

end Opcode

def ShortOperands (k : ℕ) (m : Machine) : Prop := ∀ x ∈ m.stack.reverse.take k, x.length ≤ 4

def NoOverflow (f : Fault) : Prop := f ≠ .error .numericOverflow

section Arithmetic

variable {k : ℕ} {α : Type} {pre : Machine → Prop} {post : α → Machine → Prop}

theorem noOverflow_demand {o : Option α} {e : ScriptError} {f : Fault}
    (he : e ≠ .numericOverflow) (hf : demand e o = .error f) : NoOverflow f := by
  cases o with
  | none =>
    cases hf
    exact fun h => he (Fault.error.inj h)
  | some a => cases hf

theorem noOverflow_require {c : Prop} [Decidable c] {e : ScriptError} {f : Fault}
    (he : e ≠ .numericOverflow) (hf : require c e = .error f) : NoOverflow f := by
  unfold require ensure at hf
  split_ifs at hf
  cases hf
  exact fun h => he (Fault.error.inj h)

theorem triple_pop_short : Triple (ShortOperands (k + 1)) pop
    (fun x m => x.length ≤ 4 ∧ ShortOperands k m) NoOverflow := by
  refine triple_get_bind fun m hm => triple_liftM_bind (fun top htop => ?_) fun f hf => ?_
  · have hstack := List.dropLast_append_getLast? top (okOr_eq_ok.mp htop)
    rw [ShortOperands, ← hstack, List.reverse_concat, List.take_succ_cons, List.forall_mem_cons] at hm
    refine triple_set_bind (triple_pure fun m' hm' => ?_)
    rw [hm']
    exact hm
  · exact noOverflow_demand (by decide) hf

theorem triple_popNumber_short : Triple (ShortOperands (k + 1)) popNumber
    (fun n m => n.natAbs < 2 ^ 31 ∧ ShortOperands k m) NoOverflow := by
  refine Triple.bind triple_pop_short fun x => triple_and fun hx => ?_
  rw [← bind_pure (liftM ((decodeScriptNumber x).mapError Fault.error) : Exec ℤ),
    decodeScriptNumber_eq hx]
  exact triple_ok_bind rfl (triple_pure fun _ hm => ⟨natAbs_value_lt_of_length hx, hm⟩)

theorem triple_pushNumber (n : ℤ) : Triple pre (pushNumber n) (fun _ _ => True) NoOverflow :=
  triple_modify fun _ _ => trivial

theorem triple_unaryNumber {f : ℤ → Option ℤ} (hf : ∀ n, n.natAbs < 2 ^ 31 → (f n).isSome) :
    Triple (ShortOperands 1) (unaryNumber f) (fun _ _ => True) NoOverflow := by
  refine Triple.bind triple_popNumber_short fun n => triple_and fun hn => ?_
  obtain ⟨r, hr⟩ := Option.isSome_iff_exists.mp (hf n hn)
  exact triple_ok_bind (okOr_eq_ok.mpr hr) (triple_pushNumber r)

theorem triple_popTwoNumbers_short : Triple (ShortOperands 2) popTwoNumbers
    (fun p m => (p.1.natAbs < 2 ^ 31 ∧ p.2.natAbs < 2 ^ 31) ∧ ShortOperands 0 m) NoOverflow := by
  refine Triple.bind triple_popNumber_short fun b => triple_and fun hb => ?_
  refine Triple.bind triple_popNumber_short fun a => triple_and fun ha => ?_
  exact triple_pure fun _ hm => ⟨⟨ha, hb⟩, hm⟩

theorem triple_binaryNumber {f : ℤ → ℤ → Option ℤ}
    (hf : ∀ a b, a.natAbs < 2 ^ 31 → b.natAbs < 2 ^ 31 → (f a b).isSome) :
    Triple (ShortOperands 2) (binaryNumber f) (fun _ _ => True) NoOverflow := by
  refine Triple.bind triple_popTwoNumbers_short fun p => triple_and fun hp => ?_
  obtain ⟨r, hr⟩ := Option.isSome_iff_exists.mp (hf p.1 p.2 hp.1 hp.2)
  exact triple_ok_bind (okOr_eq_ok.mpr hr) (triple_pushNumber r)

theorem isSome_checkedI64 {n : ℤ} (h : n.natAbs ≤ 2 ^ 32) : (checkedI64 n).isSome := by
  have hmin : i64Min = -2 ^ 63 := rfl
  have hmax : i64Max = 2 ^ 63 - 1 := rfl
  rw [checkedI64, if_pos (by omega)]
  rfl

theorem triple_arithmetic (env : Env) {op : Opcode} (hop : op.numOperands ≠ 0) :
    Triple (ShortOperands op.numOperands) (plainOpcode env op) (fun _ _ => True) NoOverflow := by
  cases op with
  | op1Add => exact triple_unaryNumber fun n hn => isSome_checkedI64 (by omega)
  | op1Sub => exact triple_unaryNumber fun n hn => isSome_checkedI64 (by omega)
  | opNegate => exact triple_unaryNumber fun n hn => isSome_checkedI64 (by omega)
  | opAbs => exact triple_unaryNumber fun n hn => isSome_checkedI64 (by rw [Int.natAbs_abs]; omega)
  | opAdd => exact triple_binaryNumber fun a b ha hb => isSome_checkedI64 (by omega)
  | opSub => exact triple_binaryNumber fun a b ha hb => isSome_checkedI64 (by omega)
  | opNot | op0NotEqual => exact triple_unaryNumber (by intros; rfl)
  | opBoolAnd | opBoolOr | opNumEqual | opNumNotEqual | opLessThan | opGreaterThan
  | opLessThanOrEqual | opGreaterThanOrEqual | opMin | opMax =>
    dsimp only [plainOpcode]
    exact triple_binaryNumber fun _ _ _ _ => rfl
  | opNumEqualVerify =>
    refine Triple.bind triple_popTwoNumbers_short fun ⟨a, b⟩ => ?_
    dsimp only
    rw [← bind_pure (liftM (require _ _) : Exec Unit)]
    exact triple_liftM_bind (fun _ _ => triple_pure fun _ _ => trivial)
      fun _ hf => noOverflow_require (by decide) hf
  | opWithin =>
    refine Triple.bind triple_popNumber_short fun max => triple_and fun _ => ?_
    refine Triple.bind triple_popNumber_short fun min => triple_and fun _ => ?_
    exact Triple.bind triple_popNumber_short fun x => triple_pushNumber _
  | _ => exact absurd rfl hop

end Arithmetic

theorem isControl_of_numOperands {op : Opcode} (hop : op.numOperands ≠ 0) :
    op.isControl = false := by
  cases op with
  | opIf | opNotIf | opElse | opEndIf => exact absurd rfl hop
  | _ => rfl

/-- Encoding and decoding agree with each other and with the truth of elements,
and numbers of four bytes never overflow. -/
theorem script_numbers :
    (∀ v : ℤ, |v| < 2 ^ 31 → decodeScriptNumber (encodeScriptNumber v) = .ok v) ∧
    (∀ data : Bytes, data.length ≤ 4 → ∃ v : ℤ, decodeScriptNumber data = .ok v ∧
      (isTruthy data ↔ v ≠ 0) ∧
      decodeScriptNumber (encodeScriptNumber v) = .ok v ∧
      ∀ other, decodeScriptNumber other = .ok v → other ≠ encodeScriptNumber v →
        (encodeScriptNumber v).length < other.length) ∧
    ∀ (env : Env) (op : Opcode) (e : Engine), op.numOperands ≠ 0 →
      executeOpcode env op e = .error (.error .numericOverflow) →
      ∃ x ∈ e.stack.reverse.take op.numOperands, 4 < x.length := by
  refine ⟨fun v hv => ?_, fun data hdata => ⟨value data, decodeScriptNumber_eq hdata,
    isTruthy_iff data, ?_⟩, fun env op e hop herror => ?_⟩
  · rw [Int.abs_eq_natAbs] at hv
    exact (decodeScriptNumber_encode (by exact_mod_cast hv)).1
  · obtain ⟨hdecode, hshort⟩ := decodeScriptNumber_encode (natAbs_value_lt_of_length hdata)
    exact ⟨hdecode, fun other hother => hshort other (decodeScriptNumber_eq_ok.mp hother).2⟩
  · by_contra hlong
    have hshort : ShortOperands op.numOperands e.toMachine := by
      intro x hx
      by_contra hx4
      exact hlong ⟨x, hx, Nat.lt_of_not_le hx4⟩
    rw [executeOpcode_plain (isControl_of_numOperands hop)] at herror
    exact (triple_onMachine (triple_arithmetic env hop)).of_error hshort herror rfl

end Ironcat.Script
