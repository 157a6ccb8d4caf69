import Ironcat.CoinFrame
import Ironcat.Script.Multisig
import Ironcat.Script.Numbers

/-!
# Scripts of a fixed form

The output script of a pay-to-script-hash, and the push of a height at the
beginning of a coinbase. Both are blocks without conditionals, so what they do
to a stack can be computed.
-/

namespace Ironcat.Script

open Lib.ByteCodec Lib.Checked Lib.Hoare Lib.SignMagnitude Types SignatureHash BlockContext
open CoinFrame

variable {data : Bytes}

section Plain

variable {env : Env} {op : Opcode} {m m' : Machine}

theorem checkStackSize_eq (m : Machine) : checkStackSize m =
    if m.stack.length + m.altStack.length ≤ maxStackSize then .ok ((), m)
    else .error (.error .stackOverflow) := by
  rw [checkStackSize, get_bind_apply, require, ensure]
  split_ifs <;> rfl

theorem evalPlain_eq (hops : m.opCount + op.ops ≤ maxOps) : evalPlain env op m =
    plainOpcode env op { m with pc := m.pc + 1, opCount := m.opCount + op.ops } >>= fun r =>
      checkStackSize r.2 := by
  have hcount : (advance 1 >>= fun _ => countOp op) m =
      .ok ((), { m with pc := m.pc + 1, opCount := m.opCount + op.ops }) := by
    rw [countOp_eq op (by omega), skip_eq, if_pos hops]
  have hassoc : evalPlain env op = (advance 1 >>= fun _ => countOp op) >>= fun _ =>
      plainOpcode env op >>= fun _ => checkStackSize := (bind_assoc _ _ _).symm
  rw [hassoc, bind_apply_of_ok hcount, bind_apply]

variable {s s' alt alt' : List Bytes} {pc pc' ops ops' codesep codesep' : ℕ} {a b : Bytes}

theorem evalPlain_of_ok {n : ℕ} (hops : ops + op.ops ≤ maxOps)
    (hop : plainOpcode env op ⟨s, alt, pc + 1, ops + op.ops, codesep⟩ =
      .ok ((), ⟨s', alt', pc', ops', codesep'⟩)) (hsize : s'.length + alt'.length = n) :
    evalPlain env op ⟨s, alt, pc, ops, codesep⟩ = if n ≤ maxStackSize then
      .ok ((), ⟨s', alt', pc', ops', codesep'⟩) else .error (.error .stackOverflow) := by
  rw [evalPlain_eq hops, hop, ok_bind, checkStackSize_eq, hsize]

theorem pushData_append {script rest : Bytes} (hpc : pc ≤ script.length)
    (hdrop : script.drop pc = data ++ rest) (hsize : data.length ≤ maxPushSize) :
    pushData script data.length ⟨s, alt, pc, ops, codesep⟩ =
      .ok ((), ⟨s ++ [data], alt, pc + data.length, ops, codesep⟩) := by
  have hlen := congrArg List.length hdrop
  rw [List.length_drop, List.length_append] at hlen
  have hfit : pc + data.length ≤ script.length := by omega
  rw [pushData_eq, if_pos ⟨hsize, hfit⟩]
  simp only [hdrop, List.take_left]

theorem hashTop_append (hash : Bytes → Bytes) :
    hashTop hash ⟨s ++ [a], alt, pc, ops, codesep⟩ = .ok ((), ⟨s ++ [hash a], alt, pc, ops, codesep⟩) := by
  rw [hashTop, bind_apply_of_ok pop_append]
  rfl

theorem opEqual_append : plainOpcode env .opEqual ⟨s ++ [a] ++ [b], alt, pc, ops, codesep⟩ =
    .ok ((), ⟨s ++ [if a = b then [0x01] else []], alt, pc, ops, codesep⟩) := by
  rw [plainOpcode, bind_apply_of_ok (requireStack_of_le (by simp)), bind_apply_of_ok pop_append,
    bind_apply_of_ok pop_append]
  rfl

end Plain

/-- OP_HASH160, the push of twenty bytes, OP_EQUAL. -/
def p2shScript (hash : Bytes) : Bytes := 0xa9 :: 0x14 :: (hash ++ [0x87])

def hash160 (crypto : Crypto) (data : Bytes) : Bytes := crypto.ripemd160 (crypto.sha256 data)

section P2sh

variable {crypto : Crypto} {ctx : SignatureContext} {hash : Bytes}

def p2shBlock (hash : Bytes) (h : hash.length = 20) : Block :=
  .plain ⟨0xa9, [], by decide, by decide⟩ <|
    .plain ⟨0x14, hash, isWhole_cons.mpr (by rw [h]; rfl), by decide⟩ <|
      .plain ⟨0x87, [], by decide, by decide⟩ .nil

theorem bytes_p2shBlock (h : hash.length = 20) : (p2shBlock hash h).bytes = p2shScript hash := rfl

theorem enabled_p2shBlock (h : hash.length = 20) : (p2shBlock hash h).Enabled :=
  ⟨rfl, rfl, rfl, trivial⟩

theorem isP2sh_p2shScript (h : hash.length = 20) : isP2sh (p2shScript hash) := by
  have hlen : (p2shScript hash).length = 23 := by simp [p2shScript, h]
  have hlast : (p2shScript hash)[22]? = some 0x87 := by
    rw [p2shScript, List.getElem?_cons_succ, List.getElem?_cons_succ,
      List.getElem?_append_right h.le, h]
    rfl
  simp only [isP2sh, hlen, hlast, decide_eq_true_eq]
  exact ⟨trivial, rfl, rfl, trivial⟩

theorem eval_p2shBlock (h : hash.length = 20) (m : Machine) :
    (p2shBlock hash h).eval ⟨crypto, p2shScript hash, some ctx⟩ m =
      (evalPlain ⟨crypto, p2shScript hash, some ctx⟩ .opHash160 >>= fun _ =>
        evalPlain ⟨crypto, p2shScript hash, some ctx⟩ (.pushBytes 0x14) >>= fun _ =>
          evalPlain ⟨crypto, p2shScript hash, some ctx⟩ .opEqual) m := by
  rw [p2shBlock, Block.eval, Block.eval, Block.eval, Block.eval]
  simp only [bind_pure_unit]
  rfl

section Instructions

variable {init : List Bytes} {top : Bytes}

theorem eval_hash160 : evalPlain ⟨crypto, p2shScript hash, some ctx⟩ .opHash160
    ⟨init ++ [top], [], 0, 0, 0⟩ = if init.length + 1 ≤ maxStackSize then
      .ok ((), ⟨init ++ [hash160 crypto top], [], 1, 1, 0⟩) else .error (.error .stackOverflow) :=
  evalPlain_of_ok (by decide) (hashTop_append _) (by simp)

theorem eval_pushHash (h : hash.length = 20) :
    evalPlain ⟨crypto, p2shScript hash, some ctx⟩ (.pushBytes 0x14)
      ⟨init ++ [top], [], 1, 1, 0⟩ = if init.length + 2 ≤ maxStackSize then
        .ok ((), ⟨init ++ [top] ++ [hash], [], 22, 1, 0⟩) else .error (.error .stackOverflow) := by
  have hpush : pushData (p2shScript hash) 20 ⟨init ++ [top], [], 2, 1, 0⟩ =
      .ok ((), ⟨init ++ [top] ++ [hash], [], 22, 1, 0⟩) := by
    rw [← h]
    refine (pushData_append ?_ rfl ?_).trans (by rw [h])
    · simp [p2shScript]
    · rw [h]
      decide
  exact evalPlain_of_ok (by decide) hpush (by simp)

theorem eval_equal (h : init.length + 2 ≤ maxStackSize) :
    evalPlain ⟨crypto, p2shScript hash, some ctx⟩ .opEqual
      ⟨init ++ [top] ++ [hash], [], 22, 1, 0⟩ =
        .ok ((), ⟨init ++ [if top = hash then [0x01] else []], [], 23, 2, 0⟩) := by
  have hsize : init.length + 1 ≤ maxStackSize := by omega
  exact (evalPlain_of_ok (by decide) opEqual_append (by simp)).trans (if_pos hsize)

end Instructions

theorem execute_p2sh (h : hash.length = 20) (init : List Bytes) (top : Bytes) :
    execute ⟨crypto, p2shScript hash, some ctx⟩ (init ++ [top]) =
      if init.length + 2 ≤ maxStackSize then
        .ok (init ++ [if hash160 crypto top = hash then [0x01] else []])
      else .error (.error .stackOverflow) := by
  have hlen : (p2shScript hash).length = 23 := by simp [p2shScript, h]
  rw [← bytes_p2shBlock h, execute_block _ _ (enabled_p2shBlock h), evalScript, bytes_p2shBlock,
    require_eq_ok (by rw [hlen]; decide), ok_bind, eval_p2shBlock, bind_apply, eval_hash160]
  by_cases hone : init.length + 1 ≤ maxStackSize
  · rw [if_pos hone, ok_bind, bind_apply, eval_pushHash h]
    by_cases htwo : init.length + 2 ≤ maxStackSize
    · rw [if_pos htwo, if_pos htwo, ok_bind, eval_equal htwo]
      rfl
    · rw [if_neg htwo, if_neg htwo]
      rfl
  · rw [if_neg hone, if_neg (by omega)]
    rfl

theorem requireTruthyTop_eq_ok {stack : List Bytes} :
    requireTruthyTop stack = .ok () ↔ ∃ top, stack.getLast? = some top ∧ isTruthy top := by
  rw [requireTruthyTop, require, ensure_eq_ok, Option.any_eq_true]

theorem not_isTruthy_nil : ¬ isTruthy [] := by decide

theorem truthy_p2sh_iff (h : hash.length = 20) {init out : List Bytes} {top : Bytes} :
    (execute ⟨crypto, p2shScript hash, some ctx⟩ (init ++ [top]) = .ok out ∧
      requireTruthyTop out = .ok ()) ↔
      (init.length + 2 ≤ maxStackSize ∧ hash160 crypto top = hash ∧ out = init ++ [[0x01]]) := by
  rw [execute_p2sh h, requireTruthyTop_eq_ok]
  constructor
  · rintro ⟨hrun, last, hlast, htrue⟩
    split_ifs at hrun with hroom hhash
    · cases hrun
      exact ⟨hroom, hhash, rfl⟩
    · cases hrun
      rw [List.getLast?_concat] at hlast
      cases hlast
      exact absurd htrue not_isTruthy_nil
  · rintro ⟨hroom, hhash, rfl⟩
    rw [if_pos hroom, if_pos hhash]
    exact ⟨rfl, [0x01], List.getLast?_concat, by decide⟩

end P2sh

/-- A pay-to-script-hash output is spent exactly by pushing a script with the hash
and what makes it true. -/
theorem verifyScript_p2sh_iff (crypto : Crypto) (ctx : SignatureContext) (hash scriptSig : Bytes)
    (h : hash.length = 20) :
    verifyScript crypto scriptSig (p2shScript hash) ctx = .ok () ↔
      (∀ i ∈ instructions scriptSig, isPushInstruction i) ∧
      ∃ stack, execute ⟨crypto, scriptSig, some ctx⟩ [] = .ok stack ∧
        1 ≤ stack.length ∧ stack.length ≤ 999 ∧
        ∃ redeemScript, stack.getLast? = some redeemScript ∧ hash160 crypto redeemScript = hash ∧
          ∃ result, execute ⟨crypto, redeemScript, some ctx⟩ stack.dropLast = .ok result ∧
            ∃ top, result.getLast? = some top ∧ isTruthy top := by
  have hmax : maxStackSize = 1000 := rfl
  constructor
  · intro hverify
    obtain ⟨stack, hsig, hverify⟩ := bind_eq_ok.mp hverify
    obtain ⟨final, hpub, hverify⟩ := bind_eq_ok.mp hverify
    obtain ⟨_, htrue, hverify⟩ := bind_eq_ok.mp hverify
    rw [if_pos (isP2sh_p2shScript h)] at hverify
    obtain ⟨_, hpushes, hverify⟩ := bind_eq_ok.mp hverify
    obtain ⟨redeem, hredeem, hverify⟩ := bind_eq_ok.mp hverify
    obtain ⟨result, hresult, htop⟩ := bind_eq_ok.mp hverify
    have hlast := okOr_eq_ok.mp hredeem
    have hstack := List.dropLast_append_getLast? redeem hlast
    rw [← hstack] at hpub
    obtain ⟨hroom, hhash, -⟩ := (truthy_p2sh_iff h).mp ⟨hpub, htrue⟩
    have hlen := congrArg List.length hstack
    rw [List.length_append, List.length_singleton] at hlen
    refine ⟨(isPushOnly_iff (complete_of_execute hsig)).mp (ensure_eq_ok.mp hpushes), stack, hsig,
      by omega, by omega, redeem, hlast, hhash, result, hresult, requireTruthyTop_eq_ok.mp htop⟩
  · rintro ⟨hpushes, stack, hsig, hpos, hle, redeem, hlast, hhash, result, hresult, htop⟩
    have hstack := List.dropLast_append_getLast? redeem hlast
    have hroom : stack.dropLast.length + 2 ≤ maxStackSize := by
      rw [List.length_dropLast]
      omega
    obtain ⟨hpub, htrue⟩ := (truthy_p2sh_iff h).mpr ⟨hroom, hhash, rfl⟩
    rw [hstack] at hpub
    rw [verifyScript, hsig, ok_bind, hpub, ok_bind, htrue, ok_bind, if_pos (isP2sh_p2shScript h),
      require_eq_ok ((isPushOnly_iff (complete_of_execute hsig)).mpr hpushes), ok_bind,
      demand_eq_ok hlast, ok_bind, hresult, ok_bind, requireTruthyTop_eq_ok.mpr htop]

/-- OP_1 as the script that is hashed. -/
theorem verifies_p2sh_true :
    verifyScript plainCrypto [0x01, 0x51] (p2shScript (List.replicate 20 0)) plainContext = .ok () :=
  (verifyScript_p2sh_iff plainCrypto plainContext (List.replicate 20 0) [0x01, 0x51] rfl).mpr
    ⟨by decide, [[0x51]], by decide +kernel, by decide, by decide, [0x51], rfl, rfl, [[0x01]],
      by decide +kernel, [0x01], rfl, by decide⟩

section Height

variable {crypto : Crypto} {sigCtx : Option SignatureContext}

theorem execute_push (i : PlainInstr) (hpush : i.opcode.isPush) (pc : ℕ)
    (hsize : (i.op :: i.rest).length ≤ maxScriptSize)
    (hop : plainOpcode ⟨crypto, i.op :: i.rest, sigCtx⟩ i.opcode ⟨[], [], 1, 0, 0⟩ =
      .ok ((), ⟨[data], [], pc, 0, 0⟩)) :
    execute ⟨crypto, i.op :: i.rest, sigCtx⟩ [] = .ok [data] := by
  have hops : i.opcode.ops = 0 := by rw [Opcode.ops, if_pos hpush]
  have hone : 1 ≤ maxStackSize := by decide
  have henabled : i.opcode.isDisabled = false := by
    cases hopcode : i.opcode with
    | disabled => rw [hopcode] at hpush; cases hpush
    | _ => rfl
  have hbytes : (Block.plain i .nil).bytes = i.op :: i.rest := by
    rw [Block.bytes, Block.bytes, List.append_nil]
  have heval : evalPlain ⟨crypto, i.op :: i.rest, sigCtx⟩ i.opcode ⟨[], [], 0, 0, 0⟩ =
      .ok ((), ⟨[data], [], pc, 0, 0⟩) := by
    have hroom : 0 + i.opcode.ops ≤ maxOps := by
      rw [hops]
      decide
    have hrun : plainOpcode ⟨crypto, i.op :: i.rest, sigCtx⟩ i.opcode
        ⟨[], [], 0 + 1, 0 + i.opcode.ops, 0⟩ = .ok ((), ⟨[data], [], pc, 0, 0⟩) := by
      rw [hops]
      exact hop
    exact (evalPlain_of_ok hroom hrun rfl).trans (if_pos hone)
  have hblock : (Block.plain i .nil).Enabled := ⟨henabled, trivial⟩
  rw [← hbytes] at hsize ⊢
  rw [execute_block _ _ hblock, evalScript, require_eq_ok hsize, ok_bind, hbytes,
    Block.eval, bind_apply, heval]
  rfl

theorem minimalBytes_of_lt {k n : ℕ} (h : n < 256 ^ k) (extra : ℕ) :
    minimalBytes (k + extra) n = minimalBytes k n := by
  induction k generalizing n with
  | zero =>
    obtain rfl : n = 0 := by simpa using h
    cases extra <;> rfl
  | succ k ih =>
    have hdiv : n / 256 < 256 ^ k := Nat.div_lt_of_lt_mul (by rwa [← pow_succ'])
    rw [Nat.succ_add, minimalBytes, minimalBytes, ih hdiv]

theorem encodeScriptHeight_eq {height : UInt32} (h : 16 < height.toNat) :
    encodeScriptHeight height =
      UInt8.ofNat (encodeScriptNumber height.toNat).length :: encodeScriptNumber height.toNat := by
  have hzero : height ≠ 0 := by
    rintro rfl
    exact absurd h (by decide)
  have hlarge : ¬ height ≤ 16 := fun hle => absurd (UInt32.le_iff_toNat_le.mp hle) (Nat.not_le_of_lt h)
  have hbytes : minimalBytes 8 height.toNat = minimalBytes 4 height.toNat :=
    minimalBytes_of_lt height.toNat_lt 4
  have hsign : ¬ ((height.toNat : ℤ) < 0) := by omega
  have hdata : encodeScriptNumber height.toNat =
      if (minimalBytes 4 height.toNat).getLast?.any (fun last => last &&& 0x80 ≠ 0) then
        minimalBytes 4 height.toNat ++ [0x00] else minimalBytes 4 height.toNat := by
    rw [encodeScriptNumber, Int.natAbs_natCast, hbytes]
    cases hlast : (minimalBytes 4 height.toNat).getLast? with
    | none => rw [List.getLast?_eq_none_iff.mp hlast]; rfl
    | some last => simp [hsign]
  rw [encodeScriptHeight, if_neg hzero, if_neg hlarge, hdata]

theorem opcode_of_small : ∀ n < 17, n ≠ 0 → isWhole [UInt8.ofNat (0x50 + n)] ∧
    Opcode.ofByte (UInt8.ofNat (0x50 + n)) = .opN (UInt8.ofNat n) ∧
      encodeScriptNumber n = [UInt8.ofNat n] := by
  decide

theorem opcode_of_length : ∀ n < 6, n ≠ 0 → (UInt8.ofNat n).toNat = n ∧ UInt8.ofNat n ≤ 0x4b ∧
    Opcode.ofByte (UInt8.ofNat n) = .pushBytes (UInt8.ofNat n) := by
  decide

theorem execute_pushBytes (hne : data ≠ []) (hlen : data.length ≤ 5) :
    execute ⟨crypto, UInt8.ofNat data.length :: data, sigCtx⟩ [] = .ok [data] := by
  have hpos := List.length_pos_iff.mpr hne
  obtain ⟨hnat, hle, hof⟩ := opcode_of_length data.length (by omega) hpos.ne'
  have hwhole : isWhole (UInt8.ofNat data.length :: data) := by
    rw [isWhole_cons, instructionSize, if_pos hle, hnat, Nat.add_comm]
  have hplain : (Opcode.ofByte (UInt8.ofNat data.length)).isControl = false := by rw [hof]; rfl
  refine execute_push ⟨UInt8.ofNat data.length, data, hwhole, hplain⟩ ?_ (1 + data.length) ?_ ?_
  · rw [PlainInstr.opcode, hof]
    rfl
  · change data.length + 1 ≤ 10000
    omega
  · have hmax : maxPushSize = 520 := rfl
    rw [PlainInstr.opcode, hof, plainOpcode, hnat]
    exact pushData_append (Nat.le_add_left _ _) (List.append_nil data).symm (by omega)

theorem execute_encodeScriptHeight (crypto : Crypto) (sigCtx : Option SignatureContext)
    (height : UInt32) :
    execute ⟨crypto, encodeScriptHeight height, sigCtx⟩ [] =
      .ok [encodeScriptNumber height.toNat] := by
  by_cases hzero : height = 0
  · subst hzero
    exact execute_push ⟨0x00, [], by decide, by decide⟩ rfl 1 (by decide) rfl
  have hpos : height.toNat ≠ 0 := fun h => hzero (UInt32.toNat_inj.mp h)
  by_cases hsmall : height ≤ 16
  · have hle : height.toNat ≤ 16 := hsmall
    obtain ⟨hwhole, hof, hnum⟩ := opcode_of_small height.toNat (by omega) hpos
    have hplain : (Opcode.ofByte (UInt8.ofNat (0x50 + height.toNat))).isControl = false := by
      rw [hof]
      rfl
    rw [encodeScriptHeight, if_neg hzero, if_pos hsmall, hnum]
    refine execute_push ⟨UInt8.ofNat (0x50 + height.toNat), [], hwhole, hplain⟩ ?_ 1 (by simp [maxScriptSize]) ?_
    · rw [PlainInstr.opcode, hof]
      rfl
    · rw [PlainInstr.opcode, hof]
      rfl
  · have hlarge : 16 < height.toNat := Nat.lt_of_not_le hsmall
    rw [encodeScriptHeight_eq hlarge]
    have hbound : (height.toNat : ℤ).natAbs < half 5 := height.toNat_lt.trans (by decide)
    obtain ⟨hvalue, hshort⟩ := @encodeScriptNumber_spec height.toNat (hbound.trans (by decide))
    refine execute_pushBytes (fun hnil => ?_) (hshort.length_le (by decide) (by rwa [hvalue]))
    rw [hnil] at hvalue
    exact hpos (Int.natCast_eq_zero.mp hvalue.symm)

end Height

/-- A height is one number on the stack, and the script of a coinbase has only
one height. -/
theorem bip34_heights_unambiguous :
    (∀ (crypto : Crypto) (sigCtx : Option SignatureContext) (height : UInt32),
      execute ⟨crypto, encodeScriptHeight height, sigCtx⟩ [] =
        .ok [encodeScriptNumber height.toNat]) ∧
    (∀ (coinbase coinbase' : Transaction) (height height' : UInt32), height ≠ height' →
      (coinbase.vin.map TxIn.scriptSig).headD [] = (coinbase'.vin.map TxIn.scriptSig).headD [] →
      ¬ (checkBip34Height coinbase height = .ok () ∧ checkBip34Height coinbase' height' = .ok ())) ∧
    ∀ (block block' : Types.Block) (height height' mtp mtp' adjusted adjusted' : UInt32)
      (coinbase coinbase' : Transaction), height ≠ height' →
      111 ≤ height.toNat → 111 ≤ height'.toNat →
      checkBlockContext block height mtp adjusted = .ok () →
      checkBlockContext block' height' mtp' adjusted' = .ok () →
      block.transactions.head? = some coinbase → block'.transactions.head? = some coinbase' →
      coinbase ≠ coinbase' := by
  refine ⟨execute_encodeScriptHeight, fun coinbase coinbase' height height' hne hscript hboth => ?_, ?_⟩
  · have hheight := decodeScriptHeight_of_bip34 hboth.1
    rw [hscript, decodeScriptHeight_of_bip34 hboth.2] at hheight
    exact hne (UInt32.toNat_inj.mp hheight.symm)
  · intro block block' height height' mtp mtp' adjusted adjusted' coinbase coinbase' hne hfrom hfrom'
      hcheck hcheck' hhead hhead' hsame
    subst hsame
    have hheight := decodeScriptHeight_of_context hcheck hfrom hhead
    rw [decodeScriptHeight_of_context hcheck' hfrom' hhead'] at hheight
    exact hne (UInt32.toNat_inj.mp hheight.symm)

end Ironcat.Script
