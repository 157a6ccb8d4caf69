import Ironcat.Script.Standard

/-!
# The push limit in branches

`push_data` refuses more than 520 bytes, `skip_bytes` skips any number of them.
A script that is executed to its end can hold longer pushes, but only where it
was not executed.
-/

namespace Ironcat.Script

open Lib.ByteCodec Lib.Checked Lib.Hoare Types SignatureHash

def Opcode.headerSize : Opcode → ℕ
  | .pushData1 => 2
  | .pushData2 => 3
  | .pushData4 => 5
  | _ => 1

theorem Opcode.headerSize_pos (op : Opcode) : 0 < op.headerSize := by
  unfold headerSize
  split <;> decide

/-- What a push instruction pushes. -/
def payload : Bytes → Bytes
  | [] => []
  | op :: rest => (op :: rest).drop (Opcode.ofByte op).headerSize

theorem isControl_of_hasPayload {op : Opcode} (h : op.hasPayload) : op.isControl = false := by
  cases op with
  | opIf | opNotIf | opElse | opEndIf => cases h
  | _ => rfl

section Operand

variable {script : Bytes} {p : ℕ} {byte : UInt8} {rest : Bytes} {m m' : Machine} {n : ℕ}

theorem readLen_pc {k : ℕ} (hpc : m.pc ≤ script.length) (h : readLen script k m = .ok (n, m')) :
    m'.pc = m.pc + k := by
  rw [readLen_eq hpc] at h
  split_ifs at h
  cases h
  rfl

theorem readOperand_pc {op : Opcode} (hop : op.hasPayload) (hpc : m.pc ≤ script.length)
    (h : readOperand script op m = .ok (n, m')) : m'.pc + 1 = m.pc + op.headerSize := by
  cases op with
  | pushBytes => cases h; rfl
  | pushData1 => rw [readLen_pc hpc h]; rfl
  | pushData2 => rw [readLen_pc hpc h]; rfl
  | pushData4 => rw [readLen_pc hpc h]; rfl
  | _ => cases hop

theorem length_payload (hbyte : script.drop p = byte :: rest)
    (hfit : p + instructionSize byte rest ≤ script.length) :
    (payload (instructionAt script p)).length =
      instructionSize byte rest - (Opcode.ofByte byte).headerSize := by
  have hlen := congrArg List.length hbyte
  rw [List.length_drop] at hlen
  obtain ⟨k, hk⟩ : ∃ k, instructionSize byte rest = k + 1 :=
    Nat.exists_eq_succ_of_ne_zero (instructionSize_pos byte rest).ne'
  rw [instructionAt_eq hbyte, hk, List.take_succ_cons, payload, List.length_drop, ← List.take_succ_cons,
    List.length_take, ← hlen]
  omega

theorem length_payload_le (hbyte : script.drop p = byte :: rest) (hm : m.pc = p + 1)
    (hop : (Opcode.ofByte byte).hasPayload)
    (h : (readOperand script (Opcode.ofByte byte) >>= pushData script) m = .ok ((), m')) :
    (payload (instructionAt script p)).length ≤ maxPushSize := by
  have hlt := lt_of_drop_eq hbyte
  rcases readOperand_cases hbyte hm hop with ⟨n, q, hread, hq⟩ | ⟨hread, -⟩
  · have hheader := readOperand_pc hop (by omega) hread
    rw [bind_apply_of_ok hread, pushData_eq] at h
    split_ifs at h with hsize
    rw [length_payload hbyte (hq ▸ hsize.2)]
    dsimp only at hheader
    omega
  · rw [bind_apply_of_error hread] at h
    cases h

end Operand

section Run

variable {env : Env} {stack : List Bytes} {e e' : Engine}

theorem LoopHead.payload_le (h : LoopHead env stack e) (hpc : e.pc < env.script.length)
    (hexec : isExecuting e) (hstep : step env e = .ok ((), e')) :
    (payload (instructionAt env.script e.pc)).length ≤ maxPushSize := by
  obtain ⟨byte, rest, hbyte⟩ := drop_pc_eq hpc
  obtain ⟨hmove, hfit⟩ := h.step_pc hbyte hstep
  by_cases hop : (Opcode.ofByte byte).hasPayload
  · have hops := h.opCount_le
    rw [step_plain hbyte (enabled_of_step hbyte hstep) (isControl_of_hasPayload hop) hexec,
      onMachine_eq, evalPlain_eq (by rw [Opcode.ops_of_hasPayload hop]; exact hops)] at hstep
    obtain ⟨r, hrun, -⟩ := map_eq_ok.mp hstep
    obtain ⟨⟨⟨⟩, m⟩, hpush, -⟩ := bind_eq_ok.mp hrun
    rw [plainOpcode_payload hop] at hpush
    exact length_payload_le hbyte rfl hop hpush
  · rw [length_payload hbyte (hmove ▸ hfit), instructionSize_of_not_payload rest hop]
    have hheader := (Opcode.ofByte byte).headerSize_pos
    omega

theorem LoopHead.instructions_suffix (h : LoopHead env stack e) :
    ∃ k, env.script.length ≤ e.pc + k ∧
      splitInstructions k (env.script.drop e.pc) <:+ instructions env.script := by
  induction h with
  | start => exact ⟨env.script.length, Nat.le_add_left _ _, List.suffix_rfl⟩
  | next h hpc hstep ih =>
    obtain ⟨k, hk, hsuffix⟩ := ih
    obtain ⟨byte, rest, hbyte⟩ := drop_pc_eq hpc
    have hmove := (h.step_pc hbyte hstep).1
    have hlt := h.pc_lt hpc hstep
    obtain ⟨k, rfl⟩ : ∃ k', k = k' + 1 := Nat.exists_eq_succ_of_ne_zero (by omega)
    refine ⟨k, by omega, ?_⟩
    rw [hbyte, splitInstructions, ← hbyte, List.drop_drop, ← hmove] at hsuffix
    exact (List.suffix_cons _ _).trans hsuffix

theorem LoopHead.instructionAt_mem (h : LoopHead env stack e) (hpc : e.pc < env.script.length) :
    instructionAt env.script e.pc ∈ instructions env.script := by
  obtain ⟨k, hk, hsuffix⟩ := h.instructions_suffix
  obtain ⟨byte, rest, hbyte⟩ := drop_pc_eq hpc
  obtain ⟨k, rfl⟩ : ∃ k', k = k' + 1 := Nat.exists_eq_succ_of_ne_zero (by omega)
  refine hsuffix.subset ?_
  rw [hbyte, splitInstructions, instructionAt_eq hbyte]
  exact List.mem_cons_self

end Run

/-- A script that is executed to its end has all its pushes within the limit if
and only if those it skipped are. -/
theorem pushes_in_limit_iff (env : Env) (stack out : List Bytes) (h : execute env stack = .ok out) :
    (∀ i ∈ instructions env.script, isPushInstruction i → (payload i).length ≤ maxPushSize) ↔
      ∀ e, LoopHead env stack e → e.pc < env.script.length → isExecuting e = false →
        isPushInstruction (instructionAt env.script e.pc) →
        (payload (instructionAt env.script e.pc)).length ≤ maxPushSize := by
  constructor
  · intro hall e he hpc _ hpush
    exact hall _ (he.instructionAt_mem hpc) hpush
  · intro hskipped i hi hpush
    obtain ⟨v, v', hv, hpc, hstep, rfl⟩ := visits_of_execute h i hi
    cases hexec : isExecuting v with
    | true => exact hv.payload_le hpc hexec hstep
    | false => exact hskipped v hv hpc hexec hpush

def shortSkippedPush : Env := ⟨plainCrypto, [0x00, 0x63, 0x01, 0xaa, 0x68], none⟩

theorem skipped_push_in_limit : execute shortSkippedPush [] = .ok [] ∧
    ∀ e, LoopHead shortSkippedPush [] e → e.pc < 5 → isExecuting e = false →
      isPushInstruction (instructionAt shortSkippedPush.script e.pc) →
      (payload (instructionAt shortSkippedPush.script e.pc)).length ≤ maxPushSize :=
  have hrun : execute shortSkippedPush [] = .ok [] := by decide +kernel
  ⟨hrun, (pushes_in_limit_iff shortSkippedPush [] [] hrun).mp (by decide)⟩

def longSkippedPush : Bytes := [0x00, 0x63, 0x4d, 0x09, 0x02] ++ List.replicate 521 0x00 ++ [0x68]

theorem longSkippedPush_executes :
    execute ⟨plainCrypto, longSkippedPush, none⟩ [] = .ok [] ∧
      ∃ i ∈ instructions longSkippedPush, isPushInstruction i ∧ maxPushSize < (payload i).length := by
  decide +kernel

end Ironcat.Script
