import Ironcat.Script.Walkers

/-!
# Conditionals as blocks

The engine reads a script as a flat sequence of instructions and keeps a list of
conditions. Here scripts are blocks of plain instructions and conditionals, with
an interpreter that follows the structure: a condition is popped where the
enclosing block is executed, the branches alternate from there, and a branch that
is not taken only counts its operations. The engine computes the same.
-/

namespace Ironcat.Script

open Lib.ByteCodec Lib.Checked Lib.Hoare Types SignatureHash

def Opcode.isControl : Opcode → Bool
  | .opIf | .opNotIf | .opElse | .opEndIf => true
  | _ => false

structure PlainInstr where
  op : UInt8
  rest : Bytes
  whole : isWhole (op :: rest)
  plain : (Opcode.ofByte op).isControl = false

def PlainInstr.opcode (i : PlainInstr) : Opcode := Opcode.ofByte i.op

mutual

inductive Block
  | nil
  | plain (instr : PlainInstr) (next : Block)
  | cond (negated : Bool) (branches : Branches) (next : Block)

inductive Branches
  | last (body : Block)
  | orElse (body : Block) (rest : Branches)

end

mutual

def Block.bytes : Block → Bytes
  | .nil => []
  | .plain i next => i.op :: (i.rest ++ next.bytes)
  | .cond negated branches next =>
    (if negated then 0x64 else 0x63) :: (branches.bytes ++ next.bytes)

def Branches.bytes : Branches → Bytes
  | .last body => body.bytes ++ [0x68]
  | .orElse body rest => body.bytes ++ 0x67 :: rest.bytes

end

def Opcode.ops (op : Opcode) : ℕ := if op.isPush then 0 else 1

mutual

def Block.ops : Block → ℕ
  | .nil => 0
  | .plain i next => i.opcode.ops + next.ops
  | .cond _ branches next => 1 + (branches.ops + next.ops)

def Branches.ops : Branches → ℕ
  | .last body => body.ops + 1
  | .orElse body rest => body.ops + 1 + rest.ops

end

mutual

/-- No disabled opcode, in branches that are taken and in those that are not. -/
def Block.Enabled : Block → Prop
  | .nil => True
  | .plain i next => i.opcode.isDisabled = false ∧ next.Enabled
  | .cond _ branches next => branches.Enabled ∧ next.Enabled

def Branches.Enabled : Branches → Prop
  | .last body => body.Enabled
  | .orElse body rest => body.Enabled ∧ rest.Enabled

end

section Eval

variable (env : Env)

def advance (n : ℕ) : Exec Unit := modify fun m => { m with pc := m.pc + n }

def skip (ops bytes : ℕ) : Exec Unit := do
  advance bytes
  addOps ops

def evalPlain (opcode : Opcode) : Exec Unit := do
  advance 1
  countOp opcode
  plainOpcode env opcode
  checkStackSize

def evalIf (negated : Bool) : Exec Bool := do
  skip 1 1
  let top ← pop
  checkStackSize
  return isTruthy top != negated

def evalMarker (taken : Bool) : Exec Unit := do
  skip 1 1
  if taken then checkStackSize else pure ()

mutual

def Block.eval : Block → Exec Unit
  | .nil => pure ()
  | .plain i next => do
    evalPlain env i.opcode
    next.eval
  | .cond negated branches next => do
    let taken ← evalIf negated
    branches.eval taken
    next.eval

def Branches.eval (taken : Bool) : Branches → Exec Unit
  | .last body => do
    (if taken then body.eval else skip body.ops body.bytes.length)
    evalMarker taken
  | .orElse body rest => do
    (if taken then body.eval else skip body.ops body.bytes.length)
    evalMarker taken
    rest.eval (!taken)

end

/-- The script `b.bytes`, by its structure. -/
def evalScript (crypto : Crypto) (sigCtx : Option SignatureContext) (b : Block) (stack : List Bytes) :
    Except Fault (List Bytes) := do
  require (b.bytes.length ≤ maxScriptSize) .scriptTooLarge
  let (_, m) ← b.eval ⟨crypto, b.bytes, sigCtx⟩ ⟨stack, [], 0, 0, 0⟩
  return m.stack

end Eval

variable {α β : Type} {negated : Bool}

section Step

variable {env : Env} {e : Engine} {byte : UInt8} {tail : Bytes}

theorem skip_eq (ops bytes : ℕ) (m : Machine) : skip ops bytes m =
    if m.opCount + ops ≤ maxOps then
      .ok ((), { m with pc := m.pc + bytes, opCount := m.opCount + ops })
    else .error (.error .tooManyOps) := by
  change addOps ops { m with pc := m.pc + bytes } = _
  rw [addOps_eq]

theorem skip_bind_skip (ops bytes ops' bytes' : ℕ) :
    (skip ops bytes >>= fun _ => skip ops' bytes') = skip (ops + ops') (bytes + bytes') := by
  funext m
  rw [bind_apply, skip_eq, skip_eq, ← Nat.add_assoc]
  by_cases hops : m.opCount + ops ≤ maxOps
  · rw [if_pos hops, ok_bind, skip_eq, Nat.add_assoc m.pc]
  · rw [if_neg hops, error_bind, if_neg (by omega)]

theorem onMachine_bind_apply (prog : Exec α) (next : α → EngineM β) (e : Engine) :
    (onMachine prog >>= next) e =
      prog e.toMachine >>= fun r => next r.1 { e with toMachine := r.2 } := by
  rw [bind_apply, onMachine_eq]
  cases prog e.toMachine <;> rfl

theorem onMachine_bind (prog : Exec α) (next : α → Exec β) :
    onMachine (prog >>= next) = onMachine prog >>= fun a => onMachine (next a) := by
  funext e
  rw [onMachine_eq, onMachine_bind_apply, bind_apply, map_bind]
  exact bind_congr fun r => (onMachine_eq (next r.1) { e with toMachine := r.2 }).symm

theorem step_eq (hbyte : env.script.drop e.pc = byte :: tail)
    (henabled : (Opcode.ofByte byte).isDisabled = false) :
    step env e = (onMachine (advance 1 >>= fun _ => countOp (Opcode.ofByte byte)) >>= fun _ =>
      if isExecuting e then
        executeOpcode env (Opcode.ofByte byte) >>= fun _ => onMachine checkStackSize
      else skipOpcode env (Opcode.ofByte byte)) e := by
  rw [step, onMachine_bind_apply, readByte_eq, getElem?_of_drop_eq hbyte, ok_bind,
    ok_bind_apply (require_eq_ok (by simp [henabled])), onMachine_bind_apply, onMachine_bind_apply]
  rfl

theorem PlainInstr.instructionSize_eq (i : PlainInstr) (tail : Bytes) :
    instructionSize i.op (i.rest ++ tail) = i.rest.length + 1 :=
  instructionSize_of_prefix (isWhole_cons.mp i.whole) (List.prefix_append _ _)

variable {op : Opcode}

theorem executeOpcode_plain (hop : op.isControl = false) :
    executeOpcode env op = onMachine (plainOpcode env op) := by
  cases op with
  | opIf | opNotIf | opElse | opEndIf => cases hop
  | _ => rfl

theorem step_plain (hbyte : env.script.drop e.pc = byte :: tail)
    (henabled : (Opcode.ofByte byte).isDisabled = false)
    (hplain : (Opcode.ofByte byte).isControl = false) (hexec : isExecuting e) :
    step env e = onMachine (evalPlain env (Opcode.ofByte byte)) e := by
  rw [step_eq hbyte henabled, if_pos hexec, executeOpcode_plain hplain, ← onMachine_bind,
    ← onMachine_bind, bind_assoc]
  rfl

theorem step_if (hbyte : env.script.drop e.pc = (if negated then 0x64 else 0x63) :: tail)
    (hexec : isExecuting e) :
    step env e = (evalIf negated e.toMachine).map fun r =>
      ((), ⟨r.2, e.conditions ++ [r.1]⟩) := by
  have hcount : (advance 1 >>= fun _ => countOp (Opcode.ofByte (if negated then 0x64 else 0x63))) =
      skip 1 1 := by
    cases negated <;> rfl
  have hpush : executeOpcode env (Opcode.ofByte (if negated then 0x64 else 0x63)) =
      onMachine pop >>= fun top => pushCondition (isTruthy top != negated) := by
    cases negated with
    | false => simp only [Bool.bne_false]; rfl
    | true => simp only [Bool.bne_true]; rfl
  rw [step_eq hbyte (by cases negated <;> rfl), if_pos hexec, hcount, hpush, bind_assoc,
    onMachine_bind_apply, evalIf, bind_apply, map_bind]
  refine bind_congr fun r => ?_
  rw [onMachine_bind_apply, bind_apply, map_bind]
  refine bind_congr fun popped => ?_
  change onMachine checkStackSize ⟨popped.2, e.conditions ++ [isTruthy popped.1 != negated]⟩ = _
  rw [onMachine_eq, bind_apply]
  cases checkStackSize popped.2 <;> rfl

theorem step_marker {conds : List Bool} (hbyte : env.script.drop e.pc = byte :: tail)
    (henabled : (Opcode.ofByte byte).isDisabled = false)
    (hpush : (Opcode.ofByte byte).isPush = false)
    (hconds : ∀ m, (if isExecuting e then executeOpcode env (Opcode.ofByte byte)
      else skipOpcode env (Opcode.ofByte byte)) ⟨m, e.conditions⟩ = .ok ((), ⟨m, conds⟩)) :
    step env e = (evalMarker (isExecuting e) e.toMachine).map fun r => ((), ⟨r.2, conds⟩) := by
  have hcount : (advance 1 >>= fun _ => countOp (Opcode.ofByte byte)) = skip 1 1 := by
    rw [countOp, if_neg (by rw [hpush]; nofun)]
    rfl
  rw [step_eq hbyte henabled, hcount, onMachine_bind_apply, evalMarker, bind_apply, map_bind]
  refine bind_congr fun r => ?_
  cases hexec : isExecuting e with
  | true =>
    rw [hexec, if_pos rfl] at hconds
    rw [if_pos rfl, if_pos rfl, bind_apply_of_ok (hconds r.2), onMachine_eq]
  | false =>
    rw [hexec, if_neg nofun] at hconds
    rw [if_neg nofun, if_neg nofun, hconds]
    rfl

theorem opElse_eq (m : Machine) (outer : List Bool) (last : Bool) :
    opElse ⟨m, outer ++ [last]⟩ = .ok ((), ⟨m, outer ++ [!last]⟩) := by
  rw [opElse, get_bind_apply, ok_bind_apply (demand_eq_ok List.getLast?_concat)]
  simp only [List.dropLast_concat]
  rfl

theorem opEndif_eq (m : Machine) (outer : List Bool) (last : Bool) :
    opEndif ⟨m, outer ++ [last]⟩ = .ok ((), ⟨m, outer⟩) := by
  rw [opEndif, get_bind_apply, ok_bind_apply (demand_eq_ok List.getLast?_concat)]
  simp only [List.dropLast_concat]
  rfl

theorem evalMarker_false : evalMarker false = skip 1 1 := bind_pure _

theorem step_skipped_if (hbyte : env.script.drop e.pc = (if negated then 0x64 else 0x63) :: tail)
    (hexec : isExecuting e = false) :
    step env e = (skip 1 1 e.toMachine).map fun r => ((), ⟨r.2, e.conditions ++ [false]⟩) := by
  rw [← evalMarker_false, ← hexec]
  refine step_marker hbyte ?_ ?_ fun m => ?_
  · cases negated <;> rfl
  · cases negated <;> rfl
  · rw [hexec, if_neg nofun]
    cases negated <;> rfl

inductive MarkerEnds (outer : List Bool) (taken : Bool) : UInt8 → List Bool → Prop
  | opElse : MarkerEnds outer taken 0x67 (outer ++ [!taken])
  | opEndIf : MarkerEnds outer taken 0x68 outer

theorem step_branchEnd {m : Machine} {outer conds : List Bool} {taken : Bool}
    (hmark : MarkerEnds outer taken byte conds) (hbyte : env.script.drop m.pc = byte :: tail) :
    step env ⟨m, outer ++ [taken]⟩ =
      (evalMarker ((outer ++ [taken]).all id) m).map fun r => ((), ⟨r.2, conds⟩) := by
  refine step_marker (e := ⟨m, outer ++ [taken]⟩) hbyte ?_ ?_ fun m' => ?_
  · cases hmark <;> rfl
  · cases hmark <;> rfl
  · cases hmark with
    | opElse =>
      change (if _ then opElse else opElse) _ = _
      rw [ite_self, opElse_eq]
    | opEndIf =>
      change (if _ then opEndif else opEndif) _ = _
      rw [ite_self, opEndif_eq]

theorem countOp_eq (op : Opcode) {m : Machine} (hops : m.opCount ≤ maxOps) :
    (advance 1 >>= fun _ => countOp op) m = skip op.ops 1 m := by
  unfold countOp Opcode.ops
  split_ifs
  · rw [skip_eq, if_pos (by exact hops)]
    rfl
  · rfl

theorem skipOpcode_plain (hop : op.isControl = false) (hpay : op.hasPayload = false) :
    skipOpcode env op = pure () := by
  cases op with
  | opIf | opNotIf | opElse | opEndIf => cases hop
  | pushBytes | pushData1 | pushData2 | pushData4 => cases hpay
  | _ => rfl

theorem Opcode.ops_of_hasPayload (hop : op.hasPayload) : op.ops = 0 := by
  cases op with
  | pushBytes | pushData1 | pushData2 | pushData4 => rfl
  | _ => cases hop

theorem step_skip (i : PlainInstr) (hbyte : env.script.drop e.pc = i.op :: (i.rest ++ tail))
    (henabled : i.opcode.isDisabled = false) (hexec : isExecuting e = false)
    (hops : e.opCount ≤ maxOps) :
    step env e = onMachine (skip i.opcode.ops (i.rest.length + 1)) e := by
  have hsize := i.instructionSize_eq tail
  rw [step_eq hbyte henabled, hexec, if_neg nofun, onMachine_bind_apply, countOp_eq _ hops]
  by_cases hpay : (Opcode.ofByte i.op).hasPayload
  · have hcount : e.opCount + (Opcode.ofByte i.op).ops ≤ maxOps := by
      rw [Opcode.ops_of_hasPayload hpay]
      exact hops
    have hfit : e.pc + (i.rest.length + 1) ≤ env.script.length := by
      have hdrop := congrArg List.length hbyte
      rw [List.length_drop, List.length_cons, List.length_append] at hdrop
      omega
    rw [skip_eq, if_pos hcount, ok_bind, skipOpcode_payload hpay, onMachine_eq, onMachine_eq,
      skip_operand hbyte rfl hpay, hsize, if_pos hfit, skip_eq]
    exact (congrArg _ (if_pos hcount)).symm
  · have hrest : i.rest = [] := by
      rw [instructionSize_of_not_payload _ hpay] at hsize
      exact List.length_eq_zero_iff.mp (by omega)
    rw [skipOpcode_plain i.plain (Bool.eq_false_of_not_eq_true hpay), hrest, onMachine_eq]
    change _ = (skip (Opcode.ofByte i.op).ops 1 e.toMachine).map _
    cases skip (Opcode.ofByte i.op).ops 1 e.toMachine <;> rfl

end Step

structure Simulates (env : Env) (stack : List Bytes) {α : Type} (e : Engine) (prog : Exec α)
    (size : ℕ) (conds : α → List Bool) : Prop where
  turns : ∃ n ≤ size, ∀ fuel, loop env (n + fuel) e =
    prog e.toMachine >>= fun r => loop env fuel ⟨r.2, conds r.1⟩
  ends : ∀ a m, prog e.toMachine = .ok (a, m) →
    LoopHead env stack ⟨m, conds a⟩ ∧ m.pc = e.pc + size

variable {prog : Exec α}

section Simulation

variable {env : Env} {stack : List Bytes} {e : Engine} {byte : UInt8} {tail : Bytes}

theorem LoopHead.opCount_le (h : LoopHead env stack e) : e.opCount ≤ maxOps := by
  obtain ⟨_, _, _, _, _, hhead⟩ := h.exists_atHead
  exact hhead.ops

theorem Simulates.of_step {size : ℕ} {conds : α → List Bool} (h : LoopHead env stack e)
    (hbyte : env.script.drop e.pc = byte :: tail) (hsize : instructionSize byte tail = size)
    (hstep : step env e = (prog e.toMachine).map fun r => ((), ⟨r.2, conds r.1⟩)) :
    Simulates env stack e prog size conds := by
  subst hsize
  have hpc := lt_of_drop_eq hbyte
  refine ⟨⟨1, instructionSize_pos _ _, fun fuel => ?_⟩, fun a m hprog => ?_⟩
  · rw [Nat.add_comm, loop_succ, if_pos hpc, hstep]
    cases prog e.toMachine <;> rfl
  · rw [hprog] at hstep
    exact ⟨h.next hpc hstep, (h.step_pc hbyte hstep).1⟩

theorem Simulates.bind {next : α → Exec β} {size size' : ℕ} {conds : α → List Bool}
    {conds' : β → List Bool} (h : Simulates env stack e prog size conds)
    (hnext : ∀ a m, LoopHead env stack ⟨m, conds a⟩ → m.pc = e.pc + size →
      Simulates env stack ⟨m, conds a⟩ (next a) size' conds') :
    Simulates env stack e (prog >>= next) (size + size') conds' := by
  obtain ⟨n, hn, hturns⟩ := h.turns
  cases hprog : prog e.toMachine with
  | error f =>
    refine ⟨⟨n, by omega, fun fuel => ?_⟩, fun b m hrun => ?_⟩
    · rw [hturns, bind_apply_of_error hprog, hprog, error_bind, error_bind]
    · rw [bind_apply_of_error hprog] at hrun
      cases hrun
  | ok r =>
    obtain ⟨hhead, hpc⟩ := h.ends r.1 r.2 hprog
    obtain ⟨⟨n', hn', hturns'⟩, hends⟩ := hnext r.1 r.2 hhead hpc
    refine ⟨⟨n + n', by omega, fun fuel => ?_⟩, fun b m hrun => ?_⟩
    · rw [Nat.add_assoc, hturns, bind_apply_of_ok hprog, hprog, ok_bind, hturns']
    · rw [bind_apply_of_ok hprog] at hrun
      obtain ⟨hhead', hpc'⟩ := hends b m hrun
      exact ⟨hhead', by rw [hpc', hpc, Nat.add_assoc]⟩

theorem drop_add_length {p : ℕ} {script a b : Bytes} (h : script.drop p = a ++ b) :
    script.drop (p + a.length) = b := by
  rw [← List.drop_drop, h, List.drop_left]

variable {m : Machine} {conds outer : List Bool} {live taken : Bool}

theorem simulates_plain (i : PlainInstr) (h : LoopHead env stack ⟨m, conds⟩)
    (hbyte : env.script.drop m.pc = i.op :: (i.rest ++ tail))
    (henabled : i.opcode.isDisabled = false) (hlive : conds.all id = live) :
    Simulates env stack ⟨m, conds⟩
      (if live then evalPlain env i.opcode else skip i.opcode.ops (i.rest.length + 1))
      (i.rest.length + 1) fun _ => conds := by
  refine Simulates.of_step h hbyte (i.instructionSize_eq tail) ?_
  cases live with
  | true =>
    rw [step_plain hbyte henabled i.plain (by exact hlive), onMachine_eq]
    rfl
  | false =>
    rw [step_skip i hbyte henabled (by exact hlive) h.opCount_le, onMachine_eq]
    rfl

theorem instructionSize_if (negated : Bool) :
    instructionSize (if negated then 0x64 else 0x63) tail = 1 := by
  cases negated <;> rfl

theorem simulates_if (h : LoopHead env stack ⟨m, conds⟩)
    (hbyte : env.script.drop m.pc = (if negated then 0x64 else 0x63) :: tail)
    (hlive : conds.all id = true) :
    Simulates env stack ⟨m, conds⟩ (evalIf negated) 1 fun taken => conds ++ [taken] := by
  exact Simulates.of_step h hbyte (instructionSize_if negated) (step_if hbyte hlive)

theorem simulates_skipped_if (h : LoopHead env stack ⟨m, conds⟩)
    (hbyte : env.script.drop m.pc = (if negated then 0x64 else 0x63) :: tail)
    (hlive : conds.all id = false) :
    Simulates env stack ⟨m, conds⟩ (skip 1 1) 1 fun _ => conds ++ [false] := by
  exact Simulates.of_step h hbyte (instructionSize_if negated) (step_skipped_if hbyte hlive)

theorem simulates_marker (hmark : MarkerEnds outer taken byte conds)
    (h : LoopHead env stack ⟨m, outer ++ [taken]⟩) (hbyte : env.script.drop m.pc = byte :: tail)
    (hlive : (outer ++ [taken]).all id = live) :
    Simulates env stack ⟨m, outer ++ [taken]⟩ (evalMarker live) 1 fun _ => conds := by
  have hsize : instructionSize byte tail = 1 := by
    cases hmark <;> rfl
  rw [← hlive]
  exact Simulates.of_step h hbyte hsize (step_branchEnd hmark hbyte)

def Block.Runs (env : Env) (stack : List Bytes) (b : Block) : Prop :=
  ∀ ⦃m : Machine⦄ ⦃conds : List Bool⦄ ⦃live : Bool⦄ ⦃tail : Bytes⦄,
    LoopHead env stack ⟨m, conds⟩ → env.script.drop m.pc = b.bytes ++ tail → conds.all id = live →
    Simulates env stack ⟨m, conds⟩ (if live then b.eval env else skip b.ops b.bytes.length)
      b.bytes.length fun _ => conds

def Branches.Runs (env : Env) (stack : List Bytes) (branches : Branches) : Prop :=
  ∀ ⦃m : Machine⦄ ⦃outer : List Bool⦄ ⦃live taken : Bool⦄ ⦃tail : Bytes⦄,
    LoopHead env stack ⟨m, outer ++ [taken]⟩ → env.script.drop m.pc = branches.bytes ++ tail →
    outer.all id = live →
    Simulates env stack ⟨m, outer ++ [taken]⟩
      (if live then branches.eval env taken else skip branches.ops branches.bytes.length)
      branches.bytes.length fun _ => outer

theorem Block.runs_nil : Block.nil.Runs env stack := by
  intro m conds live tail h _ _
  have hrun : (if live then Block.nil.eval env else skip 0 0) m = .ok ((), m) := by
    cases live with
    | true => rfl
    | false => exact (skip_eq 0 0 _).trans (if_pos h.opCount_le)
  refine ⟨⟨0, le_rfl, fun fuel => ?_⟩, fun a m' hm => ?_⟩
  · rw [Nat.zero_add]
    exact (congrArg (· >>= fun r => loop env fuel ⟨r.2, conds⟩) hrun).symm
  · cases hrun.symm.trans hm
    exact ⟨h, rfl⟩

theorem Block.Runs.plain {i : PlainInstr} {next : Block} (hnext : next.Runs env stack)
    (henabled : i.opcode.isDisabled = false) : (Block.plain i next).Runs env stack := by
  intro m conds live tail h hbytes hlive
  have hsplit : env.script.drop m.pc = (i.op :: i.rest) ++ (next.bytes ++ tail) := by
    rw [hbytes, Block.bytes, List.cons_append, List.append_assoc, List.cons_append]
  have hlen : (Block.plain i next).bytes.length = i.rest.length + 1 + next.bytes.length := by
    rw [Block.bytes, List.length_cons, List.length_append, Nat.add_right_comm]
  have hboth := (simulates_plain i h hsplit henabled hlive).bind fun _ m' hhead hpc =>
    hnext hhead (hpc ▸ drop_add_length hsplit) hlive
  rw [hlen]
  cases live with
  | true => exact hboth
  | false =>
    rw [if_neg nofun, if_neg nofun, skip_bind_skip] at hboth
    exact hboth

theorem Branches.Runs.cond {branches : Branches} {next : Block}
    (hbranches : branches.Runs env stack) (hnext : next.Runs env stack) :
    (Block.cond negated branches next).Runs env stack := by
  intro m conds live tail h hbytes hlive
  have hsplit : env.script.drop m.pc =
      [if negated then 0x64 else 0x63] ++ (branches.bytes ++ (next.bytes ++ tail)) := by
    rw [hbytes, Block.bytes, List.cons_append, List.append_assoc, List.singleton_append]
  have hlen : (Block.cond negated branches next).bytes.length =
      1 + (branches.bytes.length + next.bytes.length) := by
    rw [Block.bytes, List.length_cons, List.length_append, Nat.add_comm]
  have hafter : ∀ {m' : Machine} (taken : Bool), LoopHead env stack ⟨m', conds ++ [taken]⟩ →
      m'.pc = m.pc + 1 → Simulates env stack ⟨m', conds ++ [taken]⟩
        ((if live then branches.eval env taken else skip branches.ops branches.bytes.length) >>=
          fun _ => if live then next.eval env else skip next.ops next.bytes.length)
        (branches.bytes.length + next.bytes.length) fun _ => conds := by
    intro m' taken hhead hpc
    have hrest := hpc ▸ drop_add_length hsplit
    exact (hbranches hhead hrest hlive).bind fun _ m'' hhead' hpc' =>
      hnext hhead' (hpc' ▸ drop_add_length hrest) hlive
  rw [hlen]
  cases live with
  | true => exact (simulates_if h hsplit hlive).bind fun taken _ => hafter taken
  | false =>
    have hboth := (simulates_skipped_if h hsplit hlive).bind fun _ _ => hafter false
    rw [if_neg nofun, if_neg nofun, skip_bind_skip, skip_bind_skip] at hboth
    exact hboth

variable {body : Block}

theorem Block.Runs.branch (hbody : body.Runs env stack) (hmark : MarkerEnds outer taken byte conds)
    (h : LoopHead env stack ⟨m, outer ++ [taken]⟩)
    (hbytes : env.script.drop m.pc = body.bytes ++ byte :: tail) (hlive : outer.all id = live) :
    Simulates env stack ⟨m, outer ++ [taken]⟩
      (if live then
        (if taken then body.eval env else skip body.ops body.bytes.length) >>= fun _ =>
          evalMarker taken
      else skip (body.ops + 1) (body.bytes.length + 1))
      (body.bytes.length + 1) fun _ => conds := by
  have hall : (outer ++ [taken]).all id = (live && taken) := by
    rw [List.all_append, hlive]
    simp
  have hboth := (hbody h hbytes hall).bind fun _ m' hhead hpc =>
    simulates_marker hmark hhead (hpc ▸ drop_add_length hbytes) hall
  cases live with
  | true => exact hboth
  | false =>
    rw [Bool.false_and, if_neg nofun, evalMarker_false, skip_bind_skip] at hboth
    exact hboth

theorem Block.Runs.last (hbody : body.Runs env stack) : (Branches.last body).Runs env stack := by
  intro m outer live taken tail h hbytes hlive
  have hsplit : env.script.drop m.pc = body.bytes ++ 0x68 :: tail := by
    rw [hbytes, Branches.bytes, List.append_assoc, List.singleton_append]
  have hlen : (Branches.last body).bytes.length = body.bytes.length + 1 := by
    rw [Branches.bytes, List.length_append, List.length_singleton]
  rw [hlen, Branches.eval, Branches.ops]
  exact hbody.branch .opEndIf h hsplit hlive

theorem Block.Runs.orElse {rest : Branches} (hbody : body.Runs env stack)
    (hrest : rest.Runs env stack) : (Branches.orElse body rest).Runs env stack := by
  intro m outer live taken tail h hbytes hlive
  have hsplit : env.script.drop m.pc = body.bytes ++ 0x67 :: (rest.bytes ++ tail) := by
    rw [hbytes, Branches.bytes, List.append_assoc, List.cons_append]
  have hlen : (Branches.orElse body rest).bytes.length =
      body.bytes.length + 1 + rest.bytes.length := by
    rw [Branches.bytes, List.length_append, List.length_cons]
    omega
  have hboth := (hbody.branch .opElse h hsplit hlive).bind fun _ m' hhead hpc =>
    hrest hhead (hpc ▸ drop_succ_of_drop_eq (drop_add_length hsplit)) hlive
  rw [hlen]
  cases live with
  | true =>
    rw [if_pos rfl, if_pos rfl, bind_assoc] at hboth
    exact hboth
  | false =>
    rw [if_neg nofun, if_neg nofun, skip_bind_skip] at hboth
    exact hboth

mutual

theorem Block.runs (b : Block) (henabled : b.Enabled) : b.Runs env stack := by
  cases b with
  | nil => exact Block.runs_nil
  | plain i next => exact (next.runs henabled.2).plain henabled.1
  | cond negated branches next => exact (branches.runs henabled.1).cond (next.runs henabled.2)

theorem Branches.runs (branches : Branches) (henabled : branches.Enabled) :
    branches.Runs env stack := by
  cases branches with
  | last body => exact (body.runs henabled).last
  | orElse body rest => exact (body.runs henabled.1).orElse (rest.runs henabled.2)

end

theorem loop_of_le (hpc : env.script.length ≤ e.pc) (fuel : ℕ) : loop env fuel e = .ok ((), e) := by
  cases fuel with
  | zero => rfl
  | succ fuel => rw [loop_succ, if_neg (by omega)]

theorem execute_block (crypto : Crypto) (sigCtx : Option SignatureContext) {b : Block}
    (henabled : b.Enabled) (stack : List Bytes) :
    execute ⟨crypto, b.bytes, sigCtx⟩ stack = evalScript crypto sigCtx b stack := by
  have hstart : LoopHead ⟨crypto, b.bytes, sigCtx⟩ stack ⟨⟨stack, [], 0, 0, 0⟩, []⟩ := .start
  obtain ⟨⟨n, hn, hturns⟩, hends⟩ :=
    b.runs henabled hstart (List.append_nil b.bytes).symm List.all_nil
  obtain ⟨fuel, hfuel⟩ := Nat.exists_eq_add_of_le hn
  refine bind_congr fun _ => ?_
  rw [hfuel, Engine.withStack, hturns, bind_assoc]
  refine bind_congr_of_ok fun r hr => ?_
  have hpc : b.bytes.length ≤ r.2.pc := (Nat.le_add_left _ _).trans (hends r.1 r.2 hr).2.ge
  rw [loop_of_le hpc]
  rfl

end Simulation

def Closes : ℕ → Bytes → Prop
  | 0, s => ∃ b : Block, b.bytes = s
  | depth+1, s => ∃ (branches : Branches) (s' : Bytes), branches.bytes ++ s' = s ∧ Closes depth s'

def Branches.mapFirst (f : Block → Block) : Branches → Branches
  | .last body => .last (f body)
  | .orElse body rest => .orElse (f body) rest

theorem Closes.prepend {f : Block → Block} {pre s : Bytes} {depth : ℕ}
    (hf : ∀ b, (f b).bytes = pre ++ b.bytes) (h : Closes depth s) : Closes depth (pre ++ s) := by
  cases depth with
  | zero =>
    obtain ⟨b, rfl⟩ := h
    exact ⟨f b, hf b⟩
  | succ depth =>
    obtain ⟨branches, s', rfl, hs'⟩ := h
    refine ⟨branches.mapFirst f, s', ?_, hs'⟩
    cases branches with
    | last body => simp only [Branches.mapFirst, Branches.bytes, hf, List.append_assoc]
    | orElse body rest => simp only [Branches.mapFirst, Branches.bytes, hf, List.append_assoc]

section Parse

variable {env : Env} {stack : List Bytes} {e e' : Engine} {byte : UInt8} {tail : Bytes}

theorem Opcode.isControl_ofByte (byte : UInt8) : (Opcode.ofByte byte).isControl →
    byte = 0x63 ∨ byte = 0x64 ∨ byte = 0x67 ∨ byte = 0x68 := by
  revert byte
  exact Opcode.forall_byte (by decide +kernel)

theorem enabled_of_step (hbyte : env.script.drop e.pc = byte :: tail)
    (hstep : step env e = .ok ((), e')) : (Opcode.ofByte byte).isDisabled = false := by
  rw [step, onMachine_bind_apply, readByte_eq, getElem?_of_drop_eq hbyte, ok_bind] at hstep
  obtain ⟨_, henabled, -⟩ := liftM_bind_apply_eq_ok.mp hstep
  exact Bool.eq_false_of_not_eq_true (ensure_eq_ok.mp henabled)

theorem conditions_of_onMachine {a : α} {m : Machine} {conds : List Bool}
    (h : onMachine prog ⟨m, conds⟩ = .ok (a, e')) : e'.conditions = conds := by
  rw [onMachine_eq] at h
  obtain ⟨r, -, hr⟩ := map_eq_ok.mp h
  cases hr
  rfl

theorem step_eq_ok (hbyte : env.script.drop e.pc = byte :: tail)
    (hstep : step env e = .ok ((), e')) :
    ∃ m, (if isExecuting e then
        executeOpcode env (Opcode.ofByte byte) >>= fun _ => onMachine checkStackSize
      else skipOpcode env (Opcode.ofByte byte)) ⟨m, e.conditions⟩ = .ok ((), e') := by
  rw [step_eq hbyte (enabled_of_step hbyte hstep), onMachine_bind_apply] at hstep
  obtain ⟨r, -, hr⟩ := bind_eq_ok.mp hstep
  exact ⟨r.2, hr⟩

theorem conditions_of_plain (hbyte : env.script.drop e.pc = byte :: tail)
    (hplain : (Opcode.ofByte byte).isControl = false) (hstep : step env e = .ok ((), e')) :
    e'.conditions = e.conditions := by
  obtain ⟨m, hm⟩ := step_eq_ok hbyte hstep
  split_ifs at hm with hexec
  · rw [executeOpcode_plain hplain, ← onMachine_bind] at hm
    exact conditions_of_onMachine hm
  · by_cases hpay : (Opcode.ofByte byte).hasPayload
    · rw [skipOpcode_payload hpay] at hm
      exact conditions_of_onMachine hm
    · rw [skipOpcode_plain hplain (Bool.eq_false_of_not_eq_true hpay)] at hm
      cases hm
      rfl

theorem conditions_of_if (negated : Bool)
    (hbyte : env.script.drop e.pc = (if negated then 0x64 else 0x63) :: tail)
    (hstep : step env e = .ok ((), e')) : ∃ taken, e'.conditions = e.conditions ++ [taken] := by
  cases hexec : isExecuting e with
  | true =>
    rw [step_if hbyte hexec] at hstep
    obtain ⟨r, -, hr⟩ := map_eq_ok.mp hstep
    cases hr
    exact ⟨_, rfl⟩
  | false =>
    rw [step_skipped_if hbyte hexec] at hstep
    obtain ⟨r, -, hr⟩ := map_eq_ok.mp hstep
    cases hr
    exact ⟨_, rfl⟩

theorem conditions_ne_nil (hbyte : env.script.drop e.pc = byte :: tail)
    (hmark : byte = 0x67 ∨ byte = 0x68) (hstep : step env e = .ok ((), e')) : e.conditions ≠ [] := by
  intro hnil
  obtain ⟨m, hm⟩ := step_eq_ok hbyte hstep
  rw [isExecuting, hnil, List.all_nil, if_pos rfl] at hm
  rcases hmark with rfl | rfl
  · cases hm
  · cases hm

theorem conditions_of_branchEnd {outer conds : List Bool} {taken : Bool}
    (hmark : MarkerEnds outer taken byte conds) (hbyte : env.script.drop e.pc = byte :: tail)
    (hconds : e.conditions = outer ++ [taken]) (hstep : step env e = .ok ((), e')) :
    e'.conditions = conds := by
  obtain ⟨m, conds'⟩ := e
  subst hconds
  rw [step_branchEnd hmark hbyte] at hstep
  obtain ⟨r, -, hr⟩ := map_eq_ok.mp hstep
  cases hr
  rfl

theorem Closes.of_if (negated : Bool) {s : Bytes} {depth : ℕ} (h : Closes (depth + 1) s) :
    Closes depth ([if negated then 0x64 else 0x63] ++ s) := by
  obtain ⟨branches, s', rfl, hs'⟩ := h
  rw [← List.append_assoc]
  exact hs'.prepend (f := .cond negated branches) fun b => rfl

theorem LoopHead.step_closes (h : LoopHead env stack e)
    (hbyte : env.script.drop e.pc = byte :: tail) (hstep : step env e = .ok ((), e'))
    (hcloses : Closes e'.conditions.length (env.script.drop e'.pc)) :
    Closes e.conditions.length (env.script.drop e.pc) := by
  obtain ⟨hpc, hfit⟩ := h.step_pc hbyte hstep
  have hsplit : env.script.drop e.pc =
      (byte :: tail).take (instructionSize byte tail) ++ env.script.drop e'.pc := by
    rw [hpc, ← List.drop_drop, hbyte, List.take_append_drop]
  cases hcontrol : (Opcode.ofByte byte).isControl with
  | false =>
    have hwhole : isWhole ((byte :: tail).take (instructionSize byte tail)) := by
      have hlen := congrArg List.length hbyte
      rw [List.length_drop, List.length_cons] at hlen
      exact isWhole_take (by omega)
    obtain ⟨n, hn⟩ := Nat.exists_eq_succ_of_ne_zero (instructionSize_pos byte tail).ne'
    rw [hn, List.take_succ_cons] at hsplit hwhole
    rw [hsplit, ← conditions_of_plain hbyte hcontrol hstep]
    exact hcloses.prepend (f := .plain ⟨byte, tail.take n, hwhole, hcontrol⟩) fun b => rfl
  | true =>
    rcases Opcode.isControl_ofByte byte hcontrol with rfl | rfl | rfl | rfl
    · obtain ⟨taken, hconds⟩ := conditions_of_if false hbyte hstep
      rw [hconds, List.length_append] at hcloses
      exact hsplit ▸ hcloses.of_if false
    · obtain ⟨taken, hconds⟩ := conditions_of_if true hbyte hstep
      rw [hconds, List.length_append] at hcloses
      exact hsplit ▸ hcloses.of_if true
    · have hne := conditions_ne_nil hbyte (.inl rfl) hstep
      obtain ⟨outer, taken, hconds⟩ := (List.eq_nil_or_concat' _).resolve_left hne
      rw [conditions_of_branchEnd .opElse hbyte hconds hstep, List.length_append] at hcloses
      obtain ⟨branches, s, hs, hcloses⟩ := hcloses
      rw [hconds, List.length_append]
      exact ⟨.orElse .nil branches, s, by rw [hsplit, ← hs]; rfl, hcloses⟩
    · have hne := conditions_ne_nil hbyte (.inr rfl) hstep
      obtain ⟨outer, taken, hconds⟩ := (List.eq_nil_or_concat' _).resolve_left hne
      rw [conditions_of_branchEnd .opEndIf hbyte hconds hstep] at hcloses
      rw [hconds, List.length_append]
      exact ⟨.last .nil, _, hsplit.symm, hcloses⟩

theorem LoopHead.closes (h : LoopHead env stack e)
    (hcloses : Closes e.conditions.length (env.script.drop e.pc)) : Closes 0 env.script := by
  induction h with
  | start => exact hcloses
  | next h hpc hstep ih =>
    obtain ⟨byte, rest, hbyte⟩ := drop_pc_eq hpc
    exact ih (h.step_closes hbyte hstep hcloses)

theorem exists_block_of_execute {out : List Bytes} (h : execute env stack = .ok out) :
    ∃ b : Block, b.bytes = env.script := by
  obtain ⟨e, hhead, hpc, hconds, -⟩ := execute_eq_ok h
  refine hhead.closes ?_
  rw [hpc, List.drop_length, hconds]
  exact ⟨.nil, rfl⟩

theorem step_frame (hbyte : env.script.drop e.pc = byte :: tail) (hexec : isExecuting e = false)
    (hstep : step env e = .ok ((), e')) :
    e'.toMachine = { e.toMachine with pc := e'.pc, opCount := e'.opCount } := by
  rw [step_eq hbyte (enabled_of_step hbyte hstep), hexec, if_neg nofun, onMachine_bind_apply] at hstep
  obtain ⟨⟨_, m⟩, hcount, hskip⟩ := bind_eq_ok.mp hstep
  have hm : m = { e.toMachine with pc := e.pc + 1, opCount := m.opCount } := by
    change countOp _ { e.toMachine with pc := e.pc + 1 } = _ at hcount
    rw [countOp] at hcount
    split_ifs at hcount
    · cases hcount
      rfl
    · rw [addOps_eq] at hcount
      split_ifs at hcount
      cases hcount
      rfl
  have hpc : m.pc = e.pc + 1 := by rw [hm]
  have hmoved := ((triple_skipOpcode hbyte hpc).of_ok rfl hskip).2
  rw [hmoved, hm]

end Parse

/-- The engine runs a block without disabled opcodes as the interpreter does, a
script that is not a block is an error, and instructions that are not executed
touch the position and the operation count only. -/
theorem execute_eq_structured (crypto : Crypto) (sigCtx : Option SignatureContext)
    (stack : List Bytes) :
    (∀ b : Block, b.Enabled →
      execute ⟨crypto, b.bytes, sigCtx⟩ stack = evalScript crypto sigCtx b stack) ∧
      (∀ script : Bytes, (¬ ∃ b : Block, b.bytes = script) →
        ∃ err, execute ⟨crypto, script, sigCtx⟩ stack = .error (.error err)) ∧
      ∀ (script : Bytes) (e e' : Engine), e.pc < script.length → isExecuting e = false →
        step ⟨crypto, script, sigCtx⟩ e = .ok ((), e') →
        e'.toMachine = { e.toMachine with pc := e'.pc, opCount := e'.opCount } := by
  refine ⟨fun b henabled => execute_block crypto sigCtx henabled stack, fun script hscript => ?_, ?_⟩
  · cases hrun : execute ⟨crypto, script, sigCtx⟩ stack with
    | ok out => exact absurd (exists_block_of_execute hrun) hscript
    | error f =>
      cases f with
      | error err => exact ⟨err, rfl⟩
      | panic => exact absurd rfl (execute_avoids _ hrun)
  · intro script e e' hpc hexec hstep
    exact step_frame (List.drop_eq_getElem_cons hpc) hexec hstep

example : execute ⟨plainCrypto, [0x51, 0x63, 0x52, 0x67, 0x53, 0x67, 0x54, 0x68], none⟩ [] =
    .ok [[2], [4]] := by
  decide +kernel

end Ironcat.Script
