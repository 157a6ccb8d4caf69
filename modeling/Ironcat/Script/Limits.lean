import Ironcat.Script.Safety

/-!
# The limits of script execution

One turn of the loop of `execute` reads one instruction and moves to the next,
in branches that are executed and in branches that are skipped. From this the
limits hold at every turn of each phase of `verify_script`.
-/

namespace Ironcat.Script

open Lib.ByteCodec Lib.Checked Lib.Hoare SignatureHash

variable {m : Machine}

section Payload

variable {script : Bytes} {byte : UInt8} {rest : Bytes} {p : ℕ}

def readOperand (script : Bytes) : Opcode → Exec ℕ
  | .pushBytes n => return n.toNat
  | .pushData1 => readLen script 1
  | .pushData2 => readLen script 2
  | .pushData4 => readLen script 4
  | _ => return 0

section

variable (h : script.drop p = byte :: rest)
include h

theorem lt_of_drop_eq : p < script.length := by
  by_contra hge
  rw [List.drop_of_length_le (Nat.le_of_not_lt hge)] at h
  cases h

theorem getElem?_of_drop_eq : script[p]? = some byte := by
  rw [← List.head?_drop, h]
  rfl

theorem drop_succ_of_drop_eq : script.drop (p + 1) = rest := by
  rw [← List.drop_drop, h]
  rfl

theorem readLen_operand (hm : m.pc = p + 1) {k : ℕ}
    (hsize : instructionSize byte rest = 1 + k + ofLeBytes (rest.take k)) :
    (∃ n q, readLen script k m = .ok (n, { m with pc := q }) ∧ q + n = p + instructionSize byte rest) ∨
      (readLen script k m = .error (.error .invalidPushSize) ∧
        script.length < p + instructionSize byte rest) := by
  have hlt := lt_of_drop_eq h
  rw [readLen_eq (by omega), hm, drop_succ_of_drop_eq h]
  split_ifs with hfit
  · exact .inl ⟨_, _, rfl, by omega⟩
  · exact .inr ⟨rfl, by omega⟩

theorem readOperand_cases (hm : m.pc = p + 1) (hop : (Opcode.ofByte byte).hasPayload) :
    (∃ n q, readOperand script (Opcode.ofByte byte) m = .ok (n, { m with pc := q }) ∧
        q + n = p + instructionSize byte rest) ∨
      (readOperand script (Opcode.ofByte byte) m = .error (.error .invalidPushSize) ∧
        script.length < p + instructionSize byte rest) := by
  rcases Opcode.ofByte_cases byte with ⟨hle, -, hof⟩ | ⟨rfl, hof⟩ | ⟨rfl, hof⟩ | ⟨rfl, hof⟩ |
    ⟨-, -, -, -, hno⟩
  · refine .inl ⟨byte.toNat, p + 1, ?_, ?_⟩
    · rw [hof, ← hm]
      rfl
    · rw [instructionSize, if_pos hle]
      omega
  · rw [hof]
    exact readLen_operand h hm rfl
  · rw [hof]
    exact readLen_operand h hm rfl
  · rw [hof]
    exact readLen_operand h hm rfl
  · rw [hno] at hop
    cases hop

end

theorem instructionSize_of_not_payload (rest : Bytes) (hop : ¬ (Opcode.ofByte byte).hasPayload) :
    instructionSize byte rest = 1 := by
  rcases Opcode.ofByte_cases byte with ⟨-, -, hof⟩ | ⟨-, hof⟩ | ⟨-, hof⟩ | ⟨-, hof⟩ |
    ⟨hzero, h₁, h₂, h₄, -⟩
  · exact absurd (by rw [hof]; rfl) hop
  · exact absurd (by rw [hof]; rfl) hop
  · exact absurd (by rw [hof]; rfl) hop
  · exact absurd (by rw [hof]; rfl) hop
  · by_cases hle : byte ≤ 0x4b
    · rw [instructionSize, if_pos hle, hzero hle]
      rfl
    · rw [instructionSize, if_neg hle, if_neg h₁, if_neg h₂, if_neg h₄]

theorem skip_operand (h : script.drop p = byte :: rest) (hm : m.pc = p + 1)
    (hop : (Opcode.ofByte byte).hasPayload) :
    (readOperand script (Opcode.ofByte byte) >>= skipBytes script) m =
      if p + instructionSize byte rest ≤ script.length then
        .ok ((), { m with pc := p + instructionSize byte rest })
      else .error (.error .invalidPushSize) := by
  rcases readOperand_cases h hm hop with ⟨n, q, hread, hq⟩ | ⟨hread, hlong⟩
  · rw [bind_apply_of_ok hread, skipBytes_eq, hq]
  · rw [bind_apply_of_error hread, if_neg (by omega)]

theorem push_operand (h : script.drop p = byte :: rest) (hm : m.pc = p + 1)
    (hop : (Opcode.ofByte byte).hasPayload) :
    (∃ data : Bytes, data.length ≤ maxPushSize ∧ p + instructionSize byte rest ≤ script.length ∧
      (readOperand script (Opcode.ofByte byte) >>= pushData script) m =
        .ok ((), { m with stack := m.stack ++ [data], pc := p + instructionSize byte rest })) ∨
      (readOperand script (Opcode.ofByte byte) >>= pushData script) m =
        .error (.error .invalidPushSize) := by
  rcases readOperand_cases h hm hop with ⟨n, q, hread, hq⟩ | ⟨hread, hlong⟩
  · rw [bind_apply_of_ok hread, pushData_eq, hq]
    split_ifs with hfit
    · refine .inl ⟨(script.drop q).take n, ?_, hfit.2, rfl⟩
      exact (List.length_take_le _ _).trans hfit.1
    · exact .inr rfl
  · exact .inr (bind_apply_of_error hread _)

end Payload

section Step

variable {env : Env} {bound p : ℕ} {byte : UInt8} {rest : Bytes}

theorem plainOpcode_payload {op : Opcode} (hop : op.hasPayload) :
    plainOpcode env op = readOperand env.script op >>= pushData env.script := by
  cases op with
  | pushBytes | pushData1 | pushData2 | pushData4 => rfl
  | _ => cases hop

theorem skipOpcode_payload {op : Opcode} (hop : op.hasPayload) :
    skipOpcode env op = onMachine (readOperand env.script op >>= skipBytes env.script) := by
  cases op with
  | pushBytes | pushData1 | pushData2 | pushData4 => rfl
  | _ => cases hop

theorem triple_plainOpcode (hbound : maxPushSize ≤ bound)
    (hbyte : env.script.drop p = byte :: rest) :
    Triple (Machine.Within env.script.length bound (p + 1)) (plainOpcode env (Opcode.ofByte byte))
      (fun _ m => p + instructionSize byte rest ≤ env.script.length ∧
        m.Within env.script.length bound (p + instructionSize byte rest)) NoPanic := by
  have hlt := lt_of_drop_eq hbyte
  by_cases hop : (Opcode.ofByte byte).hasPayload
  · intro m hm
    rw [plainOpcode_payload hop]
    rcases push_operand hbyte hm.pc hop with ⟨data, hdata, hfit, hpush⟩ | hpush
    · rw [hpush]
      have hpushed := hm.pushed (hdata.trans hbound)
      exact ⟨hfit, hpushed.stack, hpushed.altStack, rfl, hpushed.ops, hpushed.codesep⟩
    · rw [hpush]
      exact noPanic_error _
  · rw [instructionSize_of_not_payload rest hop]
    exact (safe_plainOpcode hbound hlt hop).imp_post fun _ _ h => ⟨hlt, h.2⟩

theorem onMachine_eq {α : Type} (prog : Exec α) (e : Engine) :
    onMachine prog e = (prog e.toMachine).map fun r => (r.1, { e with toMachine := r.2 }) := by
  unfold onMachine
  cases prog e.toMachine <;> rfl

variable {pre : Machine → Prop}

theorem triple_onMachine {α : Type} {prog : Exec α} {post : α → Machine → Prop}
    {fault : Fault → Prop} (h : Triple pre prog post fault) :
    Triple (fun e : Engine => pre e.toMachine) (onMachine prog) (fun a e => post a e.toMachine)
      fault := by
  intro e he
  have hres := h e.toMachine he
  rw [onMachine_eq]
  cases hrun : prog e.toMachine with
  | ok r =>
    rw [hrun] at hres
    exact hres
  | error f =>
    rw [hrun] at hres
    exact hres

theorem triple_conditions {next : Engine → Bool → List Bool} :
    Triple (fun e : Engine => pre e.toMachine)
      (do let e ← get
          let last ← demand .unbalancedConditional e.conditions.getLast?
          set { e with conditions := next e last } : EngineM Unit)
      (fun _ e => pre e.toMachine) NoPanic :=
  triple_get_bind fun _ he => triple_demand fun _ _ => triple_set fun _ _ => he

theorem triple_opElse :
    Triple (fun e : Engine => pre e.toMachine) opElse (fun _ e => pre e.toMachine) NoPanic :=
  triple_conditions

theorem triple_opEndif :
    Triple (fun e : Engine => pre e.toMachine) opEndif (fun _ e => pre e.toMachine) NoPanic :=
  triple_conditions

theorem triple_pushCondition (c : Bool) :
    Triple (fun e : Engine => pre e.toMachine) (pushCondition c) (fun _ e => pre e.toMachine)
      NoPanic :=
  triple_modify fun _ he => he

theorem triple_executeOpcode (hbound : maxPushSize ≤ bound)
    (hbyte : env.script.drop p = byte :: rest) :
    Triple (fun e : Engine => e.toMachine.Within env.script.length bound (p + 1))
      (executeOpcode env (Opcode.ofByte byte))
      (fun _ e => p + instructionSize byte rest ≤ env.script.length ∧
        e.toMachine.Within env.script.length bound (p + instructionSize byte rest)) NoPanic := by
  have hlt := lt_of_drop_eq hbyte
  have hplain := triple_onMachine (triple_plainOpcode hbound hbyte)
  have hsize := @instructionSize_of_not_payload byte rest
  cases hop : Opcode.ofByte byte with
  | opIf | opNotIf =>
    rw [hsize (by rw [hop]; nofun)]
    refine Triple.bind (triple_onMachine safe_pop) fun x => ?_
    exact (triple_pushCondition _).mono (fun _ he => he.2) (fun _ _ he => ⟨hlt, he⟩) fun _ h => h
  | opElse =>
    rw [hsize (by rw [hop]; nofun)]
    exact triple_opElse.imp_post fun _ _ he => ⟨hlt, he⟩
  | opEndIf =>
    rw [hsize (by rw [hop]; nofun)]
    exact triple_opEndif.imp_post fun _ _ he => ⟨hlt, he⟩
  | _ =>
    rw [hop] at hplain
    exact hplain

theorem triple_skipOpcode (hbyte : env.script.drop p = byte :: rest) (hm : m.pc = p + 1) :
    Triple (fun e : Engine => e.toMachine = m) (skipOpcode env (Opcode.ofByte byte))
      (fun _ e => p + instructionSize byte rest ≤ env.script.length ∧
        e.toMachine = { m with pc := p + instructionSize byte rest }) NoPanic := by
  have hlt := lt_of_drop_eq hbyte
  by_cases hpay : (Opcode.ofByte byte).hasPayload
  · have hskip : Triple (· = m)
        (readOperand env.script (Opcode.ofByte byte) >>= skipBytes env.script)
        (fun _ m' => p + instructionSize byte rest ≤ env.script.length ∧
          m' = { m with pc := p + instructionSize byte rest }) NoPanic := by
      rintro m' rfl
      rw [skip_operand hbyte hm hpay]
      split_ifs with hfit
      · exact ⟨hfit, rfl⟩
      · exact noPanic_error _
    rw [skipOpcode_payload hpay]
    exact triple_onMachine hskip
  · rw [instructionSize_of_not_payload rest hpay, ← hm]
    have hend : ∀ e : Engine, e.toMachine = m → m.pc ≤ env.script.length ∧ e.toMachine = m :=
      fun _ he => ⟨hm.trans_le hlt, he⟩
    cases hop : Opcode.ofByte byte with
    | pushBytes | pushData1 | pushData2 | pushData4 =>
      rw [hop] at hpay
      exact absurd rfl hpay
    | opIf | opNotIf => exact (@triple_pushCondition (· = m) false).imp_post fun _ => hend
    | opElse => exact (@triple_opElse (· = m)).imp_post fun _ => hend
    | opEndIf => exact (@triple_opEndif (· = m)).imp_post fun _ => hend
    | _ => exact triple_pure hend

structure Machine.AtHead (len bound total p : ℕ) (m : Machine) : Prop extends
    m.Within len bound p where
  total : m.stack.length + m.altStack.length ≤ total

variable {total : ℕ}

theorem triple_readByte (hbyte : env.script.drop p = byte :: rest) :
    Triple (Machine.AtHead env.script.length bound total p) (readByte env.script)
      (fun b m => b = byte ∧ m.AtHead env.script.length bound total (p + 1)) NoPanic := by
  intro m hm
  rw [readByte_eq, hm.pc, getElem?_of_drop_eq hbyte]
  exact ⟨rfl, ⟨hm.stack, hm.altStack, rfl, hm.ops, hm.codesep⟩, hm.total⟩

theorem keeps_countOp {len : ℕ} (op : Opcode) :
    Keeps (Machine.AtHead len bound total p) (countOp op) (fun _ => True) NoPanic := by
  refine triple_ite (fun _ => keeps_pure trivial) fun _ m hm => ?_
  rw [addOps_eq]
  split_ifs with hops
  · exact ⟨trivial, ⟨hm.stack, hm.altStack, hm.pc, hops, hm.codesep⟩, hm.total⟩
  · exact noPanic_error _

theorem triple_checkStackSize (htotal : maxStackSize ≤ total) {len : ℕ} :
    Triple (Machine.Within len bound p) checkStackSize (fun _ m => m.AtHead len bound total p)
      NoPanic := by
  refine triple_get_bind fun m hm => ?_
  rw [← bind_pure (liftM (require _ _) : Exec Unit)]
  refine triple_require fun hsize => triple_pure fun m' hm' => ?_
  rw [hm']
  exact ⟨hm, hsize.trans htotal⟩

theorem triple_step (hbound : maxPushSize ≤ bound) (htotal : maxStackSize ≤ total)
    (hbyte : env.script.drop p = byte :: rest) :
    Triple (fun e : Engine => e.toMachine.AtHead env.script.length bound total p) (step env)
      (fun _ e => p + instructionSize byte rest ≤ env.script.length ∧
        e.toMachine.AtHead env.script.length bound total (p + instructionSize byte rest))
      NoPanic := by
  refine Triple.bind (triple_onMachine (triple_readByte hbyte)) fun b => triple_and fun hb => ?_
  subst hb
  refine triple_require fun _ => Triple.bind (triple_onMachine (keeps_countOp _)) fun _ => ?_
  refine triple_get_bind fun e he => triple_ite (fun _ => ?_) fun _ => ?_
  · refine Triple.bind ((triple_executeOpcode hbound hbyte).of_imp ?_) fun _ => triple_and fun hfit => ?_
    · rintro e' rfl
      exact he.2.toWithin
    · exact (triple_onMachine (triple_checkStackSize htotal)).imp_post fun _ _ h => ⟨hfit, h⟩
  · refine (triple_skipOpcode hbyte he.2.pc).mono (fun e' he' => by rw [he']) ?_ fun _ h => h
    rintro - e' ⟨hfit, he'⟩
    rw [he']
    have hm := he.2
    exact ⟨hfit, ⟨hm.stack, hm.altStack, rfl, hm.ops, hm.codesep⟩, hm.total⟩

end Step

/-- The states at the head of the loop of `execute`. -/
inductive LoopHead (env : Env) (stack : List Bytes) : Engine → Prop
  | start : LoopHead env stack (Engine.withStack stack)
  | next {e e' : Engine} (h : LoopHead env stack e) (hpc : e.pc < env.script.length)
      (hstep : step env e = .ok ((), e')) : LoopHead env stack e'

section Loop

variable {env : Env} {stack : List Bytes} {e e' : Engine} {bound total : ℕ}

theorem drop_pc_eq (hpc : e.pc < env.script.length) :
    ∃ byte rest, env.script.drop e.pc = byte :: rest :=
  ⟨_, _, List.drop_eq_getElem_cons hpc⟩

section

variable (h : LoopHead env stack e)
include h

theorem LoopHead.atHead (hbound : maxPushSize ≤ bound) (htotal : maxStackSize ≤ total)
    (hsize : stack.length ≤ total) (helements : ∀ x ∈ stack, x.length ≤ bound) :
    e.pc ≤ env.script.length ∧ e.toMachine.AtHead env.script.length bound total e.pc := by
  induction h with
  | start =>
    refine ⟨Nat.zero_le _, ⟨helements, List.forall_mem_nil _, rfl, Nat.zero_le _, Nat.zero_le _⟩, ?_⟩
    exact hsize
  | next h hpc hstep ih =>
    obtain ⟨byte, rest, hbyte⟩ := drop_pc_eq hpc
    obtain ⟨hfit, hhead⟩ := (triple_step hbound htotal hbyte).of_ok ih.2 hstep
    have hpc' := hhead.pc
    rw [← hpc'] at hfit hhead
    exact ⟨hfit, hhead⟩

theorem LoopHead.exists_atHead :
    ∃ bound total, maxPushSize ≤ bound ∧ maxStackSize ≤ total ∧ e.pc ≤ env.script.length ∧
      e.toMachine.AtHead env.script.length bound total e.pc := by
  have helements : ∀ x ∈ stack, x.length ≤ max maxPushSize (stack.map List.length).sum := by
    intro x hx
    exact (List.single_le_sum (by simp) _ (List.mem_map_of_mem hx)).trans (le_max_right _ _)
  have hhead := h.atHead (le_max_left maxPushSize _) (le_max_left maxStackSize stack.length)
    (le_max_right _ _) helements
  exact ⟨_, _, le_max_left _ _, le_max_left _ _, hhead⟩

theorem LoopHead.pc_le : e.pc ≤ env.script.length := by
  obtain ⟨_, _, _, _, hpc, _⟩ := h.exists_atHead
  exact hpc

theorem LoopHead.step_pc {byte : UInt8} {rest : Bytes} (hbyte : env.script.drop e.pc = byte :: rest)
    (hstep : step env e = .ok ((), e')) :
    e'.pc = e.pc + instructionSize byte rest ∧ e'.pc ≤ env.script.length := by
  obtain ⟨bound, total, hbound, htotal, -, hhead⟩ := h.exists_atHead
  obtain ⟨hfit, hhead'⟩ := (triple_step hbound htotal hbyte).of_ok hhead hstep
  rw [hhead'.pc]
  exact ⟨rfl, hfit⟩

theorem LoopHead.pc_lt (hpc : e.pc < env.script.length) (hstep : step env e = .ok ((), e')) :
    e.pc < e'.pc := by
  obtain ⟨byte, rest, hbyte⟩ := drop_pc_eq hpc
  have hpos := instructionSize_pos byte rest
  have hmove := (h.step_pc hbyte hstep).1
  omega

theorem LoopHead.no_panic (hpc : e.pc < env.script.length) : step env e ≠ .error .panic := by
  intro hpanic
  obtain ⟨byte, rest, hbyte⟩ := drop_pc_eq hpc
  obtain ⟨bound, total, hbound, htotal, -, hhead⟩ := h.exists_atHead
  exact (triple_step hbound htotal hbyte).of_error hhead hpanic rfl

end

theorem loop_succ (fuel : ℕ) (e : Engine) : loop env (fuel + 1) e =
    if e.pc < env.script.length then step env e >>= fun r => loop env fuel r.2
    else .ok ((), e) := by
  rw [loop, get_bind_apply]
  split_ifs <;> rfl

theorem LoopHead.loop (h : LoopHead env stack e) {fuel : ℕ}
    (hrun : loop env fuel e = .ok ((), e')) : LoopHead env stack e' := by
  induction fuel generalizing e with
  | zero =>
    cases hrun
    exact h
  | succ fuel ih =>
    rw [loop_succ] at hrun
    split_ifs at hrun with hpc
    · obtain ⟨⟨_, mid⟩, hstep, hrest⟩ := bind_eq_ok.mp hrun
      exact ih (h.next hpc hstep) hrest
    · cases hrun
      exact h

theorem LoopHead.loop_error (h : LoopHead env stack e) {fuel : ℕ} {f : Fault}
    (hrun : Script.loop env fuel e = .error f) :
    ∃ e', LoopHead env stack e' ∧ e'.pc < env.script.length ∧ step env e' = .error f := by
  induction fuel generalizing e with
  | zero => cases hrun
  | succ fuel ih =>
    rw [loop_succ] at hrun
    split_ifs at hrun with hpc
    · rcases bind_eq_error.mp hrun with hstep | ⟨⟨_, mid⟩, hstep, hrest⟩
      · exact ⟨e, h, hpc, hstep⟩
      · exact ih (h.next hpc hstep) hrest

theorem LoopHead.loop_pc (h : LoopHead env stack e) {fuel : ℕ}
    (hfuel : env.script.length ≤ e.pc + fuel) (hrun : Script.loop env fuel e = .ok ((), e')) :
    e'.pc = env.script.length := by
  induction fuel generalizing e with
  | zero =>
    cases hrun
    exact le_antisymm h.pc_le hfuel
  | succ fuel ih =>
    rw [loop_succ] at hrun
    split_ifs at hrun with hpc
    · obtain ⟨⟨_, mid⟩, hstep, hrest⟩ := bind_eq_ok.mp hrun
      have hlt := h.pc_lt hpc hstep
      exact ih (h.next hpc hstep) (by omega) hrest
    · cases hrun
      exact le_antisymm h.pc_le (Nat.le_of_not_lt hpc)

theorem execute_eq_ok {out : List Bytes} (h : execute env stack = .ok out) :
    ∃ e, LoopHead env stack e ∧ e.pc = env.script.length ∧ e.conditions = [] ∧ e.stack = out := by
  obtain ⟨_, -, h⟩ := bind_eq_ok.mp h
  obtain ⟨⟨_, e⟩, hrun, h⟩ := bind_eq_ok.mp h
  obtain ⟨_, hconditions, h⟩ := bind_eq_ok.mp h
  cases h
  exact ⟨e, LoopHead.start.loop hrun, LoopHead.start.loop_pc (Nat.le_add_left _ _) hrun,
    ensure_eq_ok.mp hconditions, rfl⟩

theorem require_avoids {c : Prop} [Decidable c] (e : ScriptError) :
    Avoids (· = Fault.panic) (require c e) :=
  avoids_ensure (noPanic_error e)

theorem execute_avoids : Avoids (· = Fault.panic) (execute env stack) := by
  refine (require_avoids _).bind fun _ _ => Avoids.bind ?_ fun r _ =>
    (require_avoids _).bind fun _ _ => avoids_ok _
  rintro f hrun rfl
  obtain ⟨e, hhead, hpc, hstep⟩ := LoopHead.start.loop_error hrun
  exact hhead.no_panic hpc hstep

end Loop

/-- The scripts that are executed, with the stack each starts from. -/
inductive Phase (crypto : Crypto) (scriptSig scriptPubkey : Bytes) (ctx : SignatureContext) :
    Env → List Bytes → Prop
  | sig : Phase crypto scriptSig scriptPubkey ctx ⟨crypto, scriptSig, some ctx⟩ []
  | pubkey {sigStack : List Bytes}
      (hsig : execute ⟨crypto, scriptSig, some ctx⟩ [] = .ok sigStack) :
      Phase crypto scriptSig scriptPubkey ctx ⟨crypto, scriptPubkey, some ctx⟩ sigStack
  | redeem {sigStack finalStack : List Bytes} {redeemScript : Bytes}
      (hsig : execute ⟨crypto, scriptSig, some ctx⟩ [] = .ok sigStack)
      (hfinal : execute ⟨crypto, scriptPubkey, some ctx⟩ sigStack = .ok finalStack)
      (htrue : requireTruthyTop finalStack = .ok ()) (hp2sh : isP2sh scriptPubkey)
      (hpush : isPushOnly scriptSig) (hredeem : sigStack.getLast? = some redeemScript) :
      Phase crypto scriptSig scriptPubkey ctx ⟨crypto, redeemScript, some ctx⟩ sigStack.dropLast

structure InLimits (env : Env) (e : Engine) : Prop where
  total : e.stack.length + e.altStack.length ≤ maxStackSize
  elements : ∀ x ∈ e.stack ++ e.altStack, x.length ≤ maxPushSize
  ops : e.opCount ≤ maxOps
  pc : e.pc ≤ env.script.length
  codesep : e.codesepPos ≤ env.script.length
  increases : ∀ e', e.pc < env.script.length → step env e = .ok ((), e') → e.pc < e'.pc
  inRange : e.pc < env.script.length → step env e ≠ .error .panic

section Phases

variable {crypto : Crypto} {scriptSig scriptPubkey : Bytes} {ctx : SignatureContext} {env : Env}
  {stack : List Bytes}

structure StackInLimits (stack : List Bytes) : Prop where
  size : stack.length ≤ maxStackSize
  elements : ∀ x ∈ stack, x.length ≤ maxPushSize

theorem LoopHead.inLimits {e : Engine} (h : LoopHead env stack e) (hstack : StackInLimits stack) :
    InLimits env e := by
  obtain ⟨hpc, hhead⟩ := h.atHead le_rfl le_rfl hstack.size hstack.elements
  exact ⟨hhead.total, List.forall_mem_append.mpr ⟨hhead.stack, hhead.altStack⟩, hhead.ops, hpc,
    hhead.codesep, fun _ hlt hstep => h.pc_lt hlt hstep, h.no_panic⟩

theorem execute_inLimits {out : List Bytes} (hstack : StackInLimits stack)
    (h : execute env stack = .ok out) : StackInLimits out := by
  obtain ⟨e, hhead, -, -, rfl⟩ := execute_eq_ok h
  have hlimits := hhead.inLimits hstack
  refine ⟨(Nat.le_add_right _ _).trans hlimits.total, fun x hx => ?_⟩
  exact hlimits.elements x (List.mem_append_left _ hx)

theorem Phase.stackInLimits (h : Phase crypto scriptSig scriptPubkey ctx env stack) :
    StackInLimits stack := by
  have hempty : StackInLimits [] := ⟨Nat.zero_le _, List.forall_mem_nil _⟩
  cases h with
  | sig => exact hempty
  | pubkey hsig => exact execute_inLimits hempty hsig
  | redeem hsig =>
    have hsig' := execute_inLimits hempty hsig
    refine ⟨?_, fun x hx => hsig'.elements x (List.dropLast_subset _ hx)⟩
    rw [List.length_dropLast]
    exact (Nat.sub_le _ _).trans hsig'.size

theorem verifyScript_avoids :
    Avoids (· = Fault.panic) (verifyScript crypto scriptSig scriptPubkey ctx) := by
  refine execute_avoids.bind fun sigStack _ => execute_avoids.bind fun finalStack _ =>
    (require_avoids _).bind fun _ _ => ?_
  split_ifs
  · refine (require_avoids _).bind fun _ _ => Avoids.bind ?_ fun redeemScript _ =>
      execute_avoids.bind fun redeemResult _ => require_avoids _
    exact avoids_okOr fun h => absurd h (noPanic_error _)
  · exact avoids_ok _

/-- Every turn of every phase is within the limits, and no index is out of
range. -/
theorem phases_in_limits (crypto : Crypto) (scriptSig scriptPubkey : Bytes) (ctx : SignatureContext) :
    (∀ env stack, Phase crypto scriptSig scriptPubkey ctx env stack →
      ∀ e, LoopHead env stack e → InLimits env e) ∧
      verifyScript crypto scriptSig scriptPubkey ctx ≠ .error .panic :=
  ⟨fun _ _ hphase _ hhead => hhead.inLimits hphase.stackInLimits,
    fun hpanic => verifyScript_avoids _ hpanic rfl⟩

example : verifyScript plainCrypto [0x01, 0x51]
    (0xa9 :: 0x14 :: (List.replicate 20 0 ++ [0x87])) plainContext = .ok () := by
  decide +kernel

end Phases

end Ironcat.Script
