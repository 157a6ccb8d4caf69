import Ironcat.Script.Limits

/-!
# Instruction boundaries

Four loops walk over a script: the engine where it executes, the engine where it
skips, `remove_codeseparators` and `is_push_only`. They step from one
instruction to the next in the same way.
-/

namespace Ironcat.Script

open Lib.ByteCodec Lib.Checked SignatureHash

/-- An opcode with its full payload. -/
def isWhole : Bytes → Bool
  | [] => false
  | op :: rest => instructionSize op rest = rest.length + 1

/-- The script ends with the end of an instruction. -/
def Complete (script : Bytes) : Prop := ∀ i ∈ instructions script, isWhole i

instance (script : Bytes) : Decidable (Complete script) :=
  inferInstanceAs (Decidable (∀ i ∈ instructions script, isWhole i))

def isPushInstruction : Bytes → Bool
  | [] => false
  | op :: _ => (Opcode.ofByte op).isPush

/-- Where the instructions start that follow each other from `p` on. -/
def starts : ℕ → List Bytes → List ℕ
  | _, [] => []
  | p, i :: is => p :: starts (p + i.length) is

variable {rest : Bytes} {op : UInt8}

theorem fits_of_isWhole (h : isWhole ((op :: rest).take (instructionSize op rest))) :
    instructionSize op rest ≤ rest.length + 1 := by
  by_contra hlong
  rw [List.take_of_length_le (by rw [List.length_cons]; omega)] at h
  have hsize : instructionSize op rest = rest.length + 1 := by simpa [isWhole] using h
  omega

theorem instructionSize_take {n : ℕ} (h : instructionSize op rest ≤ n + 1) :
    instructionSize op (rest.take n) = instructionSize op rest := by
  have hfield : ∀ k, k ≤ n → (rest.take n).take k = rest.take k := by
    intro k hk
    rw [List.take_take, min_eq_left hk]
  unfold instructionSize at h ⊢
  split_ifs at h ⊢ with h₁ h₂ h₃ h₄
  · rfl
  · rw [hfield 1 (by omega)]
  · rw [hfield 2 (by omega)]
  · rw [hfield 4 (by omega)]
  · rfl

theorem isWhole_take (h : instructionSize op rest ≤ rest.length + 1) :
    isWhole ((op :: rest).take (instructionSize op rest)) := by
  obtain ⟨n, hn⟩ := Nat.exists_eq_succ_of_ne_zero (instructionSize_pos op rest).ne'
  have hsize : instructionSize op (rest.take n) = instructionSize op rest :=
    instructionSize_take hn.le
  have hlen : (rest.take n).length = n := List.length_take_of_le (by omega)
  rw [hn, List.take_succ_cons, isWhole, hsize, hlen, hn]
  simp

theorem instructionSize_of_prefix {r : Bytes} (h : instructionSize op r = r.length + 1)
    (hpre : r <+: rest) : instructionSize op rest = r.length + 1 := by
  obtain ⟨t, rfl⟩ := hpre
  rw [← h]
  have hfield : ∀ k, k ≤ r.length → (r ++ t).take k = r.take k := fun k hk =>
    List.take_append_of_le_length hk
  unfold instructionSize at h ⊢
  split_ifs at h ⊢ with h₁ h₂ h₃ h₄
  · rfl
  · rw [hfield 1 (by omega)]
  · rw [hfield 2 (by omega)]
  · rw [hfield 4 (by omega)]
  · rfl

theorem isWhole_cons {r : Bytes} : isWhole (op :: r) ↔ instructionSize op r = r.length + 1 := by
  simp [isWhole]

theorem isWhole_of_mem_dropLast (fuel : ℕ) (script : Bytes) :
    ∀ i ∈ (splitInstructions fuel script).dropLast, isWhole i := by
  induction fuel generalizing script with
  | zero => exact List.forall_mem_nil _
  | succ fuel ih =>
    cases script with
    | nil => exact List.forall_mem_nil _
    | cons op rest =>
      rw [splitInstructions]
      -- an instruction that does not fit leaves nothing behind it
      rcases Nat.lt_or_ge (rest.length + 1) (instructionSize op rest) with hlong | hfit
      · have hnil : (op :: rest).drop (instructionSize op rest) = [] :=
          List.drop_of_length_le hlong.le
        rw [hnil]
        cases fuel <;> exact List.forall_mem_nil _
      · cases htail : splitInstructions fuel ((op :: rest).drop (instructionSize op rest)) with
        | nil => exact List.forall_mem_nil _
        | cons i is =>
          have hrest := ih ((op :: rest).drop (instructionSize op rest))
          rw [htail] at hrest
          rw [List.dropLast_cons_cons]
          exact List.forall_mem_cons.mpr ⟨isWhole_take hfit, hrest⟩

theorem isPush_cases (op : UInt8) :
    (op = 0x00 ∨ op = 0x4f ∨ (0x51 ≤ op ∧ op ≤ 0x60) →
      (Opcode.ofByte op).isPush ∧ (Opcode.ofByte op).hasPayload = false) ∧
    (0x01 ≤ op ∧ op ≤ 0x4b → (Opcode.ofByte op).isPush) ∧
    ((Opcode.ofByte op).isPush → (op = 0x00 ∨ op = 0x4f ∨ (0x51 ≤ op ∧ op ≤ 0x60)) ∨
      (0x01 ≤ op ∧ op ≤ 0x4b) ∨ op = 0x4c ∨ op = 0x4d ∨ op = 0x4e) := by
  revert op
  exact Opcode.forall_byte (by decide +kernel)

theorem pushOnlyLoop_cons (fuel : ℕ) (hfit : instructionSize op rest ≤ rest.length + 1) :
    pushOnlyLoop (fuel + 1) (op :: rest) = ((Opcode.ofByte op).isPush &&
      pushOnlyLoop fuel ((op :: rest).drop (instructionSize op rest))) := by
  obtain ⟨hsingle, hdirect, hpush⟩ := isPush_cases op
  simp only [pushOnlyLoop]
  split_ifs with h₀ h₁ h₂ h₃ h₄ h₅ h₆
  · have hsize := @instructionSize_of_not_payload op rest (by rw [(hsingle h₀).2]; nofun)
    rw [(hsingle h₀).1, hsize]
    rfl
  · rw [hdirect h₁, instructionSize, if_pos h₁.2]
    rfl
  · subst h₂
    cases rest with
    | nil => exact absurd hfit (by decide)
    | cons len rest =>
      have hsize : instructionSize 0x4c (len :: rest) = 2 + len.toNat := by
        simp [instructionSize, ofLeBytes]
      rw [hsize]
      rfl
  · subst h₃
    simp only [List.length_cons] at h₄
    have hsize : instructionSize 0x4d rest = 3 + ofLeBytes (rest.take 2) := rfl
    omega
  · subst h₃
    rfl
  · subst h₅
    simp only [List.length_cons] at h₆
    have hsize : instructionSize 0x4e rest = 5 + ofLeBytes (rest.take 4) := rfl
    omega
  · subst h₅
    rfl
  · have hno : (Opcode.ofByte op).isPush = false := by
      by_contra hyes
      rcases hpush (Bool.eq_true_of_not_eq_false hyes) with h | h | h | h | h
      · exact h₀ h
      · exact h₁ h
      · exact h₂ h
      · exact h₃ h
      · exact h₅ h
    rw [hno]
    rfl

variable {script : Bytes}

theorem pushOnlyLoop_eq {fuel : ℕ} (hfuel : script.length ≤ fuel)
    (hcomplete : ∀ i ∈ splitInstructions fuel script, isWhole i) :
    pushOnlyLoop fuel script = (splitInstructions fuel script).all isPushInstruction := by
  induction fuel generalizing script with
  | zero => rfl
  | succ fuel ih =>
    cases script with
    | nil => rfl
    | cons op rest =>
      rw [splitInstructions, List.forall_mem_cons] at hcomplete
      have hfit := fits_of_isWhole hcomplete.1
      have hpos := instructionSize_pos op rest
      rw [List.length_cons] at hfuel
      have hrest := @ih ((op :: rest).drop (instructionSize op rest))
        (by rw [List.length_drop, List.length_cons]; omega) hcomplete.2
      rw [pushOnlyLoop_cons fuel hfit, splitInstructions, List.all_cons, hrest]
      obtain ⟨n, hn⟩ := Nat.exists_eq_succ_of_ne_zero hpos.ne'
      rw [hn]
      rfl

theorem isPushOnly_iff (h : Complete script) :
    isPushOnly script ↔ ∀ i ∈ instructions script, isPushInstruction i := by
  rw [isPushOnly, pushOnlyLoop_eq le_rfl h, List.all_eq_true]
  rfl

section Engine

variable {env : Env} {stack : List Bytes}

def opcodeOffsets (env : Env) : ℕ → Engine → List ℕ
  | 0, _ => []
  | fuel+1, e =>
    if e.pc < env.script.length then
      e.pc :: match step env e with
        | .ok (_, e') => opcodeOffsets env fuel e'
        | .error _ => []
    else []

/-- Where `execute` reads opcodes. -/
def readOffsets (env : Env) (stack : List Bytes) : List ℕ :=
  if env.script.length ≤ maxScriptSize then
    opcodeOffsets env env.script.length (Engine.withStack stack)
  else []

theorem starts_drop {byte : UInt8} {p : ℕ} (hbyte : env.script.drop p = byte :: rest) (fuel : ℕ) :
    ∃ size, starts p (splitInstructions (fuel + 1) (env.script.drop p)) =
      p :: starts (p + size) (splitInstructions fuel
        (env.script.drop (p + instructionSize byte rest))) ∧
      (p + instructionSize byte rest ≤ env.script.length → size = instructionSize byte rest) := by
  have hlen : (byte :: rest).length = env.script.length - p := by rw [← hbyte, List.length_drop]
  refine ⟨((byte :: rest).take (instructionSize byte rest)).length, ?_, fun hfit => ?_⟩
  · rw [hbyte, splitInstructions, starts, ← hbyte, List.drop_drop]
  · have hlt := lt_of_drop_eq hbyte
    rw [List.length_take, hlen]
    omega

variable {e : Engine}

theorem opcodeOffsets_isPrefix (h : LoopHead env stack e) {fuel k : ℕ}
    (hk : env.script.length ≤ e.pc + k) :
    opcodeOffsets env fuel e <+: starts e.pc (splitInstructions k (env.script.drop e.pc)) := by
  induction fuel generalizing e k with
  | zero => exact List.nil_prefix
  | succ fuel ih =>
    rw [opcodeOffsets]
    split_ifs with hpc
    · obtain ⟨byte, rest, hbyte⟩ := drop_pc_eq hpc
      obtain ⟨k, rfl⟩ : ∃ k', k = k' + 1 := Nat.exists_eq_succ_of_ne_zero (by omega)
      obtain ⟨size, hstarts, hsize⟩ := starts_drop hbyte k
      rw [hstarts]
      refine List.cons_prefix_cons.mpr ⟨rfl, ?_⟩
      cases hstep : step env e with
      | error f => exact List.nil_prefix
      | ok r =>
        obtain ⟨⟨⟩, e'⟩ := r
        obtain ⟨hmove, hfit⟩ := h.step_pc hbyte hstep
        have hpos := instructionSize_pos byte rest
        rw [hsize (hmove ▸ hfit), ← hmove]
        exact ih (h.next hpc hstep) (by omega)
    · exact List.nil_prefix

theorem starts_end {p : ℕ} (k : ℕ) (hp : env.script.length ≤ p) :
    starts p (splitInstructions k (env.script.drop p)) = [] := by
  rw [List.drop_of_length_le hp]
  cases k <;> rfl

theorem opcodeOffsets_eq {e' : Engine} (h : LoopHead env stack e) {fuel k : ℕ}
    (hfuel : env.script.length ≤ e.pc + fuel) (hk : env.script.length ≤ e.pc + k)
    (hrun : loop env fuel e = .ok ((), e')) :
    opcodeOffsets env fuel e = starts e.pc (splitInstructions k (env.script.drop e.pc)) := by
  induction fuel generalizing e k with
  | zero => exact (starts_end k hfuel).symm
  | succ fuel ih =>
    rw [loop_succ] at hrun
    rw [opcodeOffsets]
    split_ifs at hrun ⊢ with hpc
    · obtain ⟨⟨⟨⟩, mid⟩, hstep, hrest⟩ := bind_eq_ok.mp hrun
      obtain ⟨byte, rest, hbyte⟩ := drop_pc_eq hpc
      obtain ⟨k, rfl⟩ : ∃ k', k = k' + 1 := Nat.exists_eq_succ_of_ne_zero (by omega)
      obtain ⟨size, hstarts, hsize⟩ := starts_drop hbyte k
      obtain ⟨hmove, hfit⟩ := h.step_pc hbyte hstep
      have hlt := h.pc_lt hpc hstep
      rw [hstarts, hstep, hsize (hmove ▸ hfit), ← hmove]
      exact congrArg (e.pc :: ·) (ih (h.next hpc hstep) (by omega) (by omega) hrest)
    · exact (starts_end k (Nat.le_of_not_lt hpc)).symm

/-- The instruction that starts at a position. -/
def instructionAt (script : Bytes) (p : ℕ) : Bytes :=
  match script.drop p with
  | [] => []
  | op :: rest => (op :: rest).take (instructionSize op rest)

theorem instructionAt_eq {byte : UInt8} {p : ℕ} (hbyte : script.drop p = byte :: rest) :
    instructionAt script p = (byte :: rest).take (instructionSize byte rest) := by
  rw [instructionAt, hbyte]

theorem LoopHead.visits {e' : Engine} (h : LoopHead env stack e) {fuel k : ℕ}
    (hfuel : env.script.length ≤ e.pc + fuel) (hrun : Script.loop env fuel e = .ok ((), e')) :
    ∀ i ∈ splitInstructions k (env.script.drop e.pc), ∃ v v', LoopHead env stack v ∧
      v.pc < env.script.length ∧ step env v = .ok ((), v') ∧ instructionAt env.script v.pc = i := by
  induction fuel generalizing e k with
  | zero =>
    rw [List.drop_of_length_le (Nat.add_zero e.pc ▸ hfuel)]
    cases k <;> exact List.forall_mem_nil _
  | succ fuel ih =>
    rw [loop_succ] at hrun
    split_ifs at hrun with hpc
    · obtain ⟨⟨⟨⟩, mid⟩, hstep, hrest⟩ := bind_eq_ok.mp hrun
      obtain ⟨byte, rest, hbyte⟩ := drop_pc_eq hpc
      have hlt := h.pc_lt hpc hstep
      have hmove := (h.step_pc hbyte hstep).1
      cases k with
      | zero => exact List.forall_mem_nil _
      | succ k =>
        rw [hbyte, splitInstructions, ← hbyte, List.drop_drop, ← hmove, hbyte, List.forall_mem_cons]
        exact ⟨⟨e, mid, h, hpc, hstep, instructionAt_eq hbyte⟩,
          ih (h.next hpc hstep) (by omega) hrest⟩
    · rw [List.drop_of_length_le (Nat.le_of_not_lt hpc)]
      cases k <;> exact List.forall_mem_nil _

variable {out : List Bytes}

theorem visits_of_execute (h : execute env stack = .ok out) :
    ∀ i ∈ instructions env.script, ∃ v v', LoopHead env stack v ∧ v.pc < env.script.length ∧
      step env v = .ok ((), v') ∧ instructionAt env.script v.pc = i := by
  obtain ⟨_, -, h⟩ := bind_eq_ok.mp h
  obtain ⟨⟨⟨⟩, e⟩, hrun, -⟩ := bind_eq_ok.mp h
  exact LoopHead.start.visits (Nat.le_add_left _ _) hrun

theorem complete_of_execute (h : execute env stack = .ok out) : Complete env.script := by
  intro i hi
  obtain ⟨v, v', hv, hpc, hstep, rfl⟩ := visits_of_execute h i hi
  obtain ⟨byte, rest, hbyte⟩ := drop_pc_eq hpc
  obtain ⟨hmove, hfit⟩ := hv.step_pc hbyte hstep
  have hlen := congrArg List.length hbyte
  rw [List.length_drop, List.length_cons] at hlen
  rw [instructionAt_eq hbyte]
  exact isWhole_take (by omega)

theorem readOffsets_isPrefix (env : Env) (stack : List Bytes) :
    readOffsets env stack <+: starts 0 (instructions env.script) := by
  unfold readOffsets
  split_ifs
  · exact opcodeOffsets_isPrefix LoopHead.start (Nat.le_add_left _ _)
  · exact List.nil_prefix

theorem readOffsets_eq (h : execute env stack = .ok out) :
    readOffsets env stack = starts 0 (instructions env.script) := by
  obtain ⟨_, hsize, h⟩ := bind_eq_ok.mp h
  obtain ⟨⟨⟨⟩, e⟩, hrun, -⟩ := bind_eq_ok.mp h
  rw [readOffsets, if_pos (ensure_eq_ok.mp hsize)]
  exact opcodeOffsets_eq LoopHead.start (Nat.le_add_left _ _) (Nat.le_add_left _ _) hrun

end Engine

/-- The walkers agree on where instructions start and end. Where the last
instruction is cut short, `remove_codeseparators` still removes nothing but
separators between instructions. -/
theorem walkers_agree (script : Bytes) :
    (Complete script →
      removeCodeseparators script =
        ((instructions script).filter (· ≠ [opCodeseparator])).flatten ∧
      (isPushOnly script ↔ ∀ i ∈ instructions script, isPushInstruction i) ∧
      ∀ crypto sigCtx stack,
        readOffsets ⟨crypto, script, sigCtx⟩ stack <+: starts 0 (instructions script) ∧
        ((execute ⟨crypto, script, sigCtx⟩ stack).isOk →
          readOffsets ⟨crypto, script, sigCtx⟩ stack = starts 0 (instructions script))) ∧
      (instructions script).flatten = script ∧
      (∀ i ∈ (instructions script).dropLast, isWhole i) ∧
      removeCodeseparators script =
        ((instructions script).filter (· ≠ [opCodeseparator])).flatten := by
  refine ⟨fun hcomplete => ⟨removeCodeseparators_eq script, isPushOnly_iff hcomplete, ?_⟩,
    instructions_flatten script, isWhole_of_mem_dropLast _ _, removeCodeseparators_eq script⟩
  intro crypto sigCtx stack
  refine ⟨readOffsets_isPrefix ⟨crypto, script, sigCtx⟩ stack, fun hok => ?_⟩
  obtain ⟨out, hout⟩ := isOk_iff.mp hok
  exact readOffsets_eq hout

end Ironcat.Script
