import Ironcat.BlockContext
import Ironcat.Script.FindAndDelete
import Ironcat.Script.Opcode
import Ironcat.SignatureHash

/-!
# The script engine

`Engine` of `script/engine.rs` and `verify_script` of `script/verify.rs`. The
fields of the engine that execution never writes (the script, the signature
context) are the environment; those only the control-flow opcodes read (the
conditions) are apart from the machine the other opcodes work on. Vectors have
their top at the end, as in the source, and an index out of range panics.
Lengths and positions in a script stay far below the range of `usize`.
-/

namespace Ironcat.Script

open Lib.ByteCodec Lib.Checked Types BlockContext SignatureHash

def maxScriptSize : ℕ := 10000

def maxOps : ℕ := 201

def maxStackSize : ℕ := 1000

def maxPushSize : ℕ := 520

def maxMultisigKeys : ℤ := 20

/-- The hashes and the signature check the engine calls. -/
structure Crypto extends Primitives where
  sha256 : Bytes → Bytes
  ripemd160 : Bytes → Bytes
  sha1 : Bytes → Bytes
  verifyEcdsa : Bytes → Bytes → Hash256 → Bool
  length_sha256 : ∀ data, (sha256 data).length = 32
  length_ripemd160 : ∀ data, (ripemd160 data).length = 20
  length_sha1 : ∀ data, (sha1 data).length = 20

/-- The callers pass the index of an input of the transaction. -/
structure SignatureContext where
  tx : Transaction
  inputIdx : Fin tx.vin.length

structure Env where
  crypto : Crypto
  script : Bytes
  sigCtx : Option SignatureContext

structure Machine where
  stack : List Bytes
  altStack : List Bytes
  pc : ℕ
  opCount : ℕ
  codesepPos : ℕ
deriving DecidableEq, Repr

structure Engine extends Machine where
  conditions : List Bool
deriving DecidableEq, Repr

/-- `Engine::with_stack` and, on the empty stack, `Engine::new`. -/
def Engine.withStack (stack : List Bytes) : Engine := ⟨⟨stack, [], 0, 0, 0⟩, []⟩

inductive Fault
  | error (e : ScriptError)
  | panic
deriving DecidableEq, Repr

abbrev Exec := StateT Machine (Except Fault)

abbrev EngineM := StateT Engine (Except Fault)

def demand {α : Type} (e : ScriptError) (o : Option α) : Except Fault α := okOr (.error e) o

def require (c : Prop) [Decidable c] (e : ScriptError) : Except Fault Unit := ensure c (.error e)

section Vec

variable {α : Type}

/-- `v[i]` -/
def index (v : List α) (i : ℕ) : Except Fault α := okOr .panic v[i]?

def lenMinus (v : List α) (n : ℕ) : Except Fault ℕ := do
  ensure (n ≤ v.length) .panic
  return v.length - n

def swap (v : List α) (i j : ℕ) : Except Fault (List α) := do
  let a ← index v i
  let b ← index v j
  return (v.set i b).set j a

def remove (v : List α) (i : ℕ) : Except Fault (α × List α) := do
  let a ← index v i
  return (a, v.eraseIdx i)

/-- `v.insert(i, a)` -/
def insert (v : List α) (i : ℕ) (a : α) : Except Fault (List α) := do
  ensure (i ≤ v.length) .panic
  return v.insertIdx i a

def sliceFrom (v : List α) (i : ℕ) : Except Fault (List α) := do
  ensure (i ≤ v.length) .panic
  return v.drop i

end Vec

/-- An element is false if it is empty, zero or negative zero. -/
def isTruthy (data : Bytes) : Bool :=
  data.dropLast.any (· ≠ 0x00) || data.getLast?.any fun b => b ≠ 0x00 && b ≠ 0x80

def encodeScriptNumber (value : ℤ) : Bytes :=
  let result := minimalBytes 8 value.natAbs
  match result.getLast? with
  | none => []
  | some last =>
    if last &&& 0x80 ≠ 0 then result ++ [if value < 0 then 0x80 else 0x00]
    else if value < 0 then result.dropLast ++ [last ||| 0x80]
    else result

def decodeScriptNumber (data : Bytes) : Except ScriptError ℤ :=
  match data.getLast? with
  | none => .ok 0
  | some last =>
    if 4 < data.length then .error .numericOverflow
    else if last &&& 0x80 ≠ 0 then .ok (-(ofLeBytes (data.dropLast ++ [last &&& 0x7f]) : ℤ))
    else .ok (ofLeBytes data)

def checkedI64 (n : ℤ) : Option ℤ := if i64Min ≤ n ∧ n ≤ i64Max then some n else none

def ofBool (b : Bool) : ℤ := if b then 1 else 0

def readByte (script : Bytes) : Exec UInt8 := do
  let m ← get
  let b ← demand .invalidPushSize script[m.pc]?
  set { m with pc := m.pc + 1 }
  return b

/-- The length field of `OP_PUSHDATA`: `k` bytes, least significant first. -/
def readLen (script : Bytes) : ℕ → Exec ℕ
  | 0 => return 0
  | k+1 => do
    let b ← readByte script
    let rest ← readLen script k
    return b.toNat + 256 * rest

def push (x : Bytes) : Exec Unit := modify fun m => { m with stack := m.stack ++ [x] }

def pushData (script : Bytes) (len : ℕ) : Exec Unit := do
  require (len ≤ maxPushSize) .invalidPushSize
  let m ← get
  require (m.pc + len ≤ script.length) .invalidPushSize
  set { m with pc := m.pc + len }
  push ((script.drop m.pc).take len)

def skipBytes (script : Bytes) (n : ℕ) : Exec Unit := do
  modify fun m => { m with pc := m.pc + n }
  let m ← get
  require (m.pc ≤ script.length) .invalidPushSize

def peek : Exec Bytes := do
  let m ← get
  demand .stackUnderflow m.stack.getLast?

def pop : Exec Bytes := do
  let m ← get
  let top ← demand .stackUnderflow m.stack.getLast?
  set { m with stack := m.stack.dropLast }
  return top

def requireStack (n : ℕ) : Exec Unit := do
  let m ← get
  require (n ≤ m.stack.length) .stackUnderflow

def popMany : ℕ → Exec (List Bytes)
  | 0 => return []
  | n+1 => do
    let x ← pop
    let xs ← popMany n
    return x :: xs

def popIndex : Exec ℕ := do
  let val ← pop
  let n ← (decodeScriptNumber val).mapError fun _ => Fault.error .invalidStackIndex
  require (0 ≤ n) .invalidStackIndex
  return n.toNat

def popNumber : Exec ℤ := do
  let val ← pop
  (decodeScriptNumber val).mapError Fault.error

def popTwoNumbers : Exec (ℤ × ℤ) := do
  let b ← popNumber
  let a ← popNumber
  return (a, b)

def pushNumber (n : ℤ) : Exec Unit := push (encodeScriptNumber n)

def unaryNumber (f : ℤ → Option ℤ) : Exec Unit := do
  let n ← popNumber
  let r ← demand .numericOverflow (f n)
  pushNumber r

def binaryNumber (f : ℤ → ℤ → Option ℤ) : Exec Unit := do
  let (a, b) ← popTwoNumbers
  let r ← demand .numericOverflow (f a b)
  pushNumber r

def hashTop (hash : Bytes → Bytes) : Exec Unit := do
  let data ← pop
  push (hash data)

def rearrange (n : ℕ) (f : List Bytes → Except Fault (List Bytes)) : Exec Unit := do
  requireStack n
  let m ← get
  let stack ← f m.stack
  set { m with stack }

def copyDeep (depths : List ℕ) (v : List Bytes) : Except Fault (List Bytes) := do
  let items ← depths.mapM fun d => do index v (← lenMinus v d)
  return v ++ items

def moveUp (d : ℕ) (v : List Bytes) : Except Fault (List Bytes) := do
  let (item, v) ← remove v (← lenMinus v d)
  return v ++ [item]

def nip (v : List Bytes) : Except Fault (List Bytes) := do
  let (_, v) ← remove v (← lenMinus v 2)
  return v

def tuck (v : List Bytes) : Except Fault (List Bytes) := do
  let top ← demand .stackUnderflow v.getLast?
  insert v (← lenMinus v 2) top

def rotPairs (v : List Bytes) : Except Fault (List Bytes) := do
  let i ← lenMinus v 6
  let (a, v) ← remove v i
  let (b, v) ← remove v i
  return v ++ [a] ++ [b]

def swapTop (v : List Bytes) : Except Fault (List Bytes) := do
  swap v (← lenMinus v 1) (← lenMinus v 2)

def swapPairs (v : List Bytes) : Except Fault (List Bytes) := do
  let w ← swap v (← lenMinus v 4) (← lenMinus v 2)
  swap w (← lenMinus v 3) (← lenMinus v 1)

section Signatures

variable (env : Env)

def sighash (ctx : SignatureContext) (scriptCode : Bytes) (hashType : UInt8) :
    Except Fault Hash256 :=
  okOr .panic (signatureHash env.crypto.toPrimitives ctx.tx ctx.inputIdx scriptCode hashType)

def hashTypeByte (sig : Bytes) : Except Fault UInt8 := do index sig (← lenMinus sig 1)

def opChecksig (verify : Bool) : Exec Unit := do
  let pubkey ← pop
  let sig ← pop
  if sig = [] then
    require (¬ verify) .checkSigFailed
    push []
  else
    let ctx ← demand .checkSigFailed env.sigCtx
    let hashType ← hashTypeByte sig
    let m ← get
    let scriptCode ← sliceFrom env.script m.codesepPos
    let hash ← sighash env ctx (findAndDelete scriptCode sig) hashType
    if env.crypto.verifyEcdsa sig pubkey hash then
      if verify then pure () else push [1]
    else
      require (¬ verify) .checkSigFailed
      push []

/-- The inner loop of `op_checkmultisig`: keys are tried, and used up, until one
verifies the signature. -/
def matchKey (sig : Bytes) (hash : Hash256) (keys : List Bytes) (nKeys : ℕ) :
    ℕ → ℕ → Except Fault (Bool × ℕ)
  | 0, keyIdx => .ok (false, keyIdx)
  | fuel+1, keyIdx =>
    if keyIdx < nKeys then do
      let key ← index keys keyIdx
      if env.crypto.verifyEcdsa sig key hash then .ok (true, keyIdx + 1)
      else matchKey sig hash keys nKeys fuel (keyIdx + 1)
    else .ok (false, keyIdx)

def matchSigs (ctx : SignatureContext) (scriptCode : Bytes) (keys : List Bytes) (nKeys : ℕ) :
    List Bytes → ℕ → Except Fault Bool
  | [], _ => .ok true
  | sig :: sigs, keyIdx =>
    if sig = [] then .ok false
    else do
      let hashType ← hashTypeByte sig
      let hash ← sighash env ctx scriptCode hashType
      let (matched, keyIdx) ← matchKey env sig hash keys nKeys (nKeys - keyIdx) keyIdx
      if matched then matchSigs ctx scriptCode keys nKeys sigs keyIdx else .ok false

def removeSigs (scriptCode : Bytes) (sigs : List Bytes) : Bytes :=
  sigs.foldl (fun code sig => if sig = [] then code else findAndDelete code sig) scriptCode

def addOps (n : ℕ) : Exec Unit := do
  modify fun m => { m with opCount := m.opCount + n }
  let m ← get
  require (m.opCount ≤ maxOps) .tooManyOps

def opCheckmultisig (verify : Bool) : Exec Unit := do
  let nKeys ← popNumber
  require (0 ≤ nKeys ∧ nKeys ≤ maxMultisigKeys) .multisigKeyCount
  let nKeys := nKeys.toNat
  requireStack nKeys
  let keys ← popMany nKeys
  addOps nKeys
  let nSigs ← popNumber
  require (0 ≤ nSigs ∧ nSigs ≤ nKeys) .multisigSigCount
  let nSigs := nSigs.toNat
  requireStack nSigs
  let sigs ← popMany nSigs
  -- one element more than the counts say
  let _ ← pop
  let ctx ← demand .checkMultiSigFailed env.sigCtx
  let m ← get
  let scriptCode ← sliceFrom env.script m.codesepPos
  let success ← matchSigs env ctx (removeSigs scriptCode sigs) keys nKeys sigs 0
  if success then
    if verify then pure () else push [1]
  else
    require (¬ verify) .checkMultiSigFailed
    push []

end Signatures

section Execute

variable (env : Env)

/-- The arms of `execute_opcode` that do not touch the conditions. -/
def plainOpcode : Opcode → Exec Unit
  | .op0 => push []
  | .pushBytes n => pushData env.script n.toNat
  | .pushData1 => do pushData env.script (← readLen env.script 1)
  | .pushData2 => do pushData env.script (← readLen env.script 2)
  | .pushData4 => do pushData env.script (← readLen env.script 4)
  | .op1Negate => push [0x81]
  | .opN n => push [n]
  | .opDup => do push (← peek)
  | .opDrop => do let _ ← pop
  | .opSwap => rearrange 2 swapTop
  | .opOver => rearrange 2 (copyDeep [2])
  | .opRot => rearrange 3 (moveUp 3)
  | .opNip => rearrange 2 nip
  | .opTuck => rearrange 2 tuck
  | .opPick => do
    let n ← popIndex
    rearrange (n + 1) (copyDeep [n + 1])
  | .opRoll => do
    let n ← popIndex
    rearrange (n + 1) (moveUp (n + 1))
  | .op2Dup => rearrange 2 (copyDeep [2, 1])
  | .op2Drop => rearrange 2 fun v => .ok v.dropLast.dropLast
  | .op3Dup => rearrange 3 (copyDeep [3, 2, 1])
  | .op2Over => rearrange 4 (copyDeep [4, 3])
  | .op2Rot => rearrange 6 rotPairs
  | .op2Swap => rearrange 4 swapPairs
  | .opIfDup => do
    let top ← peek
    if isTruthy top then push top else pure ()
  | .opDepth => do
    let m ← get
    pushNumber m.stack.length
  | .opSize => do
    let top ← peek
    pushNumber top.length
  | .opToAltStack => do
    let item ← pop
    modify fun m => { m with altStack := m.altStack ++ [item] }
  | .opFromAltStack => do
    let m ← get
    let item ← demand .stackUnderflow m.altStack.getLast?
    set { m with altStack := m.altStack.dropLast }
    push item
  | .opEqual => do
    requireStack 2
    let b ← pop
    let a ← pop
    push (if a = b then [0x01] else [])
  | .opEqualVerify => do
    requireStack 2
    let b ← pop
    let a ← pop
    require (a = b) .equalVerifyFailed
  -- control flow is `executeOpcode`'s
  | .opIf | .opNotIf | .opElse | .opEndIf => pure ()
  | .opNop _ | .opCheckLockTimeVerify | .opCheckSequenceVerify => pure ()
  | .opVerify => do
    let top ← pop
    require (isTruthy top) .falseReturned
  | .opReturn => throw (.error .opReturnEncountered)
  | .op1Add => unaryNumber fun n => checkedI64 (n + 1)
  | .op1Sub => unaryNumber fun n => checkedI64 (n - 1)
  | .opNegate => unaryNumber fun n => checkedI64 (-n)
  | .opAbs => unaryNumber fun n => checkedI64 |n|
  | .opNot => unaryNumber fun n => some (ofBool (n = 0))
  | .op0NotEqual => unaryNumber fun n => some (ofBool (n ≠ 0))
  | .opAdd => binaryNumber fun a b => checkedI64 (a + b)
  | .opSub => binaryNumber fun a b => checkedI64 (a - b)
  | .opBoolAnd => binaryNumber fun a b => some (ofBool (a ≠ 0 ∧ b ≠ 0))
  | .opBoolOr => binaryNumber fun a b => some (ofBool (a ≠ 0 ∨ b ≠ 0))
  | .opNumEqual => binaryNumber fun a b => some (ofBool (a = b))
  | .opNumEqualVerify => do
    let (a, b) ← popTwoNumbers
    require (a = b) .falseReturned
  | .opNumNotEqual => binaryNumber fun a b => some (ofBool (a ≠ b))
  | .opLessThan => binaryNumber fun a b => some (ofBool (a < b))
  | .opGreaterThan => binaryNumber fun a b => some (ofBool (a > b))
  | .opLessThanOrEqual => binaryNumber fun a b => some (ofBool (a ≤ b))
  | .opGreaterThanOrEqual => binaryNumber fun a b => some (ofBool (a ≥ b))
  | .opMin => binaryNumber fun a b => some (min a b)
  | .opMax => binaryNumber fun a b => some (max a b)
  | .opWithin => do
    let max ← popNumber
    let min ← popNumber
    let x ← popNumber
    pushNumber (ofBool (min ≤ x ∧ x < max))
  | .opSha256 => hashTop env.crypto.sha256
  | .opHash256 => hashTop fun data => env.crypto.sha256 (env.crypto.sha256 data)
  | .opHash160 => hashTop fun data => env.crypto.ripemd160 (env.crypto.sha256 data)
  | .opRipemd160 => hashTop env.crypto.ripemd160
  | .opSha1 => hashTop env.crypto.sha1
  | .opCodeSeparator => modify fun m => { m with codesepPos := m.pc }
  | .opCheckSig => opChecksig env false
  | .opCheckSigVerify => opChecksig env true
  | .opCheckMultiSig => opCheckmultisig env false
  | .opCheckMultiSigVerify => opCheckmultisig env true
  | .disabled b => throw (.error (.disabledOpcode b))
  | .invalid b => throw (.error (.invalidOpcode b))

def onMachine {α : Type} (prog : Exec α) : EngineM α := fun e => do
  let (a, m) ← prog e.toMachine
  return (a, { e with toMachine := m })

def pushCondition (c : Bool) : EngineM Unit := modify fun e => { e with conditions := e.conditions ++ [c] }

def opElse : EngineM Unit := do
  let e ← get
  let last ← demand .unbalancedConditional e.conditions.getLast?
  set { e with conditions := e.conditions.dropLast ++ [!last] }

def opEndif : EngineM Unit := do
  let e ← get
  let _ ← demand .unbalancedConditional e.conditions.getLast?
  set { e with conditions := e.conditions.dropLast }

def executeOpcode : Opcode → EngineM Unit
  | .opIf => do
    let top ← onMachine pop
    pushCondition (isTruthy top)
  | .opNotIf => do
    let top ← onMachine pop
    pushCondition (!isTruthy top)
  | .opElse => opElse
  | .opEndIf => opEndif
  | op => onMachine (plainOpcode env op)

def skipOpcode : Opcode → EngineM Unit
  | .opIf | .opNotIf => pushCondition false
  | .opElse => opElse
  | .opEndIf => opEndif
  | .pushBytes n => onMachine (skipBytes env.script n.toNat)
  | .pushData1 => onMachine do skipBytes env.script (← readLen env.script 1)
  | .pushData2 => onMachine do skipBytes env.script (← readLen env.script 2)
  | .pushData4 => onMachine do skipBytes env.script (← readLen env.script 4)
  | _ => pure ()

def isExecuting (e : Engine) : Bool := e.conditions.all id

def checkStackSize : Exec Unit := do
  let m ← get
  require (m.stack.length + m.altStack.length ≤ maxStackSize) .stackOverflow

def countOp (opcode : Opcode) : Exec Unit := if opcode.isPush then pure () else addOps 1

def step : EngineM Unit := do
  let byte ← onMachine (readByte env.script)
  let opcode := Opcode.ofByte byte
  require (¬ opcode.isDisabled) (.disabledOpcode byte)
  onMachine (countOp opcode)
  let e ← get
  if isExecuting e then
    executeOpcode env opcode
    onMachine checkStackSize
  else
    skipOpcode env opcode

def loop : ℕ → EngineM Unit
  | 0 => pure ()
  | fuel+1 => do
    let e ← get
    if e.pc < env.script.length then
      step env
      loop fuel
    else pure ()

def execute (stack : List Bytes) : Except Fault (List Bytes) := do
  require (env.script.length ≤ maxScriptSize) .scriptTooLarge
  let (_, e) ← loop env env.script.length (Engine.withStack stack)
  require (e.conditions = []) .unbalancedConditional
  return e.stack

end Execute

def requireTruthyTop (stack : List Bytes) : Except Fault Unit :=
  require (stack.getLast?.any isTruthy) .falseReturned

/-- The loop of `is_push_only` on what is left of the script. -/
def pushOnlyLoop : ℕ → Bytes → Bool
  | 0, _ => true
  | _+1, [] => true
  | fuel+1, op :: rest =>
    let script := op :: rest
    if op = 0x00 ∨ op = 0x4f ∨ (0x51 ≤ op ∧ op ≤ 0x60) then pushOnlyLoop fuel rest
    else if 0x01 ≤ op ∧ op ≤ 0x4b then pushOnlyLoop fuel (script.drop (1 + op.toNat))
    else if op = 0x4c then
      match rest with
      | [] => false
      | len :: _ => pushOnlyLoop fuel (script.drop (2 + len.toNat))
    else if op = 0x4d then
      if script.length < 3 then false
      else pushOnlyLoop fuel (script.drop (3 + ofLeBytes (rest.take 2)))
    else if op = 0x4e then
      if script.length < 5 then false
      else pushOnlyLoop fuel (script.drop (5 + ofLeBytes (rest.take 4)))
    else false

def isPushOnly (script : Bytes) : Bool := pushOnlyLoop script.length script

def isP2sh (script : Bytes) : Bool :=
  script.length = 23 ∧ script[0]? = some 0xa9 ∧ script[1]? = some 0x14 ∧ script[22]? = some 0x87

def verifyScript (crypto : Crypto) (scriptSig scriptPubkey : Bytes) (ctx : SignatureContext) :
    Except Fault Unit := do
  let sigStack ← execute ⟨crypto, scriptSig, some ctx⟩ []
  let finalStack ← execute ⟨crypto, scriptPubkey, some ctx⟩ sigStack
  requireTruthyTop finalStack
  if isP2sh scriptPubkey then
    require (isPushOnly scriptSig) .invalidRedeemScript
    let redeemScript ← demand .invalidRedeemScript sigStack.getLast?
    let redeemResult ← execute ⟨crypto, redeemScript, some ctx⟩ sigStack.dropLast
    requireTruthyTop redeemResult

/-! ## A concrete instance

Constant hashes, and signatures that are the key followed by a hash type. -/

def plainCrypto : Crypto where
  toPrimitives := poly
  sha256 _ := List.replicate 32 0
  ripemd160 _ := List.replicate 20 0
  sha1 _ := List.replicate 20 0
  verifyEcdsa sig key _ := sig.dropLast = key
  length_sha256 _ := rfl
  length_ripemd160 _ := rfl
  length_sha1 _ := rfl

def plainContext : SignatureContext := ⟨coinbaseTx 0 0, ⟨0, by decide⟩⟩

end Ironcat.Script
