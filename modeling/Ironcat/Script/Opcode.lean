import Mathlib

/-!
# Script opcodes

`Opcode` and its reading from a byte, and the errors of script execution.
-/

namespace Ironcat.Script

inductive ScriptError
  | invalidOpcode (byte : UInt8)
  | disabledOpcode (byte : UInt8)
  | stackUnderflow
  | stackOverflow
  | scriptTooLarge
  | tooManyOps
  | invalidPushSize
  | equalVerifyFailed
  | checkSigFailed
  | checkMultiSigFailed
  | invalidSignatureEncoding
  | unbalancedConditional
  | falseReturned
  | opReturnEncountered
  | invalidRedeemScript
  | numericOverflow
  | multisigKeyCount
  | multisigSigCount
  | invalidStackIndex
deriving DecidableEq, Repr

inductive Opcode
  | op0
  | pushBytes (n : UInt8)
  | pushData1
  | pushData2
  | pushData4
  | op1Negate
  | opN (n : UInt8)
  | opNop (n : UInt8)
  | opIf
  | opNotIf
  | opElse
  | opEndIf
  | opVerify
  | opReturn
  | opToAltStack
  | opFromAltStack
  | op2Drop
  | op2Dup
  | op3Dup
  | op2Over
  | op2Rot
  | op2Swap
  | opIfDup
  | opDepth
  | opDrop
  | opDup
  | opNip
  | opOver
  | opPick
  | opRoll
  | opRot
  | opSwap
  | opTuck
  | opSize
  | opEqual
  | opEqualVerify
  | op1Add
  | op1Sub
  | opNegate
  | opAbs
  | opNot
  | op0NotEqual
  | opAdd
  | opSub
  | opBoolAnd
  | opBoolOr
  | opNumEqual
  | opNumEqualVerify
  | opNumNotEqual
  | opLessThan
  | opGreaterThan
  | opLessThanOrEqual
  | opGreaterThanOrEqual
  | opMin
  | opMax
  | opWithin
  | opRipemd160
  | opSha1
  | opSha256
  | opHash160
  | opHash256
  | opCodeSeparator
  | opCheckSig
  | opCheckSigVerify
  | opCheckMultiSig
  | opCheckMultiSigVerify
  | opCheckLockTimeVerify
  | opCheckSequenceVerify
  | disabled (byte : UInt8)
  | invalid (byte : UInt8)
deriving DecidableEq, Repr

namespace Opcode

def ofByte (byte : UInt8) : Opcode :=
  if 0x01 ≤ byte ∧ byte ≤ 0x4b then .pushBytes byte
  else if 0x51 ≤ byte ∧ byte ≤ 0x60 then .opN (byte - 0x50)
  else if 0x7e ≤ byte ∧ byte ≤ 0x81 then .disabled byte
  else if 0x83 ≤ byte ∧ byte ≤ 0x86 then .disabled byte
  else if 0x95 ≤ byte ∧ byte ≤ 0x99 then .disabled byte
  else if 0xb3 ≤ byte ∧ byte ≤ 0xb9 then .opNop (byte - 0xaf)
  else
    match byte with
    | 0x00 => .op0
    | 0x4c => .pushData1
    | 0x4d => .pushData2
    | 0x4e => .pushData4
    | 0x4f => .op1Negate
    | 0x61 => .opNop 0
    | 0x63 => .opIf
    | 0x64 => .opNotIf
    | 0x67 => .opElse
    | 0x68 => .opEndIf
    | 0x69 => .opVerify
    | 0x6a => .opReturn
    | 0x6b => .opToAltStack
    | 0x6c => .opFromAltStack
    | 0x6d => .op2Drop
    | 0x6e => .op2Dup
    | 0x6f => .op3Dup
    | 0x70 => .op2Over
    | 0x71 => .op2Rot
    | 0x72 => .op2Swap
    | 0x73 => .opIfDup
    | 0x74 => .opDepth
    | 0x75 => .opDrop
    | 0x76 => .opDup
    | 0x77 => .opNip
    | 0x78 => .opOver
    | 0x79 => .opPick
    | 0x7a => .opRoll
    | 0x7b => .opRot
    | 0x7c => .opSwap
    | 0x7d => .opTuck
    | 0x82 => .opSize
    | 0x87 => .opEqual
    | 0x88 => .opEqualVerify
    | 0x8b => .op1Add
    | 0x8c => .op1Sub
    | 0x8d => .disabled byte
    | 0x8e => .disabled byte
    | 0x8f => .opNegate
    | 0x90 => .opAbs
    | 0x91 => .opNot
    | 0x92 => .op0NotEqual
    | 0x93 => .opAdd
    | 0x94 => .opSub
    | 0x9a => .opBoolAnd
    | 0x9b => .opBoolOr
    | 0x9c => .opNumEqual
    | 0x9d => .opNumEqualVerify
    | 0x9e => .opNumNotEqual
    | 0x9f => .opLessThan
    | 0xa0 => .opGreaterThan
    | 0xa1 => .opLessThanOrEqual
    | 0xa2 => .opGreaterThanOrEqual
    | 0xa3 => .opMin
    | 0xa4 => .opMax
    | 0xa5 => .opWithin
    | 0xa6 => .opRipemd160
    | 0xa7 => .opSha1
    | 0xa8 => .opSha256
    | 0xa9 => .opHash160
    | 0xaa => .opHash256
    | 0xab => .opCodeSeparator
    | 0xac => .opCheckSig
    | 0xad => .opCheckSigVerify
    | 0xae => .opCheckMultiSig
    | 0xaf => .opCheckMultiSigVerify
    | 0xb0 => .opNop 1
    | 0xb1 => .opCheckLockTimeVerify
    | 0xb2 => .opCheckSequenceVerify
    | _ => .invalid byte

def isDisabled : Opcode → Bool
  | .disabled _ => true
  | _ => false

def isPush : Opcode → Bool
  | .op0 | .pushBytes _ | .pushData1 | .pushData2 | .pushData4 | .op1Negate | .opN _ => true
  | _ => false

def hasPayload : Opcode → Bool
  | .pushBytes _ | .pushData1 | .pushData2 | .pushData4 => true
  | _ => false

theorem forall_byte {p : UInt8 → Prop} (h : ∀ n < 256, p (UInt8.ofNat n)) (byte : UInt8) :
    p byte := by
  have hbyte := h byte.toNat byte.toNat_lt
  rwa [UInt8.ofNat_toNat] at hbyte

theorem ofByte_cases (byte : UInt8) :
    (byte ≤ 0x4b ∧ byte ≠ 0 ∧ ofByte byte = .pushBytes byte) ∨
      (byte = 0x4c ∧ ofByte byte = .pushData1) ∨ (byte = 0x4d ∧ ofByte byte = .pushData2) ∨
      (byte = 0x4e ∧ ofByte byte = .pushData4) ∨
      ((byte ≤ 0x4b → byte = 0) ∧ byte ≠ 0x4c ∧ byte ≠ 0x4d ∧ byte ≠ 0x4e ∧
        (ofByte byte).hasPayload = false) := by
  revert byte
  exact forall_byte (by decide +kernel)

end Opcode

end Ironcat.Script
