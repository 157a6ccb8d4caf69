import Ironcat.BlockWire
import Ironcat.Lib.PrefixCode

/-!
# What a signature hash commits to

`signature_hash` of `script/signature.rs` serializes the transaction with the
parts that the hash type leaves open blanked out. These bytes are those of
another transaction followed by the hash type, and a transaction's bytes
determine it.
-/

namespace Ironcat.SignatureHash

open Lib.ByteCodec Lib.PrefixCode Types BlockWire

def opCodeseparator : UInt8 := 0xab

/-- The loop of `remove_codeseparators` on what is left of the script. A push
that runs past the end is copied as far as it goes. -/
def removeLoop : ℕ → Bytes → Bytes
  | 0, _ => []
  | _+1, [] => []
  | fuel+1, op :: rest =>
    let script := op :: rest
    let copy (n : ℕ) := script.take n ++ removeLoop fuel (script.drop n)
    if op = opCodeseparator then removeLoop fuel rest
    else if op ≤ 0x4b then copy (1 + op.toNat)
    else if op = 0x4c then
      match rest with
      | [] => [op]
      | len :: _ => copy (2 + len.toNat)
    else if op = 0x4d then
      if script.length < 3 then script else copy (3 + ofLeBytes (rest.take 2))
    else if op = 0x4e then
      if script.length < 5 then script else copy (5 + ofLeBytes (rest.take 4))
    else op :: removeLoop fuel rest

def removeCodeseparators (script : Bytes) : Bytes := removeLoop script.length script

def instructionSize (op : UInt8) (rest : Bytes) : ℕ :=
  if op ≤ 0x4b then 1 + op.toNat
  else if op = 0x4c then 2 + ofLeBytes (rest.take 1)
  else if op = 0x4d then 3 + ofLeBytes (rest.take 2)
  else if op = 0x4e then 5 + ofLeBytes (rest.take 4)
  else 1

def splitInstructions : ℕ → Bytes → List Bytes
  | 0, _ => []
  | _+1, [] => []
  | fuel+1, op :: rest =>
    (op :: rest).take (instructionSize op rest) ::
      splitInstructions fuel ((op :: rest).drop (instructionSize op rest))

def instructions (script : Bytes) : List Bytes := splitInstructions script.length script

theorem instructionSize_pos (op : UInt8) (rest : Bytes) : 0 < instructionSize op rest := by
  unfold instructionSize
  split_ifs <;> omega

theorem removeLoop_nil (fuel : ℕ) : removeLoop fuel [] = [] := by
  cases fuel <;> rfl

theorem take_instruction_eq_iff (op : UInt8) (rest : Bytes) :
    (op :: rest).take (instructionSize op rest) = [opCodeseparator] ↔ op = opCodeseparator := by
  obtain ⟨n, hn⟩ := Nat.exists_eq_succ_of_ne_zero (instructionSize_pos op rest).ne'
  rw [hn, List.take_succ_cons]
  constructor
  · intro h
    exact (List.cons.inj h).1
  · rintro rfl
    have hsize : instructionSize opCodeseparator rest = 1 := rfl
    obtain rfl : n = 0 := by omega
    rfl

theorem removeLoop_cons {fuel : ℕ} {op : UInt8} (rest : Bytes) (hop : op ≠ opCodeseparator) :
    removeLoop (fuel + 1) (op :: rest) = (op :: rest).take (instructionSize op rest) ++
      removeLoop fuel ((op :: rest).drop (instructionSize op rest)) := by
  have hshort : ∀ n, rest.length + 1 ≤ n → op :: rest = (op :: rest).take n ++
      removeLoop fuel ((op :: rest).drop n) := by
    intro n hn
    rw [List.take_of_length_le hn, List.drop_of_length_le hn, removeLoop_nil, List.append_nil]
  simp only [removeLoop, hop, if_false, instructionSize]
  split_ifs with h₁ h₂ h₃ h₄ h₅ h₆
  · rfl
  · cases rest with
    | nil => exact hshort _ (by rw [List.length_nil]; omega)
    | cons len rest => simp [ofLeBytes]
  · exact hshort _ (by simp only [List.length_cons] at h₄; omega)
  · rfl
  · exact hshort _ (by simp only [List.length_cons] at h₆; omega)
  · rfl
  · rfl

theorem removeLoop_eq (fuel : ℕ) (script : Bytes) (hfuel : script.length ≤ fuel) :
    removeLoop fuel script =
      ((splitInstructions fuel script).filter (· ≠ [opCodeseparator])).flatten := by
  induction fuel generalizing script with
  | zero => rfl
  | succ fuel ih =>
    cases script with
    | nil => rfl
    | cons op rest =>
      have hpos := instructionSize_pos op rest
      have hrest := ih ((op :: rest).drop (instructionSize op rest)) (by
        rw [List.length_drop]
        omega)
      rw [splitInstructions]
      by_cases hop : op = opCodeseparator
      · rw [List.filter_cons_of_neg (by simp [take_instruction_eq_iff, hop]), ← hrest]
        subst hop
        rfl
      · rw [List.filter_cons_of_pos (by simp [take_instruction_eq_iff, hop]), List.flatten_cons,
          ← hrest, removeLoop_cons rest hop]

theorem removeCodeseparators_eq (script : Bytes) : removeCodeseparators script =
    ((instructions script).filter (· ≠ [opCodeseparator])).flatten :=
  removeLoop_eq script.length script le_rfl

theorem splitInstructions_flatten (fuel : ℕ) (script : Bytes) (hfuel : script.length ≤ fuel) :
    (splitInstructions fuel script).flatten = script := by
  induction fuel generalizing script with
  | zero => exact (List.eq_nil_of_length_eq_zero (Nat.le_zero.mp hfuel)).symm
  | succ fuel ih =>
    cases script with
    | nil => rfl
    | cons op rest =>
      have hpos := instructionSize_pos op rest
      rw [splitInstructions, List.flatten_cons, ih _ (by rw [List.length_drop]; omega),
        List.take_append_drop]

theorem instructions_flatten (script : Bytes) : (instructions script).flatten = script :=
  splitInstructions_flatten script.length script le_rfl

theorem length_removeCodeseparators_le (script : Bytes) :
    (removeCodeseparators script).length ≤ script.length := by
  have hsub : ((instructions script).filter (· ≠ [opCodeseparator])).flatten.length ≤
      (instructions script).flatten.length :=
    (List.filter_sublist.flatten).length_le
  rwa [instructions_flatten, ← removeCodeseparators_eq] at hsub

def baseType (hashType : UInt8) : UInt8 := hashType &&& 0x1f

def anyonecanpay (hashType : UInt8) : Bool := hashType &&& 0x80 ≠ 0

def outpointBytes (input : TxIn) : Bytes :=
  input.prevOutput.txid.asBytes ++ leBytes 4 input.prevOutput.index.toNat

def inputBytes (inputIdx : ℕ) (scriptCode : Bytes) (base : UInt8) (input : TxIn) (i : ℕ) : Bytes :=
  outpointBytes input ++
    (if i = inputIdx then writeVarint scriptCode.length ++ scriptCode else writeVarint 0) ++
    if (base = 2 ∨ base = 3) ∧ i ≠ inputIdx then leBytes 4 0 else leBytes 4 input.sequence.toNat

section

variable (tx : Transaction) (inputIdx : ℕ) (scriptCode : Bytes) (hashType : UInt8)

def inputsBytes : Option Bytes :=
  if anyonecanpay hashType then do
    let input ← tx.vin[inputIdx]?
    return writeVarint 1 ++ outpointBytes input ++ writeVarint scriptCode.length ++ scriptCode ++
      leBytes 4 input.sequence.toNat
  else
    return writeVarint tx.vin.length ++ tx.vin.zipIdx.flatMap fun (input, i) =>
      inputBytes inputIdx scriptCode (baseType hashType) input i

def outputBytes (output : TxOut) : Bytes :=
  leBytes 8 output.value.toUInt64.toNat ++ writeVarint output.scriptPubkey.length ++
    output.scriptPubkey

def blankOutputBytes : Bytes := leBytes 8 (-1 : Int64).toUInt64.toNat ++ writeVarint 0

def outputsBytes (base : UInt8) : Bytes :=
  if base = 2 then writeVarint 0
  else if base = 3 then
    -- the loop breaks behind the output of the signing input
    writeVarint (inputIdx + 1) ++
      (tx.vout.zipIdx.takeWhile fun e => e.2 ≤ inputIdx).flatMap fun (output, i) =>
        if i < inputIdx then blankOutputBytes else outputBytes output
  else writeVarint tx.vout.length ++ tx.vout.flatMap outputBytes

/-- The buffer that is hashed. -/
def signatureBytes : Option Bytes := do
  let inputs ← inputsBytes tx inputIdx (removeCodeseparators scriptCode) hashType
  return leBytes 4 tx.version.toUInt32.toNat ++ inputs ++
    outputsBytes tx inputIdx (baseType hashType) ++ leBytes 4 tx.locktime.toNat ++
    leBytes 4 hashType.toNat

def signatureHash (P : Primitives) (tx : Transaction) (inputIdx : ℕ) (scriptCode : Bytes)
    (hashType : UInt8) : Option Hash256 :=
  if baseType hashType = 3 ∧ tx.vout.length ≤ inputIdx then some 1
  else (signatureBytes tx inputIdx scriptCode hashType).map P.doubleSha256

def signedInput (base : UInt8) (i : ℕ) (input : TxIn) : TxIn where
  prevOutput := input.prevOutput
  scriptSig := if i = inputIdx then scriptCode else []
  sequence := if (base = 2 ∨ base = 3) ∧ i ≠ inputIdx then 0 else input.sequence

def blankOutput : TxOut := ⟨-1, []⟩

def signedTx :
    Transaction where
  version := tx.version
  vin :=
    if anyonecanpay hashType then
      (tx.vin[inputIdx]?).toList.map (signedInput inputIdx scriptCode (baseType hashType) inputIdx)
    else tx.vin.mapIdx (signedInput inputIdx scriptCode (baseType hashType))
  vout :=
    if baseType hashType = 2 then []
    else if baseType hashType = 3 then
      List.replicate inputIdx blankOutput ++ (tx.vout[inputIdx]?).toList
    else tx.vout
  locktime := tx.locktime

end

section Signed

variable {tx : Transaction} {inputIdx : ℕ} {scriptCode : Bytes} {hashType base : UInt8}

theorem inputBytes_eq (input : TxIn) (i : ℕ) : inputBytes inputIdx scriptCode base input i =
    (signedInput inputIdx scriptCode base i input).toBytes := by
  by_cases hi : i = inputIdx <;> by_cases hbase : base = 2 ∨ base = 3 <;>
    simp [inputBytes, signedInput, TxIn.toBytes, OutPoint.toBytes, outpointBytes, hi, hbase]

theorem inputsBytes_eq {input : TxIn} (hinput : tx.vin[inputIdx]? = some input) :
    inputsBytes tx inputIdx scriptCode hashType =
      some (writeVarint (signedTx tx inputIdx scriptCode hashType).vin.length ++
        (signedTx tx inputIdx scriptCode hashType).vin.flatMap TxIn.toBytes) := by
  cases hacp : anyonecanpay hashType with
  | true =>
    simp [inputsBytes, signedTx, hacp, hinput, signedInput, TxIn.toBytes, OutPoint.toBytes,
      outpointBytes]
  | false =>
    have hflat : (tx.vin.mapIdx (signedInput inputIdx scriptCode (baseType hashType))).flatMap
        TxIn.toBytes = tx.vin.zipIdx.flatMap fun e =>
          inputBytes inputIdx scriptCode (baseType hashType) e.1 e.2 := by
      simp only [List.mapIdx_eq_zipIdx_map, List.flatMap_map, inputBytes_eq]
    simp [inputsBytes, signedTx, hacp, hflat]

theorem takeWhile_zipIdx_le {α : Type} (l : List α) (k n : ℕ) :
    (l.zipIdx k).takeWhile (fun e => e.2 ≤ n) = (l.take (n + 1 - k)).zipIdx k := by
  induction l generalizing k with
  | nil => simp
  | cons a l ih =>
    rw [List.zipIdx_cons]
    by_cases hk : k ≤ n
    · have hsub : n + 1 - k = (n + 1 - (k + 1)) + 1 := by omega
      rw [List.takeWhile_cons_of_pos (by simpa using hk), ih, hsub, List.take_succ_cons,
        List.zipIdx_cons]
    · rw [List.takeWhile_cons_of_neg (by simpa using hk), Nat.sub_eq_zero_of_le (by omega),
        List.take_zero, List.zipIdx_nil]

theorem flatMap_blank {l : List TxOut} {k n : ℕ} (hlen : l.length + k ≤ n) :
    ((l.zipIdx k).flatMap fun e => if e.2 < n then blankOutputBytes else outputBytes e.1) =
      (List.replicate l.length blankOutput).flatMap TxOut.toBytes := by
  induction l generalizing k with
  | nil => rfl
  | cons o l ih =>
    rw [List.length_cons] at hlen
    have hblank : TxOut.toBytes blankOutput = blankOutputBytes := by
      simp [TxOut.toBytes, blankOutput, blankOutputBytes]
    rw [List.zipIdx_cons, List.flatMap_cons, if_pos (by omega), ih (by omega), List.length_cons,
      List.replicate_succ, List.flatMap_cons, hblank]

theorem outputsBytes_eq (hsingle : baseType hashType = 3 → inputIdx < tx.vout.length) :
    outputsBytes tx inputIdx (baseType hashType) =
      writeVarint (signedTx tx inputIdx scriptCode hashType).vout.length ++
        (signedTx tx inputIdx scriptCode hashType).vout.flatMap TxOut.toBytes := by
  have hbytes : outputBytes = TxOut.toBytes := rfl
  simp only [outputsBytes, signedTx]
  split_ifs with hnone hthree
  · simp
  · have hlt := hsingle hthree
    have hlen : (tx.vout.take inputIdx).length = inputIdx := List.length_take_of_le hlt.le
    have hlast := List.getElem?_eq_getElem hlt
    have hblank := @flatMap_blank (tx.vout.take inputIdx) 0 inputIdx hlen.le
    rw [hlen] at hblank
    rw [takeWhile_zipIdx_le, Nat.sub_zero, List.take_add_one, hlast, List.zipIdx_append,
      List.flatMap_append, List.flatMap_append, hblank, hlen]
    simp [hbytes]
  · rw [hbytes]

theorem signatureBytes_eq (hinput : inputIdx < tx.vin.length)
    (hsingle : baseType hashType = 3 → inputIdx < tx.vout.length) :
    signatureBytes tx inputIdx scriptCode hashType =
      some ((signedTx tx inputIdx (removeCodeseparators scriptCode) hashType).toBytes ++
        leBytes 4 hashType.toNat) := by
  rw [signatureBytes, inputsBytes_eq (List.getElem?_eq_getElem hinput),
    @outputsBytes_eq tx inputIdx (removeCodeseparators scriptCode) hashType hsingle]
  simp [Transaction.toBytes, signedTx]

end Signed

/-- The lengths of a transaction's vectors are 64-bit numbers. -/
structure Sized (tx : Transaction) : Prop where
  vin : tx.vin.length < 2 ^ 64
  vout : tx.vout.length < 2 ^ 64
  scriptSig : ∀ i ∈ tx.vin, i.scriptSig.length < 2 ^ 64
  scriptPubkey : ∀ o ∈ tx.vout, o.scriptPubkey.length < 2 ^ 64

theorem splits_writeVarint : Splits (· < 2 ^ 64) writeVarint id :=
  splits_of_reads fun _ hn => decodeVarint_reads (by omega)

theorem splits_leBytes (k : ℕ) : Splits (· < 256 ^ k) (leBytes k) id :=
  splits_of_reads fun _ hn => Reader.reads_readLe hn

theorem splits_txIn : Splits (fun i : TxIn => i.scriptSig.length < 2 ^ 64) TxIn.toBytes id := by
  have houtpoint : Splits (fun _ => True) OutPoint.toBytes id :=
    splits_of_reads fun o _ => readOutPoint_reads o
  have hsequence := (splits_leBytes 4).comap (fun i : TxIn => i.sequence.toNat)
    fun i (_ : i.scriptSig.length < 2 ^ 64) => i.sequence.toNat_lt
  have hscript := splits_writeVarint.sized.comap TxIn.scriptSig fun _ h => h
  refine ((houtpoint.comap TxIn.prevOutput fun _ _ => trivial).append
    (hscript.append hsequence)).congr (fun i => by simp [TxIn.toBytes]) ?_
  rintro ⟨o, script, sequence⟩ ⟨o', script', sequence'⟩ h
  simpa [UInt32.toNat_inj] using h

theorem splits_txOut : Splits (fun o : TxOut => o.scriptPubkey.length < 2 ^ 64) TxOut.toBytes id := by
  have hvalue := (splits_leBytes 8).comap (fun o : TxOut => o.value.toUInt64.toNat)
    fun o (_ : o.scriptPubkey.length < 2 ^ 64) => o.value.toUInt64.toNat_lt
  have hscript := splits_writeVarint.sized.comap TxOut.scriptPubkey fun _ h => h
  refine (hvalue.append hscript).congr (fun o => by simp [TxOut.toBytes]) ?_
  rintro ⟨⟨value⟩, script⟩ ⟨⟨value'⟩, script'⟩ h
  simpa [UInt64.toNat_inj] using h

theorem splits_transaction : Splits Sized Transaction.toBytes id := by
  have hversion := (splits_leBytes 4).comap (fun tx : Transaction => tx.version.toUInt32.toNat)
    fun tx (_ : Sized tx) => tx.version.toUInt32.toNat_lt
  have hlocktime := (splits_leBytes 4).comap (fun tx : Transaction => tx.locktime.toNat)
    fun tx (_ : Sized tx) => tx.locktime.toNat_lt
  have hvin := (splits_writeVarint.counted splits_txIn).comap Transaction.vin
    fun tx (h : Sized tx) => ⟨h.vin, h.scriptSig⟩
  have hvout := (splits_writeVarint.counted splits_txOut).comap Transaction.vout
    fun tx (h : Sized tx) => ⟨h.vout, h.scriptPubkey⟩
  refine (hversion.append (hvin.append (hvout.append hlocktime))).congr
    (fun tx => by simp [Transaction.toBytes]) ?_
  rintro ⟨⟨version⟩, vin, vout, locktime⟩ ⟨⟨version'⟩, vin', vout', locktime'⟩ h
  simpa [UInt32.toNat_inj] using h

/-- The parts of transaction, script code and hash type that the signature of
input `i` commits to are the same. -/
structure SameCommitment (i : ℕ) (tx₁ tx₂ : Transaction) (script₁ script₂ : Bytes)
    (hashType₁ hashType₂ : UInt8) : Prop where
  hashType : hashType₁ = hashType₂
  version : tx₁.version = tx₂.version
  locktime : tx₁.locktime = tx₂.locktime
  outpoint : (tx₁.vin[i]?).map TxIn.prevOutput = (tx₂.vin[i]?).map TxIn.prevOutput
  sequence : (tx₁.vin[i]?).map TxIn.sequence = (tx₂.vin[i]?).map TxIn.sequence
  scriptCode : removeCodeseparators script₁ = removeCodeseparators script₂
  otherInputs : anyonecanpay hashType₁ = false → tx₁.vin.length = tx₂.vin.length ∧ ∀ j ≠ i,
    (tx₁.vin[j]?).map TxIn.prevOutput = (tx₂.vin[j]?).map TxIn.prevOutput ∧
    (baseType hashType₁ ≠ 2 → baseType hashType₁ ≠ 3 →
      (tx₁.vin[j]?).map TxIn.sequence = (tx₂.vin[j]?).map TxIn.sequence)
  outputs : baseType hashType₁ ≠ 2 → baseType hashType₁ ≠ 3 → tx₁.vout = tx₂.vout
  output : baseType hashType₁ = 3 → tx₁.vout[i]? = tx₂.vout[i]?

section Committed

variable {i : ℕ} {tx₁ tx₂ : Transaction} {script₁ script₂ : Bytes} {hashType base : UInt8}

theorem map_signedInput_eq_iff {j : ℕ} {o₁ o₂ : Option TxIn} :
    o₁.map (signedInput i script₁ base j) = o₂.map (signedInput i script₂ base j) ↔
      o₁.map TxIn.prevOutput = o₂.map TxIn.prevOutput ∧
      (j = i ∨ base ≠ 2 ∧ base ≠ 3 → o₁.map TxIn.sequence = o₂.map TxIn.sequence) ∧
      (j = i → o₁.isSome → o₂.isSome → script₁ = script₂) := by
  cases o₁ <;> cases o₂ <;> by_cases hj : j = i <;> by_cases hbase : base = 2 ∨ base = 3 <;>
    simp_all [signedInput] <;> tauto

theorem signedVin_eq_iff (hi₁ : i < tx₁.vin.length) (hi₂ : i < tx₂.vin.length) :
    (signedTx tx₁ i script₁ hashType).vin = (signedTx tx₂ i script₂ hashType).vin ↔
      (tx₁.vin[i]?).map TxIn.prevOutput = (tx₂.vin[i]?).map TxIn.prevOutput ∧
      (tx₁.vin[i]?).map TxIn.sequence = (tx₂.vin[i]?).map TxIn.sequence ∧ script₁ = script₂ ∧
      (anyonecanpay hashType = false → tx₁.vin.length = tx₂.vin.length ∧ ∀ j ≠ i,
        (tx₁.vin[j]?).map TxIn.prevOutput = (tx₂.vin[j]?).map TxIn.prevOutput ∧
        (baseType hashType ≠ 2 → baseType hashType ≠ 3 →
          (tx₁.vin[j]?).map TxIn.sequence = (tx₂.vin[j]?).map TxIn.sequence)) := by
  have hsome₁ : (tx₁.vin[i]?).isSome := by simpa using hi₁
  have hsome₂ : (tx₂.vin[i]?).isSome := by simpa using hi₂
  have hsigning : (tx₁.vin[i]?).map (signedInput i script₁ (baseType hashType) i) =
      (tx₂.vin[i]?).map (signedInput i script₂ (baseType hashType) i) ↔
      (tx₁.vin[i]?).map TxIn.prevOutput = (tx₂.vin[i]?).map TxIn.prevOutput ∧
      (tx₁.vin[i]?).map TxIn.sequence = (tx₂.vin[i]?).map TxIn.sequence ∧ script₁ = script₂ := by
    rw [map_signedInput_eq_iff]
    simp [hsome₁, hsome₂]
  cases hacp : anyonecanpay hashType with
  | true =>
    have htoList : ∀ {o₁ o₂ : Option TxIn}, o₁.toList = o₂.toList ↔ o₁ = o₂ := by
      intro o₁ o₂
      cases o₁ <;> cases o₂ <;> simp
    simp [signedTx, hacp, ← Option.toList_map, htoList, hsigning]
  | false =>
    simp only [signedTx, hacp, Bool.false_eq_true, if_false]
    constructor
    · intro h
      have hget : ∀ j, (tx₁.vin[j]?).map (signedInput i script₁ (baseType hashType) j) =
          (tx₂.vin[j]?).map (signedInput i script₂ (baseType hashType) j) := by
        intro j
        simpa using congrArg (·[j]?) h
      obtain ⟨hprev, hsequence, hscript⟩ := hsigning.mp (hget i)
      refine ⟨hprev, hsequence, hscript, fun _ => ⟨by simpa using congrArg List.length h, ?_⟩⟩
      intro j _
      obtain ⟨hprev, hsequence, _⟩ := map_signedInput_eq_iff.mp (hget j)
      exact ⟨hprev, fun hnone hsingle => hsequence (.inr ⟨hnone, hsingle⟩)⟩
    · rintro ⟨hprev, hsequence, hscript, hothers⟩
      refine List.ext_getElem? fun j => ?_
      rw [List.getElem?_mapIdx, List.getElem?_mapIdx]
      by_cases hj : j = i
      · rw [hj]
        exact hsigning.mpr ⟨hprev, hsequence, hscript⟩
      · obtain ⟨hprev, hsequence⟩ := (hothers trivial).2 j hj
        refine map_signedInput_eq_iff.mpr ⟨hprev, fun h => ?_, fun h => absurd h hj⟩
        exact hsequence (h.resolve_left hj).1 (h.resolve_left hj).2

theorem signedVout_eq_iff (hsingle₁ : baseType hashType = 3 → i < tx₁.vout.length)
    (hsingle₂ : baseType hashType = 3 → i < tx₂.vout.length) :
    (signedTx tx₁ i script₁ hashType).vout = (signedTx tx₂ i script₂ hashType).vout ↔
      (baseType hashType ≠ 2 → baseType hashType ≠ 3 → tx₁.vout = tx₂.vout) ∧
      (baseType hashType = 3 → tx₁.vout[i]? = tx₂.vout[i]?) := by
  simp only [signedTx]
  split_ifs with hnone hthree
  · simp [hnone]
  · rw [List.getElem?_eq_getElem (hsingle₁ hthree), List.getElem?_eq_getElem (hsingle₂ hthree)]
    simp [hthree]
  · simp [hnone, hthree]

theorem signedTx_eq_iff (hi₁ : i < tx₁.vin.length) (hi₂ : i < tx₂.vin.length)
    (hsingle₁ : baseType hashType = 3 → i < tx₁.vout.length)
    (hsingle₂ : baseType hashType = 3 → i < tx₂.vout.length) :
    signedTx tx₁ i (removeCodeseparators script₁) hashType =
        signedTx tx₂ i (removeCodeseparators script₂) hashType ↔
      SameCommitment i tx₁ tx₂ script₁ script₂ hashType hashType := by
  have hparts : ∀ a b : Transaction, a = b ↔ a.version = b.version ∧ a.vin = b.vin ∧
      a.vout = b.vout ∧ a.locktime = b.locktime := by
    rintro ⟨_, _, _, _⟩ ⟨_, _, _, _⟩
    simp
  rw [hparts, signedVin_eq_iff hi₁ hi₂, signedVout_eq_iff hsingle₁ hsingle₂]
  constructor
  · rintro ⟨hversion, ⟨hprev, hsequence, hscript, hothers⟩, ⟨houtputs, houtput⟩, hlocktime⟩
    exact ⟨rfl, hversion, hlocktime, hprev, hsequence, hscript, hothers, houtputs, houtput⟩
  · intro h
    exact ⟨h.version, ⟨h.outpoint, h.sequence, h.scriptCode, h.otherInputs⟩,
      ⟨h.outputs, h.output⟩, h.locktime⟩

theorem sized_signedTx {tx : Transaction} (h : Sized tx) (hi : i < tx.vin.length)
    (hscript : script₁.length < 2 ^ 64) : Sized (signedTx tx i script₁ hashType) := by
  have hvin := h.vin
  have hsigned : ∀ k input, (signedInput i script₁ (baseType hashType) k input).scriptSig.length <
      2 ^ 64 := by
    intro k input
    simp only [signedInput]
    split_ifs
    · exact hscript
    · exact Nat.two_pow_pos 64
  have hlength : (tx.vout[i]?).toList.length ≤ 1 := by cases tx.vout[i]? <;> simp
  constructor
  · simp only [signedTx]
    split_ifs
    · simp [List.getElem?_eq_getElem hi]
    · simpa using h.vin
  · simp only [signedTx]
    split_ifs
    · simp
    · rw [List.length_append, List.length_replicate]
      omega
    · exact h.vout
  · intro input hinput
    simp only [signedTx] at hinput
    split_ifs at hinput
    · obtain ⟨a, _, rfl⟩ := List.mem_map.mp hinput
      exact hsigned i a
    · obtain ⟨k, hk, rfl⟩ := List.mem_mapIdx.mp hinput
      exact hsigned k _
  · intro output houtput
    simp only [signedTx] at houtput
    split_ifs at houtput
    · cases houtput
    · rcases List.mem_append.mp houtput with houtput | houtput
      · rw [List.eq_of_mem_replicate houtput]
        exact Nat.two_pow_pos 64
      · exact h.scriptPubkey output (List.mem_of_getElem? (Option.mem_toList.mp houtput))
    · exact h.scriptPubkey output houtput

end Committed

/-- Two signature hashes for input `i` are equal exactly when what they commit
to is. -/
theorem signatureHash_eq_iff (P : Primitives) (i : ℕ) (tx₁ tx₂ : Transaction)
    (script₁ script₂ : Bytes) (hashType₁ hashType₂ : UInt8)
    (hsized₁ : Sized tx₁) (hsized₂ : Sized tx₂)
    (hscript₁ : script₁.length < 2 ^ 64) (hscript₂ : script₂.length < 2 ^ 64)
    (hi₁ : i < tx₁.vin.length) (hi₂ : i < tx₂.vin.length)
    (hsingle₁ : baseType hashType₁ = 3 → i < tx₁.vout.length)
    (hsingle₂ : baseType hashType₂ = 3 → i < tx₂.vout.length)
    (hinj : Set.InjOn P.doubleSha256 {bytes | signatureBytes tx₁ i script₁ hashType₁ = some bytes ∨
      signatureBytes tx₂ i script₂ hashType₂ = some bytes}) :
    signatureHash P tx₁ i script₁ hashType₁ = signatureHash P tx₂ i script₂ hashType₂ ↔
      SameCommitment i tx₁ tx₂ script₁ script₂ hashType₁ hashType₂ := by
  have hbytes₁ := @signatureBytes_eq tx₁ i script₁ hashType₁ hi₁ hsingle₁
  have hbytes₂ := @signatureBytes_eq tx₂ i script₂ hashType₂ hi₂ hsingle₂
  have hopen₁ : ¬ (baseType hashType₁ = 3 ∧ tx₁.vout.length ≤ i) :=
    fun h => absurd (hsingle₁ h.1) (not_lt.mpr h.2)
  have hopen₂ : ¬ (baseType hashType₂ = 3 ∧ tx₂.vout.length ≤ i) :=
    fun h => absurd (hsingle₂ h.1) (not_lt.mpr h.2)
  rw [signatureHash, signatureHash, if_neg hopen₁, if_neg hopen₂, hbytes₁, hbytes₂, Option.map_some,
    Option.map_some, Option.some.injEq]
  constructor
  · intro h
    have hbytes := hinj (.inl hbytes₁) (.inr hbytes₂) h
    obtain ⟨htx, hhash⟩ := splits_transaction _ _
      (sized_signedTx hsized₁ hi₁ ((length_removeCodeseparators_le script₁).trans_lt hscript₁))
      (sized_signedTx hsized₂ hi₂ ((length_removeCodeseparators_le script₂).trans_lt hscript₂))
      _ _ hbytes
    have hlt : ∀ hashType : UInt8, hashType.toNat < 256 ^ 4 :=
      fun hashType => hashType.toNat_lt.trans (by norm_num)
    obtain rfl : hashType₁ = hashType₂ :=
      UInt8.toNat_inj.mp ((splits_leBytes 4).key_eq (hlt _) (hlt _) hhash)
    exact (signedTx_eq_iff hi₁ hi₂ hsingle₁ hsingle₂).mp htx
  · intro h
    obtain rfl := h.hashType
    rw [(signedTx_eq_iff hi₁ hi₂ hsingle₁ hsingle₂).mpr h]

def twoInputTx (scriptSig : Bytes) (sequence : UInt32) (vout : List TxOut) : Transaction where
  version := 1
  vin := [⟨⟨5, 0⟩, scriptSig, 9⟩, ⟨⟨6, 1⟩, scriptSig, sequence⟩]
  vout := vout
  locktime := 0

/-- Signed with NONE, the outputs, the other input's sequence and every script
are open, and a separator in the script code does not count. -/
theorem none_leaves_open :
    signatureHash poly (twoInputTx [] 1 [⟨50, []⟩]) 0 [0x76, 0xab] 2 =
      signatureHash poly (twoInputTx [1, 2] 3 []) 0 [0xab, 0x76] 2 := by
  have hsame : signatureBytes (twoInputTx [] 1 [⟨50, []⟩]) 0 [0x76, 0xab] 2 =
      signatureBytes (twoInputTx [1, 2] 3 []) 0 [0xab, 0x76] 2 := by
    decide +kernel
  refine (signatureHash_eq_iff poly 0 _ _ _ _ 2 2 ?_ ?_ (by decide) (by decide)
    (by decide) (by decide) (by decide) (by decide) ?_).mpr ?_
  · exact ⟨by decide, by decide, by decide, by decide⟩
  · exact ⟨by decide, by decide, by decide, by decide⟩
  · rw [hsame]
    intro a ha b hb _
    exact Option.some.inj ((or_self_iff.mp ha).symm.trans (or_self_iff.mp hb))
  · refine ⟨rfl, rfl, rfl, rfl, rfl, by decide, fun _ => ⟨rfl, fun j hj => ⟨?_, ?_⟩⟩, ?_, ?_⟩
    · match j with
      | 0 => rfl
      | 1 => rfl
      | _ + 2 => rfl
    · exact fun h => absurd rfl h
    · exact fun h => absurd rfl h
    · exact fun h => absurd h (by decide)

end Ironcat.SignatureHash
