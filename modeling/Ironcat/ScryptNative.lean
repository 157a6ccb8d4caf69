import Ironcat.Types
import Ironcat.Lib.Buffer
import Ironcat.Lib.Scrypt
import Mathlib

/-!
# The native scrypt

`pow/scrypt_native.rs`: scrypt for the parameters of the proof of work, on words,
in place, with a scratchpad that the caller keeps. SHA-256 is an arbitrary
function to 32 bytes, and a hasher is known by the bytes it has absorbed. Words
stand for their little-endian bytes, and every step of the native code on words
is the step of the specification on bytes.
-/

namespace Ironcat.ScryptNative

open Lib.ByteCodec Lib.Buffer Lib.Scrypt Types

abbrev Sha256 := Bytes → Vector UInt8 32

structure Hasher where
  absorbed : Bytes

def Hasher.new : Hasher := ⟨[]⟩

def Hasher.update (h : Hasher) (data : Bytes) : Hasher := ⟨h.absorbed ++ data⟩

def Hasher.finalize (sha256 : Sha256) (h : Hasher) : Vector UInt8 32 := sha256 h.absorbed

section Pbkdf2

variable (sha256 : Sha256)

def keyBuf (password : Bytes) : Vector UInt8 64 × ℕ :=
  let buf := Vector.replicate 64 0
  if password.length > 64 then (copyFromSlice buf 0 (sha256 password).toList, 32)
  else (copyFromSlice buf 0 password, password.length)

def keyedPad (key : Vector UInt8 64 × ℕ) (b : UInt8) : Vector UInt8 64 :=
  updateEach ((List.finRange 64).take key.2) (fun i pad => pad ^^^ key.1[i]) (Vector.replicate 64 b)

def toBeBytes (w : UInt32) : Bytes := (wordBytes w).reverse

def hmacBlock (innerBase outerBase : Hasher) (salt : Bytes) (blockIdx : ℕ) : Vector UInt8 32 :=
  let inner := (innerBase.update salt).update (toBeBytes (UInt32.ofNat blockIdx))
  let innerHash := inner.finalize sha256
  (outerBase.update innerHash.toList).finalize sha256

def pbkdf2Sha256Single (password salt : Bytes) {n : ℕ} (output : Vector UInt8 n) : Vector UInt8 n :=
  let blocksNeeded := (n + 31) / 32
  let key := keyBuf sha256 password
  let innerBase := Hasher.new.update (keyedPad key 0x36).toList
  let outerBase := Hasher.new.update (keyedPad key 0x5c).toList
  (List.range' 1 blocksNeeded).foldl (fun output blockIdx =>
    let t := hmacBlock sha256 innerBase outerBase salt blockIdx
    let start := (blockIdx - 1) * 32
    let stop := min n (start + 32)
    copyFromSlice output start (t.toList.take (stop - start))) output

end Pbkdf2

/-- `x[dst] ^= x[a].wrapping_add(x[b]).rotate_left(n)` -/
structure Mix where
  dst : Fin 16
  a : Fin 16
  b : Fin 16
  n : ℕ

def Mix.run (x : Vector UInt32 16) (s : Mix) : Vector UInt32 16 :=
  x.set s.dst (x[s.dst] ^^^ rotl (x[s.a] + x[s.b]) s.n) s.dst.isLt

def columnRound : List Mix := [
  ⟨4, 0, 12, 7⟩, ⟨8, 4, 0, 9⟩, ⟨12, 8, 4, 13⟩, ⟨0, 12, 8, 18⟩,
  ⟨9, 5, 1, 7⟩, ⟨13, 9, 5, 9⟩, ⟨1, 13, 9, 13⟩, ⟨5, 1, 13, 18⟩,
  ⟨14, 10, 6, 7⟩, ⟨2, 14, 10, 9⟩, ⟨6, 2, 14, 13⟩, ⟨10, 6, 2, 18⟩,
  ⟨3, 15, 11, 7⟩, ⟨7, 3, 15, 9⟩, ⟨11, 7, 3, 13⟩, ⟨15, 11, 7, 18⟩]

def rowRound : List Mix := [
  ⟨1, 0, 3, 7⟩, ⟨2, 1, 0, 9⟩, ⟨3, 2, 1, 13⟩, ⟨0, 3, 2, 18⟩,
  ⟨6, 5, 4, 7⟩, ⟨7, 6, 5, 9⟩, ⟨4, 7, 6, 13⟩, ⟨5, 4, 7, 18⟩,
  ⟨11, 10, 9, 7⟩, ⟨8, 11, 10, 9⟩, ⟨9, 8, 11, 13⟩, ⟨10, 9, 8, 18⟩,
  ⟨12, 15, 14, 7⟩, ⟨13, 12, 15, 9⟩, ⟨14, 13, 12, 13⟩, ⟨15, 14, 13, 18⟩]

def salsa208Core (b : Vector UInt32 16) : Vector UInt32 16 :=
  let x := (fun x => (columnRound ++ rowRound).foldl Mix.run x)^[4] b
  updateEach (List.finRange 16) (fun i w => w + x[i]) b

def blockMixSalsa8 (x : Vector UInt32 32) : Vector UInt32 32 :=
  let t := copyFromSlice (Vector.replicate 16 0) 0 (x.toList.drop 16)
  let t := updateEach (List.finRange 16) (fun i w => w ^^^ x[i.val]) t
  let t := salsa208Core t
  let x := copyFromSlice x 0 t.toList
  let t := updateEach (List.finRange 16) (fun i w => w ^^^ x[16 + i.val]) t
  let t := salsa208Core t
  copyFromSlice x 16 t.toList

def cost : ℕ := 1024

abbrev Scratchpad := Vector (Vector UInt32 32) cost

def loadWords (b : Vector UInt8 128) : Vector UInt32 32 :=
  updateEach (List.finRange 32) (fun i _ => UInt32.ofNat (ofLeBytes
    [b[i.val * 4], b[i.val * 4 + 1], b[i.val * 4 + 2], b[i.val * 4 + 3]])) (Vector.replicate 32 0)

def storeWords (x : Vector UInt32 32) (b : Vector UInt8 128) : Vector UInt8 128 :=
  (List.finRange 32).foldl (fun b i => copyFromSlice b (i.val * 4) (wordBytes x[i])) b

def fill {n : ℕ} (x : Vector UInt32 32) (v : Vector (Vector UInt32 32) n) :
    Vector UInt32 32 × Vector (Vector UInt32 32) n :=
  (List.finRange n).foldl (fun s (i : Fin n) => (blockMixSalsa8 s.1, s.2.set i s.1 i.isLt)) (x, v)

theorem mask_lt (w : UInt32) : (w &&& UInt32.ofNat (cost - 1)).toNat < cost := by
  rw [UInt32.toNat_and]
  exact Nat.and_lt_two_pow (n := 10) _ (by decide)

/-- A turn of the second phase: the entry is chosen by the first word of the
second half. -/
def lookup (v : Scratchpad) (x : Vector UInt32 32) : Vector UInt32 32 :=
  let j := x[16] &&& UInt32.ofNat (cost - 1)
  let entry := v.get ⟨j.toNat, mask_lt x[16]⟩
  blockMixSalsa8 (updateEach (List.finRange 32) (fun k w => w ^^^ entry[k]) x)

def smix (b : Vector UInt8 128) (v : Scratchpad) : Vector UInt8 128 × Scratchpad :=
  let filled := fill (loadWords b) v
  let x := (lookup filled.2)^[cost] filled.1
  (storeWords x b, filled.2)

/-- The hash, and the scratchpad it leaves. -/
def scrypt_1024_1_1_256 (sha256 : Sha256) (input : Bytes) (scratchpad : Scratchpad) :
    Vector UInt8 32 × Scratchpad :=
  let b := pbkdf2Sha256Single sha256 input input (Vector.replicate 128 0)
  let mixed := smix b scratchpad
  (pbkdf2Sha256Single sha256 input mixed.1.toList (Vector.replicate 32 0), mixed.2)

def powHash (sha256 : Sha256) (header : BlockHeader) (scratchpad : Scratchpad) :
    Vector UInt8 32 × Scratchpad :=
  scrypt_1024_1_1_256 sha256 header.toBytes scratchpad

/-- The hashes of one thread, each with the scratchpad the one before it left. -/
def powHashes (sha256 : Sha256) : List BlockHeader → Scratchpad → List (Vector UInt8 32)
  | [], _ => []
  | header :: headers, scratchpad =>
    let hashed := powHash sha256 header scratchpad
    hashed.1 :: powHashes sha256 headers hashed.2

def encode {n : ℕ} (x : Vector UInt32 n) : Bytes := ofWords x.toList

section Salsa

section

variable (x : Vector UInt32 16)

def grid : Grid := fun i j => x[4 * i.val + j.val]

theorem Mix.getElem_run (s : Mix) (x : Vector UInt32 16) (k : Fin 16) :
    (s.run x)[k] = if k = s.dst then x[s.dst] ^^^ rotl (x[s.a] + x[s.b]) s.n else x[k] := by
  change (s.run x)[k.val] = _
  rw [Mix.run, Vector.getElem_set]
  simp only [Fin.val_inj, eq_comm]
  rfl

def quarter (a b c d : Fin 16) : List Mix :=
  [⟨b, a, d, 7⟩, ⟨c, b, a, 9⟩, ⟨d, c, b, 13⟩, ⟨a, d, c, 18⟩]

theorem getElem_quarter {q : Fin 4 → Fin 16} (hq : Function.Injective q) (x : Vector UInt32 16)
    (k : Fin 4) :
    ((quarter (q 0) (q 1) (q 2) (q 3)).foldl Mix.run x)[q k] = quarterround (fun k => x[q k]) k := by
  simp only [quarter, List.foldl_cons, List.foldl_nil, Mix.getElem_run, hq.eq_iff, quarterround]
  fin_cases k <;> simp

theorem getElem_quarter_of_ne {q : Fin 4 → Fin 16} (x : Vector UInt32 16) {p : Fin 16}
    (hp : ∀ k, p ≠ q k) : ((quarter (q 0) (q 1) (q 2) (q 3)).foldl Mix.run x)[p] = x[p] := by
  simp only [quarter, List.foldl_cons, List.foldl_nil, Mix.getElem_run, hp, if_false]

theorem getElem_lines {line : Fin 4 → Fin 4 → Fin 16} (hline : Function.Injective2 line)
    {lines : List (Fin 4)} (hlines : lines.Nodup) (x : Vector UInt32 16) (i k : Fin 4) :
    ((lines.flatMap fun i => quarter (line i 0) (line i 1) (line i 2) (line i 3)).foldl Mix.run x)[line i k] =
      if i ∈ lines then quarterround (fun k => x[line i k]) k else x[line i k] := by
  induction lines generalizing x with
  | nil => simp
  | cons j lines ih =>
    obtain ⟨hj, hlines⟩ := List.nodup_cons.mp hlines
    have hother : ∀ i, i ≠ j → ∀ k, ((quarter (line j 0) (line j 1) (line j 2) (line j 3)).foldl
        Mix.run x)[line i k] = x[line i k] :=
      fun i hij k => getElem_quarter_of_ne x fun k' hk => hij (hline hk).1
    rw [List.flatMap_cons, List.foldl_append, ih hlines]
    by_cases hij : i = j
    · subst hij
      simp [hj, getElem_quarter (hline.right i)]
    · simp [hij, hother i hij]

def rowLine (i k : Fin 4) : Fin 16 := ⟨4 * i.val + (i + k).val, by omega⟩

def columnLine (i k : Fin 4) : Fin 16 := ⟨4 * (i + k).val + i.val, by omega⟩

theorem rowRound_eq : rowRound = (List.finRange 4).flatMap fun i =>
    quarter (rowLine i 0) (rowLine i 1) (rowLine i 2) (rowLine i 3) := rfl

theorem columnRound_eq : columnRound = (List.finRange 4).flatMap fun i =>
    quarter (columnLine i 0) (columnLine i 1) (columnLine i 2) (columnLine i 3) := rfl

theorem rowLine_injective2 : Function.Injective2 rowLine := by
  have hline : ∀ i i' k k', rowLine i k = rowLine i' k' → i = i' ∧ k = k' := by decide
  exact hline

theorem columnLine_injective2 : Function.Injective2 columnLine := by
  have hline : ∀ i i' k k', columnLine i k = columnLine i' k' → i = i' ∧ k = k' := by decide
  exact hline

theorem grid_rowRound : grid (rowRound.foldl Mix.run x) = rowround (grid x) := by
  funext i j
  have hpos : rowLine i (j - i) = ⟨4 * i.val + j.val, by omega⟩ := by simp [rowLine]
  have hentry := getElem_lines rowLine_injective2 (List.nodup_finRange 4) x i (j - i)
  rw [if_pos (List.mem_finRange i), ← rowRound_eq] at hentry
  simp only [hpos] at hentry
  exact hentry

theorem grid_columnRound : grid (columnRound.foldl Mix.run x) = columnround (grid x) := by
  funext i j
  have hpos : columnLine j (i - j) = ⟨4 * i.val + j.val, by omega⟩ := by simp [columnLine]
  have hentry := getElem_lines columnLine_injective2 (List.nodup_finRange 4) x j (i - j)
  rw [if_pos (List.mem_finRange j), ← columnRound_eq] at hentry
  simp only [hpos] at hentry
  exact hentry

theorem grid_doubleRound :
    grid ((columnRound ++ rowRound).foldl Mix.run x) = doubleround (grid x) := by
  rw [List.foldl_append, grid_rowRound, grid_columnRound, doubleround]

theorem ofGrid_eq (f : Fin 16 → UInt32) :
    ofGrid (fun i j => f ⟨4 * i.val + j.val, by omega⟩) = List.ofFn f := rfl

theorem toGrid_toList : toGrid x.toList = grid x := by
  funext i j
  have hlt : 4 * i.val + j.val < 16 := by omega
  simp [toGrid, grid, hlt]

end

theorem encode_salsa208Core (b : Vector UInt32 16) :
    encode (salsa208Core b) = salsa208 (encode b) := by
  have hrounds := Function.Semiconj.iterate_right grid_doubleRound 4 b
  rw [encode, encode, salsa208, toWords_ofWords, toGrid_toList, salsa208Core, toList_updateEach, ← hrounds]
  generalize (fun x => (columnRound ++ rowRound).foldl Mix.run x)^[4] b = x
  exact congrArg ofWords (ofGrid_eq fun i => b[i] + x[i]).symm

end Salsa

variable {n : ℕ}

section BlockMix

def xorWith {n : ℕ} (w v : Vector UInt32 n) : Vector UInt32 n :=
  updateEach (List.finRange n) (fun i a => a ^^^ w.get i) v

theorem encode_xorWith (w v : Vector UInt32 n) :
    encode (xorWith w v) = xorBytes (encode v) (encode w) := by
  have hxor : (xorWith w v).toList = List.zipWith (· ^^^ ·) v.toList w.toList :=
    toList_updateEach_zipWith (· ^^^ ·) v w
  rw [encode, hxor, ofWords_xor]
  rfl

section

variable (x : Vector UInt32 32)

def lower : Vector UInt32 16 := Vector.ofFn fun i => x[i.val]

def upper : Vector UInt32 16 := Vector.ofFn fun i => x[16 + i.val]

theorem take_toList : x.toList.take 16 = (lower x).toList := by
  apply List.ext_getElem
  · simp
  · intro i hi hi'
    simp [lower]

theorem drop_toList : x.toList.drop 16 = (upper x).toList := by
  apply List.ext_getElem
  · simp
  · intro i hi hi'
    simp [upper]

theorem encode_eq : encode x = encode (lower x) ++ encode (upper x) := by
  rw [encode, ← List.take_append_drop 16 x.toList, take_toList, drop_toList, ofWords_append]
  rfl

theorem length_encode (x : Vector UInt32 n) : (encode x).length = 4 * n := by
  simp [encode]

theorem toList_copy_lower (t : Vector UInt32 16) :
    (copyFromSlice x 0 t.toList).toList = t.toList ++ (upper x).toList := by
  rw [toList_copyFromSlice (by simp), ← drop_toList]
  simp

theorem toList_copy_upper (t : Vector UInt32 16) :
    (copyFromSlice x 16 t.toList).toList = (lower x).toList ++ t.toList := by
  rw [toList_copyFromSlice (by simp), take_toList]
  simp

theorem lower_copy (t : Vector UInt32 16) : lower (copyFromSlice x 0 t.toList) = t := by
  apply Vector.toList_inj.mp
  rw [← take_toList, toList_copy_lower]
  simp

theorem upper_copy (t : Vector UInt32 16) : upper (copyFromSlice x 0 t.toList) = upper x := by
  apply Vector.toList_inj.mp
  rw [← drop_toList, toList_copy_lower]
  simp

theorem toList_blockMixSalsa8 :
    (blockMixSalsa8 x).toList =
      (salsa208Core (xorWith (lower x) (upper x))).toList ++
        (salsa208Core (xorWith (upper x) (salsa208Core (xorWith (lower x) (upper x))))).toList := by
  have hload : copyFromSlice (Vector.replicate 16 0) 0 (x.toList.drop 16) = upper x := by
    apply Vector.toList_inj.mp
    rw [toList_copyFromSlice (by simp), drop_toList]
    simp
  have heven : updateEach (List.finRange 16) (fun i w => w ^^^ x[i.val]) (upper x) =
      xorWith (lower x) (upper x) := by
    simp [xorWith, lower]
  have hodd : ∀ (y : Vector UInt32 32) (t : Vector UInt32 16),
      updateEach (List.finRange 16) (fun i w => w ^^^ y[16 + i.val]) t = xorWith (upper y) t := by
    intro y t
    simp [xorWith, upper]
  rw [blockMixSalsa8, hload, heven]
  simp only [hodd, toList_copy_upper, lower_copy, upper_copy]

theorem chunk_append {lo hi : Bytes} (hlo : lo.length = n) (hhi : hi.length = n) :
    chunk n (lo ++ hi) 0 = lo ∧ chunk n (lo ++ hi) 1 = hi := by
  subst hlo
  simp [chunk, hhi]

theorem blockMix_one {lo hi : Bytes} (hlo : lo.length = 64) (hhi : hi.length = 64) :
    blockMix 1 (lo ++ hi) = salsa208 (xorBytes hi lo) ++
      salsa208 (xorBytes (salsa208 (xorBytes hi lo)) hi) := by
  obtain ⟨h₀, h₁⟩ := chunk_append hlo hhi
  simp [blockMix, List.range_succ, h₀, h₁, mixBlocks]

theorem encode_blockMixSalsa8 : encode (blockMixSalsa8 x) = blockMix 1 (encode x) := by
  rw [encode, toList_blockMixSalsa8, ofWords_append, encode_eq x,
    blockMix_one (length_encode _) (length_encode _)]
  simp only [← encode_xorWith, ← encode_salsa208Core]
  rfl

end

end BlockMix

section SMix

theorem fill_eq (x : Vector UInt32 32) (v : Vector (Vector UInt32 32) n) :
    (fill x v).1 = blockMixSalsa8^[n] x ∧ ∀ i : Fin n, (fill x v).2.get i = blockMixSalsa8^[i.val] x := by
  -- after `k` turns the first `k` entries are written
  let inv (k : ℕ) (s : Vector UInt32 32 × Vector (Vector UInt32 32) n) : Prop :=
    s.1 = blockMixSalsa8^[k] x ∧ ∀ i : Fin n, i.val < k → s.2[i] = blockMixSalsa8^[i.val] x
  have hfill : inv (List.finRange n).length (fill x v) := by
    refine foldl_invariant inv ⟨rfl, fun i hi => absurd hi (Nat.not_lt_zero _)⟩ ?_
    rintro k hk s ⟨hx, hv⟩
    refine ⟨by rw [hx, Function.iterate_succ_apply'], fun i hi => ?_⟩
    rw [Fin.getElem_fin, Vector.getElem_set, List.getElem_finRange]
    split_ifs with hik
    · rw [hx, ← hik]
      rfl
    · refine hv i (lt_of_le_of_ne (Nat.le_of_lt_succ hi) fun h => hik h.symm)
  rw [List.length_finRange] at hfill
  exact ⟨hfill.1, fun i => hfill.2 i i.isLt⟩

theorem toList_storeWords (x : Vector UInt32 32) (b : Vector UInt8 128) :
    (storeWords x b).toList = encode x := by
  unfold storeWords
  refine (toList_foldl_copyFromSlice List.length_finRange (fun i => length_wordBytes (x.get i))
    (by omega) (fun i hi hi' b => ?_) b).trans ?_
  · rw [List.take_of_length_le (by rw [length_wordBytes]; omega), List.getElem_finRange]
    rfl
  · have hwords : (List.ofFn fun i => wordBytes (x.get i)).flatten = encode x := by
      rw [encode, ofWords, List.flatMap, toList_eq_ofFn, List.map_ofFn]
      rfl
    rw [hwords, List.take_of_length_le (length_encode x).le, List.drop_of_length_le (by simp),
      List.append_nil]

theorem encode_loadWords (b : Vector UInt8 128) : encode (loadWords b) = b.toList := by
  rw [← flatten_chunks (m := 32) (k := 4) rfl b, encode, ofWords, List.flatMap, loadWords, toList_updateEach,
    List.map_ofFn]
  refine congrArg List.flatten (congrArg List.ofFn (funext fun i => ?_))
  exact wordBytes_ofLeBytes rfl

theorem and_mask (w : UInt32) : (w &&& UInt32.ofNat (cost - 1)).toNat = w.toNat % cost := by
  rw [UInt32.toNat_and]
  exact Nat.and_two_pow_sub_one_eq_mod w.toNat 10

theorem ofLeBytes_ofWords_mod (w : UInt32) (ws : List UInt32) :
    ofLeBytes (ofWords (w :: ws)) % cost = w.toNat % cost := by
  rw [ofWords_cons, ofLeBytes_append, length_wordBytes, ofLeBytes_wordBytes]
  have hword : 256 ^ 4 = cost * 2 ^ 22 := by decide
  rw [hword, Nat.mul_assoc, Nat.add_mul_mod_self_left]

theorem integerify_encode (x : Vector UInt32 32) :
    integerify 1 (encode x) % cost = (x[16] &&& UInt32.ofNat (cost - 1)).toNat := by
  have hupper : (upper x).toList = x[16] :: x.toList.drop 17 := by
    rw [← drop_toList, List.drop_eq_getElem_cons (by simp)]
    simp
  have hchunk := (chunk_append (n := 64) (length_encode (lower x)) (length_encode (upper x))).2
  rw [integerify, encode_eq, Nat.mul_one, hchunk, encode, hupper, ofLeBytes_ofWords_mod, and_mask]

theorem encode_iterate (k : ℕ) (x : Vector UInt32 32) :
    encode (blockMixSalsa8^[k] x) = (blockMix 1)^[k] (encode x) := by
  have hmix : Function.Semiconj encode blockMixSalsa8 (blockMix 1) := encode_blockMixSalsa8
  exact hmix.iterate_right k x

theorem encode_lookup {x₀ : Vector UInt32 32} {v : Scratchpad}
    (hv : ∀ i : Fin cost, v[i] = blockMixSalsa8^[i.val] x₀) (x : Vector UInt32 32) :
    encode (lookup v x) =
      blockMix 1 (xorBytes (encode x) ((blockMix 1)^[integerify 1 (encode x) % cost] (encode x₀))) := by
  have hentry : v.get ⟨_, mask_lt x[16]⟩ =
      blockMixSalsa8^[(x[16] &&& UInt32.ofNat (cost - 1)).toNat] x₀ := hv ⟨_, mask_lt x[16]⟩
  rw [integerify_encode, ← encode_iterate, ← hentry, ← encode_xorWith, ← encode_blockMixSalsa8]
  rfl

theorem toList_smix (b : Vector UInt8 128) (v : Scratchpad) :
    (smix b v).1.toList = roMix 1 b.toList cost := by
  obtain ⟨hx, hv⟩ := fill_eq (loadWords b) v
  have hlookup : Function.Semiconj encode (lookup (fill (loadWords b) v).2) fun x =>
      blockMix 1 (xorBytes x ((blockMix 1)^[integerify 1 x % cost] (encode (loadWords b)))) :=
    encode_lookup hv
  have hrun := hlookup.iterate_right cost (fill (loadWords b) v).1
  rw [hx, encode_iterate, encode_loadWords, ← hx] at hrun
  rw [smix, toList_storeWords, hrun, roMix]

end SMix

section Pbkdf2

variable (sha256 : Sha256)

theorem toList_keyedPad {key : Bytes} (hkey : key.length ≤ 64) (b : UInt8) :
    (keyedPad (copyFromSlice (Vector.replicate 64 0) 0 key, key.length) b).toList =
      xorBytes (key ++ List.replicate (64 - key.length) 0) (List.replicate 64 b) := by
  have hbuf : (copyFromSlice (Vector.replicate 64 0) 0 key).toList =
      key ++ List.replicate (64 - key.length) 0 := by
    rw [toList_copyFromSlice (by omega), Vector.toList_replicate, List.take_zero, List.nil_append,
      List.drop_replicate, Nat.zero_add]
  rw [keyedPad, updateEach_take, toList_updateEach_zipWith, hbuf, Vector.toList_replicate, xorBytes]
  · exact List.zipWith_comm_of_comm UInt8.xor_comm
  · intro i hi
    have hzero : (copyFromSlice (Vector.replicate 64 0) 0 key)[i] = 0 := by
      simp [copyFromSlice, List.getElem?_eq_none hi]
    simp [hzero]

theorem keyedPad_keyBuf (password : Bytes) (b : UInt8) :
    (keyedPad (keyBuf sha256 password) b).toList =
      xorBytes (hmacKey (fun data => (sha256 data).toList) 64 password) (List.replicate 64 b) := by
  unfold keyBuf hmacKey
  split_ifs with hlong
  · have hkey : (sha256 password).toList.length ≤ 64 := by simp
    have hpad := toList_keyedPad hkey b
    simpa using hpad
  · exact toList_keyedPad (Nat.le_of_not_lt hlong) b

theorem toBeBytes_ofNat (i : ℕ) : toBeBytes (UInt32.ofNat i) = int i := by
  have hmod := leBytes_ofLeBytes (leBytes 4 i)
  rw [leBytes_length, ofLeBytes_leBytes_mod] at hmod
  rw [toBeBytes, wordBytes, int, UInt32.toNat_ofNat']
  exact congrArg List.reverse hmod

theorem toList_hmacBlock (password salt : Bytes) (blockIdx : ℕ) :
    (hmacBlock sha256 (Hasher.new.update (keyedPad (keyBuf sha256 password) 0x36).toList)
      (Hasher.new.update (keyedPad (keyBuf sha256 password) 0x5c).toList) salt blockIdx).toList =
        pbkdf2Block (hmac (fun data => (sha256 data).toList) 64) password salt 1 blockIdx := by
  simp only [hmacBlock, Hasher.new, Hasher.update, Hasher.finalize, keyedPad_keyBuf, toBeBytes_ofNat,
    List.nil_append, List.append_assoc]
  rfl

theorem toList_pbkdf2Sha256Single (password salt : Bytes) (output : Vector UInt8 n) :
    (pbkdf2Sha256Single sha256 password salt output).toList =
      pbkdf2 (hmac (fun data => (sha256 data).toList) 64) 32 password salt 1 n := by
  unfold pbkdf2Sha256Single
  refine (toList_foldl_copyFromSlice List.length_range' (k := 32)
    (f := fun i => pbkdf2Block (hmac (fun data => (sha256 data).toList) 64) password salt 1 (i + 1))
    (fun i => ?_) (by omega) (fun i hi hi' v => ?_) output).trans ?_
  · rw [← toList_hmacBlock, Vector.length_toList]
  · have hlen := congrArg List.length (toList_hmacBlock sha256 password salt (i + 1))
    rw [Vector.length_toList] at hlen
    simp only [List.getElem_range', toList_hmacBlock, Nat.one_mul, Nat.add_comm 1 i, Nat.add_sub_cancel]
    refine congrArg _ (List.take_eq_take_iff.mpr ?_)
    omega
  · have hblocks : (List.ofFn fun i : Fin ((n + 31) / 32) => pbkdf2Block
        (hmac (fun data => (sha256 data).toList) 64) password salt 1 (i + 1)) =
          (List.range ((n + 31) / 32)).map fun i => pbkdf2Block
            (hmac (fun data => (sha256 data).toList) 64) password salt 1 (i + 1) := by
      apply List.ext_getElem <;> simp
    rw [hblocks, List.drop_of_length_le (by rw [Vector.length_toList]; omega), List.append_nil]
    rfl

end Pbkdf2

section PowHash

variable (sha256 : Sha256)

theorem toList_scrypt_1024_1_1_256 (input : Bytes) (scratchpad : Scratchpad) :
    (scrypt_1024_1_1_256 sha256 input scratchpad).1.toList =
      scrypt (fun data => (sha256 data).toList) input input 1024 1 1 32 := by
  unfold scrypt_1024_1_1_256
  have hchunk : ∀ b : Bytes, chunk 128 (b.take 128) 0 = b.take 128 := by
    simp [chunk]
  rw [toList_pbkdf2Sha256Single, toList_smix, toList_pbkdf2Sha256Single, scrypt]
  simp only [List.range_one, List.flatMap_singleton, Nat.one_mul, Nat.mul_one, pbkdf2, hchunk, cost]

theorem powHashes_eq (headers : List BlockHeader) (scratchpad : Scratchpad) :
    (powHashes sha256 headers scratchpad).map Vector.toList = headers.map fun header =>
      scrypt (fun data => (sha256 data).toList) header.toBytes header.toBytes 1024 1 1 32 := by
  induction headers generalizing scratchpad with
  | nil => rfl
  | cons header headers ih =>
    rw [powHashes, List.map_cons, ih, List.map_cons, powHash, toList_scrypt_1024_1_1_256]

/-- The native hash is scrypt, whatever the scratchpad holds, and so are the hashes
of a thread that keeps its scratchpad. -/
theorem native_scrypt_correct (scratchpad : Scratchpad) :
    (∀ input, (scrypt_1024_1_1_256 sha256 input scratchpad).1.toList =
      scrypt (fun data => (sha256 data).toList) input input 1024 1 1 32) ∧
    ∀ headers, (powHashes sha256 headers scratchpad).map Vector.toList = headers.map fun header =>
      scrypt (fun data => (sha256 data).toList) header.toBytes header.toBytes 1024 1 1 32 :=
  ⟨fun input => toList_scrypt_1024_1_1_256 sha256 input scratchpad,
    fun headers => powHashes_eq sha256 headers scratchpad⟩

end PowHash

end Ironcat.ScryptNative
