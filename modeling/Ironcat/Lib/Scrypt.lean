import Ironcat.Lib.ByteCodec
import Mathlib.Data.Matrix.Basic

/-!
# scrypt

The password-based key derivation of RFC 7914, on byte strings: HMAC (RFC 2104)
over a hash function, PBKDF2 (RFC 8018), the Salsa20/8 core, scryptBlockMix and
scryptROMix, for any cost, block size and parallelization.
-/

namespace Ironcat.Lib.Scrypt

open Lib.ByteCodec

def xorBytes (a b : Bytes) : Bytes := List.zipWith (· ^^^ ·) a b

section Pbkdf2

def hmacKey (hash : Bytes → Bytes) (block : ℕ) (key : Bytes) : Bytes :=
  let key := if block < key.length then hash key else key
  key ++ List.replicate (block - key.length) 0

def hmac (hash : Bytes → Bytes) (block : ℕ) (key text : Bytes) : Bytes :=
  let pad (b : UInt8) := xorBytes (hmacKey hash block key) (List.replicate block b)
  hash (pad 0x5c ++ hash (pad 0x36 ++ text))

def int (i : ℕ) : Bytes := (leBytes 4 i).reverse

variable (prf : Bytes → Bytes → Bytes)

def iterated (password : Bytes) : ℕ → Bytes → Bytes
  | 0, u => u
  | k+1, u => xorBytes u (iterated password k (prf password u))

/-- The block `T_i` of PBKDF2. -/
def pbkdf2Block (password salt : Bytes) (c i : ℕ) : Bytes :=
  iterated prf password (c - 1) (prf password (salt ++ int i))

def pbkdf2 (hLen : ℕ) (password salt : Bytes) (c dkLen : ℕ) : Bytes :=
  let blocks := (dkLen + hLen - 1) / hLen
  ((List.range blocks).flatMap fun i => pbkdf2Block prf password salt c (i + 1)).take dkLen

end Pbkdf2

def wordBytes (w : UInt32) : Bytes := leBytes 4 w.toNat

def ofWords (ws : List UInt32) : Bytes := ws.flatMap wordBytes

def toWords : Bytes → List UInt32
  | a :: b :: c :: d :: rest => UInt32.ofNat (ofLeBytes [a, b, c, d]) :: toWords rest
  | _ => []

@[simp] theorem length_wordBytes (w : UInt32) : (wordBytes w).length = 4 := leBytes_length 4 _

@[simp] theorem ofWords_cons (w : UInt32) (ws : List UInt32) :
    ofWords (w :: ws) = wordBytes w ++ ofWords ws := rfl

@[simp] theorem ofWords_append (ws ws' : List UInt32) :
    ofWords (ws ++ ws') = ofWords ws ++ ofWords ws' := List.flatMap_append

@[simp] theorem length_ofWords (ws : List UInt32) : (ofWords ws).length = 4 * ws.length := by
  induction ws with
  | nil => rfl
  | cons w ws ih => simp [ih]; omega

theorem ofLeBytes_wordBytes (w : UInt32) : ofLeBytes (wordBytes w) = w.toNat :=
  ofLeBytes_leBytes w.toNat_lt

theorem toWords_ofWords (ws : List UInt32) : toWords (ofWords ws) = ws := by
  induction ws with
  | nil => rfl
  | cons w ws ih =>
    change UInt32.ofNat (ofLeBytes (wordBytes w)) :: toWords (ofWords ws) = w :: ws
    rw [ofLeBytes_wordBytes, UInt32.ofNat_toNat, ih]

theorem wordBytes_ofLeBytes {b : Bytes} (h : b.length = 4) :
    wordBytes (UInt32.ofNat (ofLeBytes b)) = b := by
  have hlt : ofLeBytes b < 2 ^ 32 := by
    have hbound := ofLeBytes_lt b
    rw [h] at hbound
    exact hbound
  rw [wordBytes, UInt32.toNat_ofNat_of_lt' hlt, ← h, leBytes_ofLeBytes]

theorem leBytes_xor (k m n : ℕ) : leBytes k (m ^^^ n) = xorBytes (leBytes k m) (leBytes k n) := by
  induction k generalizing m n with
  | zero => rfl
  | succ k ih =>
    have hbyte : UInt8.ofNat (m ^^^ n) = UInt8.ofNat m ^^^ UInt8.ofNat n := by
      apply UInt8.toNat_inj.mp
      simp only [UInt8.toNat_xor, UInt8.toNat_ofNat']
      exact Nat.xor_mod_two_pow
    have hrest : (m ^^^ n) / 256 = (m / 256) ^^^ (n / 256) := Nat.xor_div_two_pow (n := 8)
    simp only [leBytes, hbyte, hrest, ih, xorBytes, List.zipWith_cons_cons]

theorem wordBytes_xor (v w : UInt32) : wordBytes (v ^^^ w) = xorBytes (wordBytes v) (wordBytes w) := by
  rw [wordBytes, UInt32.toNat_xor, leBytes_xor]
  rfl

theorem ofWords_xor (vs ws : List UInt32) :
    ofWords (List.zipWith (· ^^^ ·) vs ws) = xorBytes (ofWords vs) (ofWords ws) := by
  induction vs generalizing ws with
  | nil => rfl
  | cons v vs ih =>
    cases ws with
    | nil => simp [xorBytes, ofWords]
    | cons w ws =>
      rw [List.zipWith_cons_cons, ofWords_cons, ih, wordBytes_xor, ofWords_cons, ofWords_cons, xorBytes,
        xorBytes, xorBytes, List.zipWith_append (by simp)]

section Salsa

def rotl (w : UInt32) (n : ℕ) : UInt32 := ⟨w.toBitVec.rotateLeft n⟩

def quarterround (y : Fin 4 → UInt32) : Fin 4 → UInt32 :=
  let z₁ := y 1 ^^^ rotl (y 0 + y 3) 7
  let z₂ := y 2 ^^^ rotl (z₁ + y 0) 9
  let z₃ := y 3 ^^^ rotl (z₂ + z₁) 13
  let z₀ := y 0 ^^^ rotl (z₃ + z₂) 18
  ![z₀, z₁, z₂, z₃]

abbrev Grid := Matrix (Fin 4) (Fin 4) UInt32

def rowround (y : Grid) : Grid := fun i j => quarterround (fun k => y i (i + k)) (j - i)

def columnround (x : Grid) : Grid := (rowround x.transpose).transpose

def doubleround (x : Grid) : Grid := rowround (columnround x)

def toGrid (ws : List UInt32) : Grid := fun i j => ws.getD (4 * i + j) 0

def ofGrid (x : Grid) : List UInt32 := (List.finRange 4).flatMap fun i => List.ofFn (x i)

def salsa208 (b : Bytes) : Bytes :=
  let x := toGrid (toWords b)
  ofWords (ofGrid fun i j => x i j + doubleround^[4] x i j)

end Salsa

def chunk (n : ℕ) (b : Bytes) (i : ℕ) : Bytes := (b.drop (n * i)).take n

/-- The blocks `Y_i` of scryptBlockMix for the chunks `bs`, from `x`. -/
def mixBlocks (x : Bytes) : List Bytes → List Bytes
  | [] => []
  | b :: bs =>
    let x := salsa208 (xorBytes x b)
    x :: mixBlocks x bs

def blockMix (r : ℕ) (b : Bytes) : Bytes :=
  let ys := mixBlocks (chunk 64 b (2 * r - 1)) ((List.range (2 * r)).map (chunk 64 b))
  ((List.range r).flatMap fun i => ys.getD (2 * i) []) ++
    (List.range r).flatMap fun i => ys.getD (2 * i + 1) []

def integerify (r : ℕ) (b : Bytes) : ℕ := ofLeBytes (chunk 64 b (2 * r - 1))

def roMix (r : ℕ) (b : Bytes) (n : ℕ) : Bytes :=
  let v (i : ℕ) := (blockMix r)^[i] b
  (fun x => blockMix r (xorBytes x (v (integerify r x % n))))^[n] (v n)

def scrypt (hash : Bytes → Bytes) (password salt : Bytes) (n r p dkLen : ℕ) : Bytes :=
  let pbkdf2 := pbkdf2 (hmac hash 64) 32
  let b := pbkdf2 password salt 1 (p * (128 * r))
  let b := (List.range p).flatMap fun i => roMix r (chunk (128 * r) b i) n
  pbkdf2 password b 1 dkLen

end Ironcat.Lib.Scrypt
