import Mathlib.Tactic

/-!
# Byte readers and length-prefixed sequences

A reader consumes a byte string from the front and may fail. A stable reader
never looks past what it consumes, so bytes appended to its input are left
alone; this is what makes a decoder that succeeds on a cut-off record agree
with the record. Sequences are written as a four-byte count followed by
entries that carry a four-byte length, both of them truncated to 32 bits.
-/

namespace Ironcat.Lib.ByteCodec

abbrev Bytes := List UInt8

def leBytes : ℕ → ℕ → Bytes
  | 0, _ => []
  | k+1, n => UInt8.ofNat n :: leBytes k (n / 256)

def ofLeBytes : Bytes → ℕ
  | [] => 0
  | b :: bs => b.toNat + 256 * ofLeBytes bs

@[simp] theorem leBytes_length (k n : ℕ) : (leBytes k n).length = k := by
  induction k generalizing n with
  | zero => rfl
  | succ k ih => simp [leBytes, ih]

theorem ofLeBytes_leBytes_mod (k n : ℕ) : ofLeBytes (leBytes k n) = n % 256 ^ k := by
  induction k generalizing n with
  | zero => simp [leBytes, ofLeBytes, Nat.mod_one]
  | succ k ih =>
    have hbyte : (UInt8.ofNat n).toNat = n % 256 := by simp [UInt8.toNat_ofNat']
    rw [leBytes, ofLeBytes, ih, hbyte, pow_succ', Nat.mod_mul]

variable {n k : ℕ}

theorem ofLeBytes_leBytes (h : n < 256 ^ k) : ofLeBytes (leBytes k n) = n := by
  rw [ofLeBytes_leBytes_mod, Nat.mod_eq_of_lt h]

theorem ofLeBytes_lt (bs : Bytes) : ofLeBytes bs < 256 ^ bs.length := by
  induction bs with
  | nil => simp [ofLeBytes]
  | cons b bs ih =>
    have hb := b.toNat_lt
    rw [ofLeBytes, List.length_cons, pow_succ']
    omega

theorem ofLeBytes_append (bs bs' : Bytes) :
    ofLeBytes (bs ++ bs') = ofLeBytes bs + 256 ^ bs.length * ofLeBytes bs' := by
  induction bs with
  | nil => simp [ofLeBytes]
  | cons b bs ih =>
    rw [List.cons_append, ofLeBytes, ofLeBytes, ih, List.length_cons, pow_succ']
    ring

theorem leBytes_ofLeBytes (bs : Bytes) : leBytes bs.length (ofLeBytes bs) = bs := by
  induction bs with
  | nil => rfl
  | cons b bs ih =>
    have hb := b.toNat_lt
    have hdiv : (b.toNat + 256 * ofLeBytes bs) / 256 = ofLeBytes bs := by omega
    have hbyte : UInt8.ofNat (b.toNat + 256 * ofLeBytes bs) = b := by
      apply UInt8.toNat_inj.mp
      rw [UInt8.toNat_ofNat']
      omega
    rw [List.length_cons, ofLeBytes, leBytes, hdiv, hbyte, ih]

theorem ofLeBytes_eq_zero_iff (data : Bytes) : ofLeBytes data = 0 ↔ ∀ b ∈ data, b = 0 := by
  induction data with
  | nil => simp [ofLeBytes]
  | cons b data ih =>
    rw [ofLeBytes, List.forall_mem_cons, ← ih, ← UInt8.toNat_inj, show (0 : UInt8).toNat = 0 from rfl]
    omega

def beBytes (k n : ℕ) : Bytes := (leBytes k n).reverse

def ofBeBytes (bs : Bytes) : ℕ := ofLeBytes bs.reverse

theorem ofBeBytes_cons (b : UInt8) (bs : Bytes) :
    ofBeBytes (b :: bs) = b.toNat * 256 ^ bs.length + ofBeBytes bs := by
  rw [ofBeBytes, List.reverse_cons, ofLeBytes_append, List.length_reverse, ofBeBytes]
  simp only [ofLeBytes]
  ring

theorem ofBeBytes_append_zeros {zeros : Bytes} (h : ∀ b ∈ zeros, b = 0) (bs : Bytes) :
    ofBeBytes (zeros ++ bs) = ofBeBytes bs := by
  have hzero : ofLeBytes zeros.reverse = 0 :=
    (ofLeBytes_eq_zero_iff _).mpr fun b hb => h b (List.mem_reverse.mp hb)
  rw [ofBeBytes, List.reverse_append, ofLeBytes_append, hzero, Nat.mul_zero, Nat.add_zero, ofBeBytes]

theorem ofBeBytes_lt (bs : Bytes) : ofBeBytes bs < 256 ^ bs.length :=
  (ofLeBytes_lt bs.reverse).trans_eq (by rw [List.length_reverse])

theorem beBytes_ofBeBytes (bs : Bytes) : beBytes bs.length (ofBeBytes bs) = bs := by
  rw [beBytes, ofBeBytes, ← List.length_reverse, leBytes_ofLeBytes, List.reverse_reverse]

@[simp] theorem beBytes_length (k n : ℕ) : (beBytes k n).length = k := by
  rw [beBytes, List.length_reverse, leBytes_length]

theorem ofBeBytes_beBytes (h : n < 256 ^ k) : ofBeBytes (beBytes k n) = n := by
  rw [ofBeBytes, beBytes, List.reverse_reverse, ofLeBytes_leBytes h]

theorem beBytes_ofBeBytes_pad {bytes : Bytes} (h : bytes.length ≤ n) :
    ofBeBytes bytes < 256 ^ n ∧
      beBytes n (ofBeBytes bytes) = List.replicate (n - bytes.length) 0 ++ bytes := by
  have hzero : ∀ b ∈ List.replicate (n - bytes.length) (0 : UInt8), b = 0 :=
    fun b hb => List.eq_of_mem_replicate hb
  have hlen : (List.replicate (n - bytes.length) 0 ++ bytes).length = n := by
    rw [List.length_append, List.length_replicate]
    omega
  have hlt := ofBeBytes_lt (List.replicate (n - bytes.length) 0 ++ bytes)
  have hback := beBytes_ofBeBytes (List.replicate (n - bytes.length) 0 ++ bytes)
  rw [ofBeBytes_append_zeros hzero, hlen] at hlt hback
  exact ⟨hlt, hback⟩

theorem pow_le_ofBeBytes {b : UInt8} (hb : b ≠ 0) (bytes : Bytes) :
    256 ^ bytes.length ≤ ofBeBytes (b :: bytes) := by
  have hpos : 0 < b.toNat := Nat.pos_of_ne_zero fun h0 => hb (UInt8.toNat_inj.mp h0)
  calc 256 ^ bytes.length ≤ b.toNat * 256 ^ bytes.length := Nat.le_mul_of_pos_left _ hpos
    _ ≤ b.toNat * 256 ^ bytes.length + ofBeBytes bytes := Nat.le_add_right _ _
    _ = ofBeBytes (b :: bytes) := (ofBeBytes_cons b bytes).symm

abbrev Reader (α : Type) := StateT Bytes Option α

variable {rest bs : Bytes}

namespace Reader
variable {α β : Type}

variable {x : Reader α} {f : α → Reader β} {b : β}

theorem bind_eq_some :
    (x >>= f) bs = some (b, rest) ↔
      ∃ a mid, x bs = some (a, mid) ∧ f a mid = some (b, rest) := by
  change (x bs).bind (fun p => f p.1 p.2) = some (b, rest) ↔ _
  rw [Option.bind_eq_some_iff]
  exact ⟨fun ⟨p, hp, hf⟩ => ⟨p.1, p.2, hp, hf⟩, fun ⟨a, mid, hp, hf⟩ => ⟨(a, mid), hp, hf⟩⟩

def takeBytes (n : ℕ) : Reader Bytes :=
  fun bs => if n ≤ bs.length then some (bs.take n, bs.drop n) else none

def readLe (k : ℕ) : Reader ℕ := do
  let raw ← takeBytes k
  return ofLeBytes raw

def ofOption (o : Option α) : Reader α := fun bs => o.map (·, bs)

def require (c : Prop) [Decidable c] : Reader Unit :=
  fun bs => if c then some ((), bs) else none

def Stable (r : Reader α) : Prop :=
  ∀ bs a rest t, r bs = some (a, rest) → r (bs ++ t) = some (a, rest ++ t)

def Reads (r : Reader α) (enc : Bytes) (a : α) : Prop := ∀ t, r (enc ++ t) = some (a, t)

theorem Stable.pure (a : α) : Stable (pure a : Reader α) := by
  intro bs b rest t h
  cases h
  rfl

theorem Stable.bind (hx : Stable x) (hf : ∀ a, Stable (f a)) : Stable (x >>= f) := by
  intro bs b rest t h
  obtain ⟨a, mid, hxa, hfb⟩ := bind_eq_some.mp h
  exact bind_eq_some.mpr ⟨a, mid ++ t, hx bs a mid t hxa, hf a mid b rest t hfb⟩

theorem stable_takeBytes (n : ℕ) : Stable (takeBytes n) := by
  intro bs a rest t h
  unfold takeBytes at h ⊢
  split_ifs at h with hn
  cases h
  have hlen : n ≤ (bs ++ t).length := by rw [List.length_append]; omega
  rw [if_pos hlen, List.take_append_of_le_length hn, List.drop_append_of_le_length hn]

theorem stable_readLe (k : ℕ) : Stable (readLe k) :=
  (stable_takeBytes k).bind fun _ => Stable.pure _

variable {e : Bytes} {a : α}

theorem Reads.map (f : α → β) (hx : Reads x e a) : Reads (x >>= fun a => Pure.pure (f a)) e (f a) :=
  fun t => bind_eq_some.mpr ⟨a, t, hx t, rfl⟩

theorem Reads.bind {e₁ e₂ : Bytes} (hx : Reads x e₁ a) (hf : Reads (f a) e₂ b) :
    Reads (x >>= f) (e₁ ++ e₂) b := by
  intro t
  rw [List.append_assoc]
  exact bind_eq_some.mpr ⟨a, e₂ ++ t, hx (e₂ ++ t), hf t⟩

theorem reads_takeBytes (bs : Bytes) : Reads (takeBytes bs.length) bs bs := by
  intro t
  have hlen : bs.length ≤ (bs ++ t).length := by simp
  rw [takeBytes, if_pos hlen, List.take_left, List.drop_left]

theorem reads_readLe (h : n < 256 ^ k) : Reads (readLe k) (leBytes k n) n := by
  intro t
  have hraw := reads_takeBytes (leBytes k n) t
  rw [leBytes_length] at hraw
  exact bind_eq_some.mpr ⟨leBytes k n, t, hraw, by rw [ofLeBytes_leBytes h]; rfl⟩

theorem Reads.require_bind {c : Prop} [Decidable c] {r : Reader β} (hc : c) (hr : Reads r e b) :
    Reads (require c >>= fun _ => r) e b :=
  fun t => bind_eq_some.mpr ⟨(), e ++ t, if_pos hc, hr t⟩

theorem Reads.ofOption_bind {f : α → Option β} (hx : Reads x e a) (hf : f a = some b) :
    Reads (x >>= fun a => ofOption (f a)) e b :=
  fun t => bind_eq_some.mpr ⟨a, t, hx t, by rw [ofOption, hf, Option.map_some]⟩

theorem Reads.map_fst {r : Reader α} (h : Reads r e a) : (r e).map Prod.fst = some a := by
  have hread := h []
  rw [List.append_nil] at hread
  rw [hread, Option.map_some]

theorem takeBytes_eq_some {raw : Bytes} (h : takeBytes n bs = some (raw, rest)) :
    n ≤ bs.length ∧ raw = bs.take n ∧ rest = bs.drop n := by
  unfold takeBytes at h
  split_ifs at h with hn
  cases h
  exact ⟨hn, rfl, rfl⟩

theorem readLe_eq_some (h : readLe k bs = some (n, rest)) :
    k ≤ bs.length ∧ n = ofLeBytes (bs.take k) ∧ rest = bs.drop k := by
  obtain ⟨raw, mid, hraw, hret⟩ := bind_eq_some.mp h
  obtain ⟨hk, rfl, rfl⟩ := takeBytes_eq_some hraw
  cases hret
  exact ⟨hk, rfl, rfl⟩

def Exact (r : Reader α) (encode : α → Bytes) : Prop :=
  ∀ bs a rest, r bs = some (a, rest) → bs = encode a ++ rest

theorem takeBytes_exact {raw : Bytes} (h : takeBytes n bs = some (raw, rest)) :
    bs = raw ++ rest ∧ raw.length = n := by
  obtain ⟨hn, rfl, rfl⟩ := takeBytes_eq_some h
  exact ⟨(List.take_append_drop n bs).symm, List.length_take_of_le hn⟩

theorem readLe_exact (h : readLe k bs = some (n, rest)) :
    bs = leBytes k n ++ rest ∧ n < 256 ^ k := by
  obtain ⟨hk, rfl, rfl⟩ := readLe_eq_some h
  have hlen := List.length_take_of_le hk
  have hraw := leBytes_ofLeBytes (bs.take k)
  have hlt := ofLeBytes_lt (bs.take k)
  rw [hlen] at hraw hlt
  exact ⟨by rw [hraw, List.take_append_drop], hlt⟩

theorem require_eq_some {c : Prop} [Decidable c] {u : Unit} (h : require c bs = some (u, rest)) :
    c ∧ rest = bs := by
  unfold require at h
  split_ifs at h with hc
  cases h
  exact ⟨hc, rfl⟩

end Reader

open Reader
variable {α : Type}

def PrefixExact (enc : Bytes) (decode : Bytes → Option α) (x : α) : Prop :=
  ∀ k y, decode (enc.take k) = some y → y = x ∧ enc.length ≤ k

variable {enc : Bytes}

theorem prefixExact_of_stable {r : Reader α} {x : α} (hs : Stable r) (hr : Reads r enc x) :
    PrefixExact enc (fun bs => (r bs).map (·.1)) x := by
  intro k y h
  obtain ⟨⟨z, rest⟩, hz, rfl⟩ := Option.map_eq_some_iff.mp h
  have hfull := hs _ _ _ (enc.drop k) hz
  rw [List.take_append_drop] at hfull
  have hexact := hr []
  rw [List.append_nil, hfull] at hexact
  have hrest : rest ++ enc.drop k = [] := (Prod.mk.inj (Option.some.inj hexact)).2
  have hdrop : enc.drop k = [] := (List.append_eq_nil_iff.mp hrest).2
  exact ⟨(Prod.mk.inj (Option.some.inj hexact)).1, List.drop_eq_nil_iff.mp hdrop⟩

variable {decode : Bytes → Option α}

theorem PrefixExact.map {β : Type} {x : α} (f : α → β) (h : PrefixExact enc decode x) :
    PrefixExact enc (fun bs => (decode bs).map f) (f x) := by
  intro k y hy
  obtain ⟨z, hz, rfl⟩ := Option.map_eq_some_iff.mp hy
  obtain ⟨rfl, hk⟩ := h k z hz
  exact ⟨rfl, hk⟩

def encodeSized (enc : Bytes) : Bytes := leBytes 4 enc.length ++ enc

def encodeSeq (encode : α → Bytes) (xs : List α) : Bytes :=
  leBytes 4 xs.length ++ xs.flatMap (fun x => encodeSized (encode x))

def sized (decode : Bytes → Option α) : Reader α := do
  let n ← readLe 4
  let slice ← takeBytes n
  ofOption (decode slice)

def readMany (r : Reader α) : ℕ → Reader (List α)
  | 0 => pure []
  | n+1 => do
    let x ← r
    let xs ← readMany r n
    return x :: xs

variable {xs : List α}

theorem reads_readMany {r : Reader α} {encode : α → Bytes} (h : ∀ x ∈ xs, Reads r (encode x) x) :
    Reads (readMany r xs.length) (xs.flatMap encode) xs := by
  induction xs with
  | nil => exact fun t => rfl
  | cons x xs ih =>
    rw [List.forall_mem_cons] at h
    exact h.1.bind ((ih h.2).map fun rest => x :: rest)

theorem readMany_exact {r : Reader α} {encode : α → Bytes} (hr : Exact r encode)
    (h : readMany r n bs = some (xs, rest)) : bs = xs.flatMap encode ++ rest ∧ xs.length = n := by
  induction n generalizing bs xs with
  | zero =>
    cases h
    exact ⟨rfl, rfl⟩
  | succ n ih =>
    obtain ⟨x, mid, hx, h⟩ := bind_eq_some.mp h
    obtain ⟨ys, mid', hys, h⟩ := bind_eq_some.mp h
    cases h
    obtain ⟨hmid, hlen⟩ := ih hys
    exact ⟨by rw [hr bs x mid hx, hmid, List.flatMap_cons, List.append_assoc], by simp [hlen]⟩

def readSeq (decode : Bytes → Option α) : Reader (List α) := do
  let n ← readLe 4
  readMany (sized decode) n

def decodeSeq (decode : Bytes → Option α) (bs : Bytes) : Option (List α) :=
  (readSeq decode bs).map (·.1)

theorem take_eq_of_prefix {l₁ l₂ : Bytes} (hn : n ≤ l₁.length) (hk : n ≤ k) :
    ((l₁ ++ l₂).take k).take n = l₁.take n := by
  rw [List.take_take, Nat.min_eq_left hk, List.take_append_of_le_length hn]

theorem sized_cut {tail : Bytes} {x y : α} (hx : PrefixExact enc decode x)
    (h : sized decode ((encodeSized enc ++ tail).take k) = some (y, rest)) :
    y = x ∧ (encodeSized enc).length ≤ k ∧ rest = tail.take (k - (encodeSized enc).length) := by
  obtain ⟨n, mid, hn, hmid⟩ := bind_eq_some.mp h
  obtain ⟨slice, after, hslice, hdec⟩ := bind_eq_some.mp hmid
  obtain ⟨hlen4, hnval, rfl⟩ := readLe_eq_some hn
  obtain ⟨hlenn, rfl, rfl⟩ := takeBytes_eq_some hslice
  have hk4 : 4 ≤ k := by
    rw [List.length_take] at hlen4
    omega
  have hshape : encodeSized enc ++ tail = leBytes 4 enc.length ++ (enc ++ tail) := by
    rw [encodeSized, List.append_assoc]
  have hhead : ((encodeSized enc ++ tail).take k).take 4 = leBytes 4 enc.length := by
    rw [hshape, take_eq_of_prefix (by simp) hk4, List.take_of_length_le (by simp)]
  have hbody : ((encodeSized enc ++ tail).take k).drop 4 = (enc ++ tail).take (k - 4) := by
    rw [hshape, List.drop_take, List.drop_left' (leBytes_length 4 _)]
  rw [hhead, ofLeBytes_leBytes_mod] at hnval
  have hnle : n ≤ enc.length := hnval ▸ Nat.mod_le _ _
  rw [hbody, List.length_take] at hlenn
  have hcut : ((enc ++ tail).take (k - 4)).take n = enc.take n :=
    take_eq_of_prefix hnle (by omega)
  rw [hbody, hcut] at hdec
  obtain ⟨z, hz, hpair⟩ := Option.map_eq_some_iff.mp hdec
  cases hpair
  obtain ⟨rfl, hlen⟩ := hx n y hz
  have hn_eq : n = enc.length := by omega
  have hsz : (encodeSized enc).length = 4 + enc.length := by simp [encodeSized]
  refine ⟨rfl, by omega, ?_⟩
  rw [hn_eq, List.drop_take, List.drop_left, hsz]
  congr 1
  omega

theorem readMany_cut {encode : α → Bytes} (hxs : ∀ x ∈ xs, PrefixExact (encode x) decode x)
    {ys : List α} (h : readMany (sized decode) xs.length
      ((xs.flatMap (fun x => encodeSized (encode x))).take k) = some (ys, rest)) :
    ys = xs ∧ (xs.flatMap (fun x => encodeSized (encode x))).length ≤ k := by
  induction xs generalizing k ys rest with
  | nil =>
    cases h
    exact ⟨rfl, Nat.zero_le k⟩
  | cons x xs ih =>
    obtain ⟨y, mid, hy, hrec⟩ := bind_eq_some.mp h
    obtain ⟨ys', after, hys, hret⟩ := bind_eq_some.mp hrec
    rw [List.flatMap_cons] at hy ⊢
    obtain ⟨rfl, hle, rfl⟩ := sized_cut (hxs x List.mem_cons_self) hy
    obtain ⟨rfl, hlen⟩ := ih (fun z hz => hxs z (List.mem_cons_of_mem _ hz)) hys
    cases hret
    refine ⟨rfl, ?_⟩
    rw [List.length_append]
    omega

theorem decodeSeq_prefixExact {encode : α → Bytes} (hlen : xs.length < 256 ^ 4)
    (hxs : ∀ x ∈ xs, PrefixExact (encode x) decode x) :
    PrefixExact (encodeSeq encode xs) (decodeSeq decode) xs := by
  intro k ys h
  obtain ⟨⟨zs, rest⟩, hz, rfl⟩ := Option.map_eq_some_iff.mp h
  obtain ⟨n, mid, hn, hmany⟩ := bind_eq_some.mp hz
  obtain ⟨hlen4, hnval, rfl⟩ := readLe_eq_some hn
  have hk4 : 4 ≤ k := by
    rw [List.length_take] at hlen4
    omega
  rw [encodeSeq, take_eq_of_prefix (by simp) hk4, List.take_of_length_le (by simp),
    ofLeBytes_leBytes hlen] at hnval
  rw [hnval, encodeSeq, List.drop_take, List.drop_left' (leBytes_length 4 _)] at hmany
  obtain ⟨rfl, hle⟩ := readMany_cut hxs hmany
  refine ⟨rfl, ?_⟩
  rw [encodeSeq, List.length_append, leBytes_length]
  omega

theorem reads_sized {x : α} (hlen : enc.length < 256 ^ 4) (hdec : decode enc = some x) :
    Reads (sized decode) (encodeSized enc) x :=
  (reads_readLe hlen).bind ((reads_takeBytes enc).ofOption_bind hdec)

theorem le_length_encodeSeq (encode : α → Bytes) (xs : List α) :
    xs.length ≤ (encodeSeq encode xs).length ∧
      ∀ x ∈ xs, (encode x).length ≤ (encodeSeq encode xs).length := by
  induction xs with
  | nil => simp
  | cons x xs ih =>
    simp only [encodeSeq, List.flatMap_cons, encodeSized, List.length_append, leBytes_length,
      List.length_cons, List.forall_mem_cons] at ih ⊢
    exact ⟨by omega, by omega, fun y hy => by have := ih.2 y hy; omega⟩

theorem decodeSeq_encodeSeq_of_entries {encode : α → Bytes} (hcount : xs.length < 256 ^ 4)
    (hentry : ∀ x ∈ xs, (encode x).length < 256 ^ 4) (hdec : ∀ x ∈ xs, decode (encode x) = some x) :
    decodeSeq decode (encodeSeq encode xs) = some xs := by
  have hmany : Reads (readMany (sized decode) xs.length)
      (xs.flatMap fun x => encodeSized (encode x)) xs :=
    reads_readMany fun x hx => reads_sized (hentry x hx) (hdec x hx)
  have hread : Reads (readSeq decode) (encodeSeq encode xs) xs := (reads_readLe hcount).bind hmany
  exact hread.map_fst

theorem decodeSeq_encodeSeq {encode : α → Bytes} (hlen : (encodeSeq encode xs).length < 256 ^ 4)
    (hdec : ∀ x ∈ xs, decode (encode x) = some x) :
    decodeSeq decode (encodeSeq encode xs) = some xs := by
  obtain ⟨hcount, hentry⟩ := le_length_encodeSeq encode xs
  exact decodeSeq_encodeSeq_of_entries (hcount.trans_lt hlen)
    (fun x hx => (hentry x hx).trans_lt hlen) hdec

end Ironcat.Lib.ByteCodec
