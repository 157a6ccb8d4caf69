import Ironcat.Lib.ByteCodec

/-!
# Decoders that slice a buffer and reserve memory

A decoder moves a position through a buffer. It may end in an error, whose
contexts are kept with the outermost first, or in a panic when a slice is out
of range. Each buffer that it allocates is noted with the bytes of input that
its contents need and the bytes that are left at that point, also when the
decoder fails later.
-/

namespace Ironcat.Lib.SliceDecoder

open Lib.ByteCodec

inductive Stop
  | error (contexts : List String)
  | panic
deriving DecidableEq, Repr

def Stop.context (text : String) : Stop → Stop
  | .error contexts => .error (text :: contexts)
  | .panic => .panic

structure Request where
  capacity : ℕ
  need : ℕ
  remaining : ℕ
deriving DecidableEq, Repr

structure Cursor where
  position : ℕ
  requests : List Request
deriving DecidableEq, Repr

abbrev Decoder := ReaderT Bytes (ExceptT Stop (StateM Cursor))

variable {α β : Type}

def run (d : Decoder α) (data : Bytes) : Except Stop α × Cursor := d data ⟨0, []⟩

def outcome (d : Decoder α) (data : Bytes) : Except Stop α := (run d data).1

def requestsOf (d : Decoder α) (data : Bytes) : List Request := (run d data).2.requests

def readExact (k : ℕ) (context : String) : Decoder Bytes := fun data c =>
  if c.position + k ≤ data.length then
    (.ok ((data.drop c.position).take k), ⟨c.position + k, c.requests⟩)
  else (.error (.error [context]), c)

def readLe (k : ℕ) (context : String) : Decoder ℕ := do
  let raw ← readExact k context
  return ofLeBytes raw

def reserve (capacity need : ℕ) : Decoder Unit := fun data c =>
  (.ok (), ⟨c.position, c.requests ++ [⟨capacity, need, data.length - c.position⟩]⟩)

def position : Decoder ℕ := fun _ c => (.ok c.position, c)

def getRef : Decoder Bytes := fun data c => (.ok data, c)

def setPosition (pos : ℕ) : Decoder Unit := fun _ c => (.ok (), ⟨pos, c.requests⟩)

def slice (lo hi : ℕ) : Decoder Bytes := fun data c =>
  if lo ≤ hi ∧ hi ≤ data.length then (.ok ((data.drop lo).take (hi - lo)), c)
  else (.error .panic, c)

def onSlice (d : Decoder α) (bytes : Bytes) (context : String) : Decoder α := fun _ c =>
  match run d bytes with
  | (.ok a, c') => (.ok a, ⟨c.position, c.requests ++ c'.requests⟩)
  | (.error e, c') => (.error (e.context context), ⟨c.position, c.requests ++ c'.requests⟩)

structure SeqTexts where
  count : String
  length : String
  pastEnd : String
  entry : String

def entryFromCursor (t : SeqTexts) (decode : Decoder α) : Decoder α := do
  let len ← readLe 4 t.length
  let pos ← position
  let inner ← getRef
  let stop := pos + len
  if inner.length < stop then
    throw (.error [t.pastEnd])
  let bytes ← slice pos stop
  let entry ← onSlice decode bytes t.entry
  setPosition stop
  return entry

def entriesFromCursor (t : SeqTexts) (decode : Decoder α) : ℕ → Decoder (List α)
  | 0 => pure []
  | n+1 => do
    let entry ← entryFromCursor t decode
    let entries ← entriesFromCursor t decode n
    return entry :: entries

def seqFromCursor (t : SeqTexts) (size : ℕ) (decode : Decoder α) : Decoder (List α) := do
  let count ← readLe 4 t.count
  reserve (size * count) (4 * count)
  entriesFromCursor t decode count

inductive Matches (data : Bytes) : Except Stop α × Cursor → Option (α × Bytes) → Prop
  | ok {a : α} {c : Cursor} (h : c.position ≤ data.length) :
      Matches data (.ok a, c) (some (a, data.drop c.position))
  | error {contexts : List String} {c : Cursor} : Matches data (.error (.error contexts), c) none

def Agrees (d : Decoder α) (r : Reader α) : Prop :=
  ∀ data c, c.position ≤ data.length → Matches data (d data c) (r (data.drop c.position))

variable {d : Decoder α} {data : Bytes} {f : α → Decoder β} {c c' : Cursor}

theorem bind_ok {a : α} (h : d data c = (.ok a, c')) : (d >>= f) data c = f a data c' := by
  simp only [bind, ReaderT.bind, ExceptT.bind, ExceptT.mk, StateT.bind, h, ExceptT.bindCont]

theorem bind_error {e : Stop} (h : d data c = (.error e, c')) :
    (d >>= f) data c = (.error e, c') := by
  simp only [bind, ReaderT.bind, ExceptT.bind, ExceptT.mk, StateT.bind, h, ExceptT.bindCont]
  rfl

theorem agrees_pure (a : α) : Agrees (pure a : Decoder α) (pure a : Reader α) :=
  fun _ _ h => .ok h

variable {r : Reader α}

theorem Agrees.bind {g : α → Reader β} (hd : Agrees d r) (hf : ∀ a, Agrees (f a) (g a)) :
    Agrees (d >>= f) (r >>= g) := by
  intro data c hc
  have hmatch := hd data c hc
  change Matches data _ ((r (data.drop c.position)).bind fun p => g p.1 p.2)
  generalize hrun : d data c = out at hmatch
  generalize r (data.drop c.position) = read at hmatch ⊢
  cases hmatch with
  | @ok a c' hc' =>
    rw [bind_ok hrun]
    exact hf a data c' hc'
  | error =>
    rw [bind_error hrun]
    exact .error

theorem Agrees.reserve_bind (capacity need : ℕ) (hd : Agrees d r) :
    Agrees (reserve capacity need >>= fun _ => d) r := by
  intro data c hc
  rw [bind_ok (f := fun _ => d) (show reserve capacity need data c = _ from rfl)]
  exact hd data _ hc

theorem agrees_readExact (k : ℕ) (context : String) :
    Agrees (readExact k context) (Reader.takeBytes k) := by
  intro data c hc
  unfold readExact Reader.takeBytes
  rw [List.length_drop]
  by_cases hk : c.position + k ≤ data.length
  · rw [if_pos hk, if_pos (by omega)]
    rw [List.drop_drop]
    exact .ok hk
  · rw [if_neg hk, if_neg (by omega)]
    exact .error

theorem agrees_readLe (k : ℕ) (context : String) : Agrees (readLe k context) (Reader.readLe k) :=
  (agrees_readExact k context).bind fun raw => agrees_pure (ofLeBytes raw)

theorem Agrees.outcome {d : Decoder α} {r : Reader α} (h : Agrees d r) (data : Bytes) :
    (∀ a, outcome d data = .ok a ↔ (r data).map Prod.fst = some a) ∧
      outcome d data ≠ .error .panic := by
  have hmatch := h data ⟨0, []⟩ (Nat.zero_le _)
  rw [List.drop_zero] at hmatch
  unfold SliceDecoder.outcome run
  generalize d data ⟨0, []⟩ = out at hmatch
  generalize r data = read at hmatch
  cases hmatch with
  | ok => exact ⟨fun a => by simp, by simp⟩
  | error => exact ⟨fun a => by simp, by simp⟩

structure EntryAt (data : Bytes) (pos : ℕ) (bytes : Bytes) : Prop where
  length_read : Reader.readLe 4 (data.drop pos) = some (bytes.length, data.drop (pos + 4))
  bytes_taken : Reader.takeBytes bytes.length (data.drop (pos + 4)) =
    some (bytes, data.drop (pos + 4 + bytes.length))
  inside : pos + 4 + bytes.length ≤ data.length

inductive EntryEnds (t : SeqTexts) (decode : Decoder α) (data : Bytes) (c : Cursor) :
    Except Stop α × Cursor → Prop
  | cutLength (h : Reader.readLe 4 (data.drop c.position) = none) :
      EntryEnds t decode data c (.error (.error [t.length]), c)
  | pastEnd {len : ℕ}
      (hlen : Reader.readLe 4 (data.drop c.position) = some (len, data.drop (c.position + 4)))
      (h : Reader.takeBytes len (data.drop (c.position + 4)) = none) :
      EntryEnds t decode data c (.error (.error [t.pastEnd]), ⟨c.position + 4, c.requests⟩)
  | failed {bytes : Bytes} {e : Stop} {c' : Cursor} (hat : EntryAt data c.position bytes)
      (hrun : run decode bytes = (.error e, c')) :
      EntryEnds t decode data c
        (.error (e.context t.entry), ⟨c.position + 4, c.requests ++ c'.requests⟩)
  | done {bytes : Bytes} {a : α} {c' : Cursor} (hat : EntryAt data c.position bytes)
      (hrun : run decode bytes = (.ok a, c')) :
      EntryEnds t decode data c
        (.ok a, ⟨c.position + 4 + bytes.length, c.requests ++ c'.requests⟩)

variable {k : ℕ}

theorem readLe_none {context : String} (h : ¬ c.position + k ≤ data.length) :
    readLe k context data c = (.error (.error [context]), c) :=
  bind_error (if_neg h)

theorem readLe_some {context : String} (h : c.position + k ≤ data.length) :
    readLe k context data c =
      (.ok (ofLeBytes ((data.drop c.position).take k)), ⟨c.position + k, c.requests⟩) :=
  bind_ok (if_pos h)

variable {pos : ℕ}

theorem reader_readLe (h : pos + k ≤ data.length) :
    Reader.readLe k (data.drop pos) =
      some (ofLeBytes ((data.drop pos).take k), data.drop (pos + k)) := by
  have hlen : k ≤ (data.drop pos).length := by
    rw [List.length_drop]
    omega
  refine Reader.bind_eq_some.mpr ⟨_, _, if_pos hlen, ?_⟩
  rw [List.drop_drop]
  rfl

theorem entryAt_take {len : ℕ} (h : pos + 4 + len ≤ data.length)
    (hlen : Reader.readLe 4 (data.drop pos) = some (len, data.drop (pos + 4))) :
    EntryAt data pos ((data.drop (pos + 4)).take len) ∧
      ((data.drop (pos + 4)).take len).length = len := by
  have hdrop : len ≤ (data.drop (pos + 4)).length := by
    rw [List.length_drop]
    omega
  have hbytes := List.length_take_of_le hdrop
  refine ⟨⟨by rw [hbytes, hlen], ?_, by omega⟩, hbytes⟩
  rw [hbytes, Reader.takeBytes, if_pos hdrop, List.drop_drop]

theorem entry_ends (t : SeqTexts) (decode : Decoder α) (data : Bytes) (c : Cursor) :
    EntryEnds t decode data c (entryFromCursor t decode data c) := by
  unfold entryFromCursor
  by_cases h4 : c.position + 4 ≤ data.length
  · rw [bind_ok (readLe_some h4)]
    generalize hn : ofLeBytes ((data.drop c.position).take 4) = len
    have hlen : Reader.readLe 4 (data.drop c.position) = some (len, data.drop (c.position + 4)) :=
      hn ▸ reader_readLe h4
    rw [bind_ok (show position data _ = _ from rfl), bind_ok (show getRef data _ = _ from rfl)]
    dsimp only
    by_cases hpast : data.length < c.position + 4 + len
    · rw [if_pos hpast]
      refine .pastEnd hlen (if_neg ?_)
      rw [List.length_drop]
      omega
    · rw [if_neg hpast]
      have hslice : slice (c.position + 4) (c.position + 4 + len) data ⟨c.position + 4, c.requests⟩ =
          (.ok ((data.drop (c.position + 4)).take len), ⟨c.position + 4, c.requests⟩) := by
        rw [slice, if_pos (by omega), Nat.add_sub_cancel_left]
      obtain ⟨hat, hbytes⟩ := entryAt_take (not_lt.mp hpast) hlen
      rw [bind_ok hslice]
      generalize (data.drop (c.position + 4)).take len = bytes at hbytes hat
      rcases hrun : run decode bytes with ⟨e | a, c'⟩
      · have hcall : onSlice decode bytes t.entry data ⟨c.position + 4, c.requests⟩ =
            (.error (e.context t.entry), ⟨c.position + 4, c.requests ++ c'.requests⟩) := by
          rw [onSlice, hrun]
        rw [bind_error hcall]
        exact .failed hat hrun
      · have hcall : onSlice decode bytes t.entry data ⟨c.position + 4, c.requests⟩ =
            (.ok a, ⟨c.position + 4, c.requests ++ c'.requests⟩) := by
          rw [onSlice, hrun]
        rw [bind_ok hcall, ← hbytes]
        exact .done hat hrun
  · rw [bind_error (readLe_none h4)]
    refine .cutLength ?_
    have hcut : Reader.takeBytes 4 (data.drop c.position) = none := if_neg (by
      rw [List.length_drop]
      omega)
    change (Reader.takeBytes 4 (data.drop c.position)).bind _ = none
    rw [hcut]
    rfl

theorem EntryAt.sized {data bytes : Bytes} {pos : ℕ} (h : EntryAt data pos bytes)
    (decode : Bytes → Option α) : sized decode (data.drop pos) =
      (decode bytes).map fun a => (a, data.drop (pos + 4 + bytes.length)) := by
  change (Reader.readLe 4 (data.drop pos)).bind _ = _
  rw [h.length_read]
  change (Reader.takeBytes bytes.length (data.drop (pos + 4))).bind _ = _
  rw [h.bytes_taken]
  rfl

variable {decode : Decoder α}

theorem agrees_entry (t : SeqTexts) (hd : Agrees decode r) :
    Agrees (entryFromCursor t decode) (sized fun bytes => (r bytes).map Prod.fst) := by
  intro data c _
  have hends := entry_ends t decode data c
  generalize entryFromCursor t decode data c = out at hends
  cases hends with
  | cutLength h =>
    change Matches data _ ((Reader.readLe 4 (data.drop c.position)).bind _)
    rw [h]
    exact .error
  | pastEnd hlen h =>
    change Matches data _ ((Reader.readLe 4 (data.drop c.position)).bind _)
    rw [hlen]
    change Matches data _ ((Reader.takeBytes _ (data.drop (c.position + 4))).bind _)
    rw [h]
    exact .error
  | @failed bytes e c' hat hrun =>
    have hout : outcome decode bytes = .error e := congrArg Prod.fst hrun
    obtain ⟨hval, hpanic⟩ := hd.outcome bytes
    have hnone : (r bytes).map Prod.fst = none := by
      rw [Option.eq_none_iff_forall_ne_some]
      intro a ha
      rw [(hval a).mpr ha] at hout
      cases hout
    rw [hat.sized, hnone]
    cases e with
    | error => exact .error
    | panic => exact absurd hout hpanic
  | @done bytes a c' hat hrun =>
    have hsome := ((hd.outcome bytes).1 a).mp (congrArg Prod.fst hrun)
    rw [hat.sized, hsome]
    exact .ok hat.inside

theorem agrees_entries (t : SeqTexts) (hd : Agrees decode r) (n : ℕ) :
    Agrees (entriesFromCursor t decode n)
      (readMany (sized fun bytes => (r bytes).map Prod.fst) n) := by
  induction n with
  | zero => exact agrees_pure []
  | succ n ih =>
    exact (agrees_entry t hd).bind fun entry => ih.bind fun entries => agrees_pure (entry :: entries)

theorem agrees_seq (t : SeqTexts) (size : ℕ) (hd : Agrees decode r) :
    Agrees (seqFromCursor t size decode) (readSeq fun bytes => (r bytes).map Prod.fst) :=
  (agrees_readLe 4 t.count).bind fun count => (agrees_entries t hd count).reserve_bind _ _

def total (requests : List Request) : ℕ := (requests.map Request.capacity).sum

def Fits (requests : List Request) : Prop := ∀ r ∈ requests, r.need ≤ r.remaining

instance (requests : List Request) : Decidable (Fits requests) :=
  inferInstanceAs (Decidable (∀ r ∈ requests, r.need ≤ r.remaining))

@[simp] theorem total_nil : total [] = 0 := rfl

@[simp] theorem total_append (l l' : List Request) : total (l ++ l') = total l + total l' := by
  simp [total]

@[simp] theorem fits_append {l l' : List Request} : Fits (l ++ l') ↔ Fits l ∧ Fits l' :=
  List.forall_mem_append

def Spends (rate : ℕ) (d : Decoder α) : Prop :=
  ∀ data c, ∃ new, (d data c).2.requests = c.requests ++ new ∧
    (Fits new → total new ≤ rate * (data.length - c.position))

variable {rate : ℕ}

theorem spends_of_requests (h : ∀ data c, (d data c).2.requests = c.requests) : Spends rate d :=
  fun data c => ⟨[], (h data c).trans (List.append_nil _).symm, fun _ => Nat.zero_le _⟩

theorem spends_readExact (k : ℕ) (context : String) (rate : ℕ) :
    Spends rate (readExact k context) :=
  spends_of_requests fun data c => by
    unfold readExact
    split_ifs <;> rfl

theorem Spends.map (h : Spends rate d) (f : α → β) : Spends rate (d >>= fun a => pure (f a)) := by
  intro data c
  have hsame : ((d >>= fun a => pure (f a)) data c).2 = (d data c).2 := by
    rcases hrun : d data c with ⟨e | a, c'⟩
    · rw [bind_error hrun]
    · rw [bind_ok hrun]
      rfl
  rw [hsame]
  exact h data c

theorem Spends.readLe_bind {context : String} {f : ℕ → Decoder α} (h : ∀ n, Spends rate (f n)) :
    Spends rate (readLe k context >>= f) := by
  intro data c
  by_cases hk : c.position + k ≤ data.length
  · rw [bind_ok (readLe_some hk)]
    obtain ⟨new, hnew, htotal⟩ := h (ofLeBytes ((data.drop c.position).take k)) data
      ⟨c.position + k, c.requests⟩
    exact ⟨new, hnew, fun hfits => (htotal hfits).trans
      (Nat.mul_le_mul_left _ (Nat.sub_le_sub_left (Nat.le_add_right _ _) _))⟩
  · rw [bind_error (readLe_none hk)]
    exact ⟨[], (List.append_nil _).symm, fun _ => Nat.zero_le _⟩

theorem Spends.reserve_bind {size need capacity : ℕ} (h : Spends rate d)
    (hcap : capacity = size * need) :
    Spends (size + rate) (reserve capacity need >>= fun _ => d) := by
  intro data c
  rw [hcap, bind_ok (f := fun _ => d) (show reserve (size * need) need data c = _ from rfl)]
  obtain ⟨new, hnew, htotal⟩ := h data
    ⟨c.position, c.requests ++ [⟨size * need, need, data.length - c.position⟩]⟩
  refine ⟨⟨size * need, need, data.length - c.position⟩ :: new, ?_, fun hfits => ?_⟩
  · rw [hnew, List.append_assoc, List.singleton_append]
  · obtain ⟨hfirst, hrest⟩ := List.forall_mem_cons.mp hfits
    calc size * need + total new
        ≤ size * (data.length - c.position) + rate * (data.length - c.position) :=
          Nat.add_le_add (Nat.mul_le_mul_left _ hfirst) (htotal hrest)
      _ = (size + rate) * (data.length - c.position) := by ring

theorem Spends.of_run (hd : Spends rate decode) {bytes : Bytes} {out : Except Stop α}
    (hrun : run decode bytes = (out, c')) (hfits : Fits c'.requests) :
    total c'.requests ≤ rate * bytes.length := by
  obtain ⟨new, hnew, htotal⟩ := hd bytes ⟨0, []⟩
  rw [show decode bytes ⟨0, []⟩ = _ from hrun, List.nil_append] at hnew
  rw [hnew] at hfits ⊢
  exact htotal hfits

theorem spends_entries (t : SeqTexts) (hd : Spends rate decode) (n : ℕ) :
    Spends rate (entriesFromCursor t decode n) := by
  induction n with
  | zero => exact spends_of_requests fun _ _ => rfl
  | succ n ih =>
    intro data c
    unfold entriesFromCursor
    have hends := entry_ends t decode data c
    generalize hentry : entryFromCursor t decode data c = out at hends
    cases hends with
    | cutLength =>
      rw [bind_error hentry]
      exact ⟨[], (List.append_nil _).symm, fun _ => Nat.zero_le _⟩
    | pastEnd =>
      rw [bind_error hentry]
      exact ⟨[], (List.append_nil _).symm, fun _ => Nat.zero_le _⟩
    | @failed bytes e c' hat hrun =>
      rw [bind_error hentry]
      have hinside := hat.inside
      refine ⟨c'.requests, rfl, fun hfits => ?_⟩
      calc total c'.requests ≤ rate * bytes.length := hd.of_run hrun hfits
        _ ≤ rate * (data.length - c.position) := Nat.mul_le_mul_left _ (by omega)
    | @done bytes a c' hat hrun =>
      rw [bind_ok hentry]
      obtain ⟨more, hmore, hmoreTotal⟩ := (ih.map fun entries => a :: entries) data
        ⟨c.position + 4 + bytes.length, c.requests ++ c'.requests⟩
      have hinside := hat.inside
      refine ⟨c'.requests ++ more, by rw [hmore, List.append_assoc], fun hfits => ?_⟩
      rw [fits_append] at hfits
      calc total (c'.requests ++ more) = total c'.requests + total more := total_append _ _
        _ ≤ rate * bytes.length + rate * (data.length - (c.position + 4 + bytes.length)) :=
          Nat.add_le_add (hd.of_run hrun hfits.1) (hmoreTotal hfits.2)
        _ = rate * (bytes.length + (data.length - (c.position + 4 + bytes.length))) := by ring
        _ ≤ rate * (data.length - c.position) := Nat.mul_le_mul_left _ (by omega)

theorem spends_seq (t : SeqTexts) (size : ℕ) (hd : Spends rate decode) :
    Spends (size + rate) (seqFromCursor t (4 * size) decode) := by
  refine Spends.readLe_bind fun count => ?_
  exact (spends_entries t hd count).reserve_bind (by ring)

theorem Spends.total_le (h : Spends rate d) (hfits : Fits (requestsOf d data)) :
    total (requestsOf d data) ≤ rate * data.length := by
  obtain ⟨new, hnew, htotal⟩ := h data ⟨0, []⟩
  have hreq : requestsOf d data = new := hnew
  rw [hreq] at hfits ⊢
  exact htotal hfits

def Fills (least : ℕ) (d : Decoder α) : Prop :=
  ∀ data c a c', c.position ≤ data.length → d data c = (.ok a, c') →
    c.position + least ≤ c'.position ∧ c'.position ≤ data.length ∧
      ∃ new, c'.requests = c.requests ++ new ∧ Fits new

theorem fits_nil : Fits [] := fun _ hr => absurd hr List.not_mem_nil

theorem fills_pure (a : α) : Fills 0 (pure a : Decoder α) := by
  intro data c b c' hc h
  cases h
  exact ⟨le_rfl, hc, [], (List.append_nil _).symm, fits_nil⟩

theorem Fills.mono {m n : ℕ} (h : Fills n d) (hmn : m ≤ n) : Fills m d := by
  intro data c a c' hc hrun
  obtain ⟨hleast, hinside, hnew⟩ := h data c a c' hc hrun
  exact ⟨by omega, hinside, hnew⟩

theorem Fills.bind {m n : ℕ} (hd : Fills m d) (hf : ∀ a, Fills n (f a)) :
    Fills (m + n) (d >>= f) := by
  intro data c b c' hc h
  rcases hrun : d data c with ⟨e | a, mid⟩
  · rw [bind_error hrun] at h
    cases h
  · rw [bind_ok hrun] at h
    obtain ⟨hleast, hmid, new, hnew, hfits⟩ := hd data c a mid hc hrun
    obtain ⟨hleast', hinside, new', hnew', hfits'⟩ := hf a data mid b c' hmid h
    refine ⟨by omega, hinside, new ++ new', ?_, fits_append.mpr ⟨hfits, hfits'⟩⟩
    rw [hnew', hnew, List.append_assoc]

theorem fills_readExact (k : ℕ) (context : String) : Fills k (readExact k context) := by
  intro data c a c' hc h
  unfold readExact at h
  split_ifs at h with hk
  · cases h
    exact ⟨le_rfl, hk, [], (List.append_nil _).symm, fits_nil⟩
  · cases h

theorem fills_readLe (k : ℕ) (context : String) : Fills k (readLe k context) :=
  (fills_readExact k context).bind fun raw => fills_pure (ofLeBytes raw)

theorem Fills.reserve_bind {least need : ℕ} (capacity : ℕ) (hd : Fills least d)
    (hneed : need ≤ least) : Fills least (reserve capacity need >>= fun _ => d) := by
  intro data c a c' hc h
  rw [bind_ok (f := fun _ => d) (show reserve capacity need data c = _ from rfl)] at h
  obtain ⟨hleast, hinside, new, hnew, hfits⟩ := hd data
    ⟨c.position, c.requests ++ [⟨capacity, need, data.length - c.position⟩]⟩ a c' hc h
  dsimp only at hleast hnew
  refine ⟨hleast, hinside, ⟨capacity, need, data.length - c.position⟩ :: new, ?_, ?_⟩
  · rw [hnew, List.append_assoc, List.singleton_append]
  · refine List.forall_mem_cons.mpr ⟨?_, hfits⟩
    dsimp only
    omega

theorem fills_entry (t : SeqTexts) (hd : Fills 0 decode) : Fills 4 (entryFromCursor t decode) := by
  intro data c a c' hc h
  have hends := entry_ends t decode data c
  rw [h] at hends
  cases hends with
  | @done bytes _ c₁ hat hrun =>
    obtain ⟨-, -, new, hnew, hfits⟩ := hd bytes ⟨0, []⟩ a c₁ (Nat.zero_le _) hrun
    exact ⟨Nat.le_add_right _ _, hat.inside, new, by rw [hnew, List.nil_append], hfits⟩

theorem fills_entries (t : SeqTexts) (hd : Fills 0 decode) (n : ℕ) :
    Fills (4 * n) (entriesFromCursor t decode n) := by
  induction n with
  | zero => exact fills_pure []
  | succ n ih =>
    refine ((fills_entry t hd).bind fun a => ih.bind fun entries => fills_pure (a :: entries)).mono ?_
    omega

theorem fills_seq (t : SeqTexts) (size : ℕ) (hd : Fills 0 decode) :
    Fills 4 (seqFromCursor t size decode) :=
  (fills_readLe 4 t.count).bind fun count =>
    ((fills_entries t hd count).reserve_bind _ le_rfl).mono (Nat.zero_le _)

theorem Fills.fits {least : ℕ} (h : Fills least d) {a : α} (hok : outcome d data = .ok a) :
    Fits (requestsOf d data) := by
  have hrun : d data ⟨0, []⟩ = (.ok a, (run d data).2) := Prod.ext hok rfl
  obtain ⟨-, -, new, hnew, hfits⟩ := h data ⟨0, []⟩ a _ (Nat.zero_le _) hrun
  rw [requestsOf, hnew]
  exact hfits

/-- The size that the count fields of an input announce up to the first entry that
is not there in full, and whether all entries are. -/
structure Layout where
  announced : ℕ
  whole : Bool
deriving DecidableEq, Repr

def entriesLayout (entry : Bytes → Layout) : ℕ → Bytes → Layout
  | 0, _ => ⟨0, true⟩
  | n+1, bytes =>
    let len := ofLeBytes (bytes.take 4)
    if 4 + len ≤ bytes.length then
      let head := entry ((bytes.drop 4).take len)
      if head.whole then
        let rest := entriesLayout entry n (bytes.drop (4 + len))
        ⟨head.announced + rest.announced, rest.whole⟩
      else head
    else ⟨0, false⟩

def seqLayout (size : ℕ) (entry : Bytes → Layout) (bytes : Bytes) : Layout :=
  if 4 ≤ bytes.length then
    let count := ofLeBytes (bytes.take 4)
    let rest := entriesLayout entry count (bytes.drop 4)
    ⟨size * count + rest.announced, rest.whole⟩
  else ⟨0, false⟩

def Follows (layout : Bytes → Layout) (d : Decoder α) : Prop :=
  ∀ data c, c.position ≤ data.length → ∃ new, (d data c).2.requests = c.requests ++ new ∧
    layout (data.drop c.position) = ⟨total new, (d data c).1.isOk⟩

theorem follows_pure (a : α) : Follows (fun _ => ⟨0, true⟩) (pure a : Decoder α) :=
  fun _ _ _ => ⟨[], (List.append_nil _).symm, rfl⟩

theorem Follows.map {layout : Bytes → Layout} (h : Follows layout d) (f : α → β) :
    Follows layout (d >>= fun a => pure (f a)) := by
  intro data c hc
  obtain ⟨new, hnew, hlayout⟩ := h data c hc
  rcases hrun : d data c with ⟨e | a, c'⟩ <;> rw [hrun] at hnew hlayout
  · rw [bind_error hrun]
    exact ⟨new, hnew, hlayout⟩
  · rw [bind_ok hrun]
    exact ⟨new, hnew, hlayout⟩

theorem follows_readExact (k : ℕ) (context : String) :
    Follows (fun bytes => ⟨0, k ≤ bytes.length⟩) (readExact k context) := by
  intro data c hc
  unfold readExact
  by_cases hk : c.position + k ≤ data.length
  · rw [if_pos hk]
    refine ⟨[], (List.append_nil _).symm, ?_⟩
    dsimp only
    rw [List.length_drop, decide_eq_true (by omega : k ≤ data.length - c.position)]
    rfl
  · rw [if_neg hk]
    refine ⟨[], (List.append_nil _).symm, ?_⟩
    dsimp only
    rw [List.length_drop, decide_eq_false (by omega : ¬ k ≤ data.length - c.position)]
    rfl

theorem Follows.readLe_bind {context : String} {f : ℕ → Decoder α} {layout : ℕ → Bytes → Layout}
    (h : ∀ n, Follows (layout n) (f n)) :
    Follows (fun bytes => if k ≤ bytes.length then layout (ofLeBytes (bytes.take k)) (bytes.drop k)
      else ⟨0, false⟩) (readLe k context >>= f) := by
  intro data c hc
  by_cases hk : c.position + k ≤ data.length
  · rw [bind_ok (readLe_some hk)]
    obtain ⟨new, hnew, hlayout⟩ := h (ofLeBytes ((data.drop c.position).take k)) data
      ⟨c.position + k, c.requests⟩ hk
    refine ⟨new, hnew, ?_⟩
    dsimp only at hlayout ⊢
    rw [List.length_drop, if_pos (by omega), List.drop_drop, hlayout]
  · rw [bind_error (readLe_none hk)]
    refine ⟨[], (List.append_nil _).symm, ?_⟩
    dsimp only
    rw [List.length_drop, if_neg (by omega)]
    rfl

theorem Follows.reserve_bind {layout : Bytes → Layout} (capacity need : ℕ) (h : Follows layout d) :
    Follows (fun bytes => ⟨capacity + (layout bytes).announced, (layout bytes).whole⟩)
      (reserve capacity need >>= fun _ => d) := by
  intro data c hc
  rw [bind_ok (f := fun _ => d) (show reserve capacity need data c = _ from rfl)]
  obtain ⟨new, hnew, hlayout⟩ := h data
    ⟨c.position, c.requests ++ [⟨capacity, need, data.length - c.position⟩]⟩ hc
  refine ⟨⟨capacity, need, data.length - c.position⟩ :: new, ?_, ?_⟩
  · rw [hnew, List.append_assoc, List.singleton_append]
  · dsimp only at hlayout ⊢
    rw [hlayout]
    rfl

theorem EntryAt.inside_drop {bytes : Bytes} (h : EntryAt data pos bytes) :
    ofLeBytes ((data.drop pos).take 4) = bytes.length ∧
      ((data.drop pos).drop 4).take bytes.length = bytes ∧
        4 + bytes.length ≤ (data.drop pos).length := by
  have hinside := h.inside
  have hlen := h.length_read
  rw [reader_readLe (by omega), Option.some.injEq, Prod.mk.injEq] at hlen
  have hbytes := h.bytes_taken
  rw [Reader.takeBytes, if_pos (by rw [List.length_drop]; omega), Option.some.injEq,
    Prod.mk.injEq] at hbytes
  refine ⟨hlen.1, ?_, by rw [List.length_drop]; omega⟩
  rw [List.drop_drop]
  exact hbytes.1

theorem follows_entries {layout : Bytes → Layout} (t : SeqTexts) (hd : Follows layout decode)
    (n : ℕ) : Follows (entriesLayout layout n) (entriesFromCursor t decode n) := by
  induction n with
  | zero => exact follows_pure []
  | succ n ih =>
    intro data c hc
    unfold entriesFromCursor entriesLayout
    have hends := entry_ends t decode data c
    generalize hentry : entryFromCursor t decode data c = out at hends
    cases hends with
    | cutLength h =>
      rw [bind_error hentry]
      refine ⟨[], (List.append_nil _).symm, if_neg fun hle => ?_⟩
      rw [List.length_drop] at hle
      rw [reader_readLe (by omega)] at h
      cases h
    | @pastEnd len hlen h =>
      rw [bind_error hentry]
      refine ⟨[], (List.append_nil _).symm, if_neg fun hle => ?_⟩
      rw [List.length_drop] at hle
      rw [reader_readLe (by omega), Option.some.injEq, Prod.mk.injEq] at hlen
      rw [hlen.1] at hle
      rw [Reader.takeBytes, if_pos (by rw [List.length_drop]; omega)] at h
      cases h
    | @failed bytes e c' hat hrun =>
      rw [bind_error hentry]
      obtain ⟨hlen, htake, hle⟩ := hat.inside_drop
      obtain ⟨new, hnew, hlayout⟩ := hd bytes ⟨0, []⟩ (Nat.zero_le _)
      rw [show decode bytes ⟨0, []⟩ = _ from hrun, List.nil_append] at hnew
      rw [show decode bytes ⟨0, []⟩ = _ from hrun, List.drop_zero] at hlayout
      refine ⟨c'.requests, rfl, ?_⟩
      dsimp only at hnew ⊢
      rw [hlen, if_pos hle, htake, hlayout, hnew]
      rfl
    | @done bytes a c' hat hrun =>
      rw [bind_ok hentry]
      obtain ⟨hlen, htake, hle⟩ := hat.inside_drop
      obtain ⟨new, hnew, hlayout⟩ := hd bytes ⟨0, []⟩ (Nat.zero_le _)
      rw [show decode bytes ⟨0, []⟩ = _ from hrun, List.nil_append] at hnew
      rw [show decode bytes ⟨0, []⟩ = _ from hrun, List.drop_zero] at hlayout
      obtain ⟨more, hmore, hrest⟩ := (ih.map fun entries => a :: entries) data
        ⟨c.position + 4 + bytes.length, c.requests ++ c'.requests⟩ hat.inside
      refine ⟨c'.requests ++ more, by rw [hmore, List.append_assoc], ?_⟩
      dsimp only at hnew hrest ⊢
      rw [hlen, if_pos hle, htake, hlayout, ← hnew, List.drop_drop, ← Nat.add_assoc, hrest,
        total_append]
      exact if_pos rfl

theorem follows_seq {layout : Bytes → Layout} (t : SeqTexts) (size : ℕ)
    (hd : Follows layout decode) :
    Follows (seqLayout size layout) (seqFromCursor t size decode) :=
  Follows.readLe_bind fun count => (follows_entries t hd count).reserve_bind _ _

theorem Follows.requests {layout : Bytes → Layout} (h : Follows layout d) (data : Bytes) :
    layout data = ⟨total (requestsOf d data), (outcome d data).isOk⟩ := by
  obtain ⟨new, hnew, hlayout⟩ := h data ⟨0, []⟩ (Nat.zero_le _)
  have hreq : requestsOf d data = new := hnew
  rw [hreq]
  exact hlayout

end Ironcat.Lib.SliceDecoder
