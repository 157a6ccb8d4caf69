import Ironcat.Lib.Checked
import Ironcat.Lib.Framing
import Ironcat.Types
import Mathlib.Data.FinEnum

/-!
# Message framing

Messages and the incoming queue of `network.rs`. A peer's bytes arrive in
pieces; the queue keeps what does not make up a whole message yet. Its second
guard compares the buffer, which starts with a message's header, with the limit
on payloads.
-/

namespace Ironcat.Network

open Lib.ByteCodec Lib.ByteCodec.Reader Lib.Checked Lib.Framing Types

def maxMessageSize : ℕ := 2000000

def commandLength : ℕ := 12

def netMagic : Bytes := [0xFC, 0xC1, 0xB7, 0xDC]

def messageHeaderSize : ℕ := 4 + commandLength + 4 + 4

/-- The buffer of `node_connection_loop` that reads from the socket. -/
def readSize : ℕ := 8192

inductive CorruptReason
  | readFailed
  | invalidMagic
  | lengthExceeds (length : ℕ)
  | checksumMismatch
deriving DecidableEq, Repr

inductive MessageParseError
  | incomplete
  | corrupt (reason : CorruptReason)
deriving DecidableEq, Repr

inductive MessageError
  | payloadExceeds (size : ℕ)
  | nonAscii
  | commandTooLong
  | commandTooShort
deriving DecidableEq, Repr

structure Message where
  magic : Bytes
  command : Bytes
  length : UInt32
  checksum : UInt32
  payload : Bytes
deriving DecidableEq, Repr

variable {n : ℕ}

namespace Message

def calculateChecksum (P : Primitives) (m : Message) : UInt32 :=
  UInt32.ofNat (ofLeBytes ((P.doubleSha256 m.payload).asBytes.take 4))

def setCommand (m : Message) (command : Bytes) : Except MessageError Message := do
  ensure (∀ b ∈ command, b < 0x80) .nonAscii
  ensure (command.length < commandLength) .commandTooLong
  ensure (command ≠ []) .commandTooShort
  return { m with command := command ++ m.command.drop command.length }

def new (P : Primitives) (command payload : Bytes) : Except MessageError Message := do
  ensure (payload.length ≤ maxMessageSize) (.payloadExceeds payload.length)
  let msg : Message := ⟨netMagic, List.replicate commandLength 0, UInt32.ofNat payload.length, 0,
    payload⟩
  let msg ← msg.setCommand command
  return { msg with checksum := msg.calculateChecksum P }

def toBytes (m : Message) : Bytes :=
  m.magic ++ (m.command ++ (leBytes 4 m.length.toNat ++ (leBytes 4 m.checksum.toNat ++ m.payload)))

def fromBytes (P : Primitives) (bytes : Bytes) : Except MessageParseError (Message × ℕ) := do
  ensure (messageHeaderSize ≤ bytes.length) .incomplete
  let (magic, cursor) ← okOr (.corrupt .readFailed) (takeBytes 4 bytes)
  ensure (magic = netMagic) (.corrupt .invalidMagic)
  let (command, cursor) ← okOr (.corrupt .readFailed) (takeBytes commandLength cursor)
  let (length, cursor) ← okOr (.corrupt .readFailed) (readLe 4 cursor)
  ensure (length ≤ maxMessageSize) (.corrupt (.lengthExceeds length))
  let (checksum, cursor) ← okOr (.corrupt .readFailed) (readLe 4 cursor)
  let totalSize := messageHeaderSize + length
  ensure (totalSize ≤ bytes.length) .incomplete
  let (payload, _) ← okOr (.corrupt .readFailed) (takeBytes length cursor)
  let msg : Message := ⟨magic, command, UInt32.ofNat length, UInt32.ofNat checksum, payload⟩
  ensure (msg.calculateChecksum P = UInt32.ofNat checksum) (.corrupt .checksumMismatch)
  return (msg, totalSize)

theorem fromBytes_size {P : Primitives} {bytes : Bytes} {m : Message}
    (h : fromBytes P bytes = .ok (m, n)) : messageHeaderSize ≤ n ∧ n ≤ bytes.length := by
  obtain ⟨_, -, h⟩ := bind_eq_ok.mp h
  obtain ⟨_, -, h⟩ := bind_eq_ok.mp h
  obtain ⟨_, -, h⟩ := bind_eq_ok.mp h
  obtain ⟨_, -, h⟩ := bind_eq_ok.mp h
  obtain ⟨⟨length, _⟩, -, h⟩ := bind_eq_ok.mp h
  obtain ⟨_, -, h⟩ := bind_eq_ok.mp h
  obtain ⟨_, -, h⟩ := bind_eq_ok.mp h
  obtain ⟨_, hsize, h⟩ := bind_eq_ok.mp h
  obtain ⟨_, -, h⟩ := bind_eq_ok.mp h
  obtain ⟨_, -, h⟩ := bind_eq_ok.mp h
  cases pure_eq_ok.mp h
  exact ⟨Nat.le_add_right _ _, ensure_eq_ok.mp hsize⟩

end Message

structure NetworkQueue where
  buffer : Bytes
  messages : List Message
deriving DecidableEq, Repr

inductive QueueError
  | wouldExceedSafetyLimit
  | corrupt (reason : CorruptReason)
  | exceedsMessageSize
deriving DecidableEq, Repr

namespace NetworkQueue

def new : NetworkQueue := ⟨[], []⟩

/-- The loop of `process_incoming_data`: how much of the buffer was consumed
and the messages found, or why it was given up. -/
def parse (P : Primitives) (buffer : Bytes) (consumed : ℕ) (messages : List Message) :
    Except CorruptReason ℕ × List Message :=
  match _h : Message.fromBytes P (buffer.drop consumed) with
  | .ok (message, len) => parse P buffer (consumed + len) (messages ++ [message])
  | .error .incomplete => (.ok consumed, messages)
  | .error (.corrupt reason) => (.error reason, messages)
termination_by buffer.length - consumed
decreasing_by
  have hsize := Message.fromBytes_size _h
  simp only [messageHeaderSize, commandLength, List.length_drop] at hsize
  omega

def processIncomingData (P : Primitives) (q : NetworkQueue) (data : Bytes) :
    Except QueueError Unit × NetworkQueue :=
  if maxMessageSize * 2 < q.buffer.length + data.length then (.error .wouldExceedSafetyLimit, q)
  else
    let buffer := q.buffer ++ data
    match parse P buffer 0 q.messages with
    | (.error reason, messages) => (.error (.corrupt reason), ⟨buffer, messages⟩)
    | (.ok consumed, messages) =>
      let q' : NetworkQueue := ⟨buffer.drop consumed, messages⟩
      if maxMessageSize < q'.buffer.length then (.error .exceedsMessageSize, q') else (.ok (), q')

def getNextMessage (q : NetworkQueue) : Option Message × NetworkQueue :=
  (q.messages.head?, { q with messages := q.messages.tail })

def drain (q : NetworkQueue) : List Message × NetworkQueue :=
  match _h : q.getNextMessage.1 with
  | none => ([], q.getNextMessage.2)
  | some message =>
    let rest := drain q.getNextMessage.2
    (message :: rest.1, rest.2)
termination_by q.messages.length
decreasing_by
  obtain ⟨rest, hrest⟩ := List.head?_eq_some_iff.mp _h
  simp [getNextMessage, hrest]

/-- The receiving side of `node_connection_loop`: the first error ends it. -/
def receive (P : Primitives) : NetworkQueue → List Bytes → Except QueueError (List Message)
  | _, [] => .ok []
  | q, chunk :: chunks =>
    match q.processIncomingData P chunk with
    | (.error e, _) => .error e
    | (.ok (), q') => do
      let rest ← receive P q'.drain.2 chunks
      return q'.drain.1 ++ rest

end NetworkQueue

namespace Message

structure Sent (P : Primitives) (m : Message) : Prop where
  magic : m.magic = netMagic
  command : m.command.length = commandLength
  length : m.length.toNat = m.payload.length
  payload : m.payload.length ≤ maxMessageSize
  checksum : m.calculateChecksum P = m.checksum

def header (m : Message) : Bytes :=
  m.magic ++ (m.command ++ (leBytes 4 m.length.toNat ++ leBytes 4 m.checksum.toNat))

variable {P : Primitives} {m : Message}

theorem new_sent {command payload : Bytes} (h : new P command payload = .ok m) : Sent P m := by
  obtain ⟨_, hmax, h⟩ := bind_eq_ok.mp h
  obtain ⟨msg, hset, h⟩ := bind_eq_ok.mp h
  cases pure_eq_ok.mp h
  obtain ⟨_, -, hset⟩ := bind_eq_ok.mp hset
  obtain ⟨_, hlong, hset⟩ := bind_eq_ok.mp hset
  obtain ⟨_, -, hset⟩ := bind_eq_ok.mp hset
  cases pure_eq_ok.mp hset
  have hmax' := ensure_eq_ok.mp hmax
  have hlong' := ensure_eq_ok.mp hlong
  refine ⟨rfl, ?_, ?_, hmax', rfl⟩
  · simp only [List.length_append, List.length_drop, List.length_replicate]
    omega
  · exact UInt32.toNat_ofNat_of_lt' (hmax'.trans_lt (by decide))

theorem new_isOk (P : Primitives) (command payload : Bytes) (hascii : ∀ b ∈ command, b < 0x80)
    (hlong : command.length < commandLength) (hshort : command ≠ [])
    (hpayload : payload.length ≤ maxMessageSize) :
    ∃ m, new P command payload = .ok m ∧ m.payload = payload := by
  simp only [new, setCommand, ensure, if_pos hpayload, if_pos hascii, if_pos hlong, if_pos hshort,
    ok_bind]
  exact ⟨_, rfl, rfl⟩

theorem toBytes_eq (m : Message) : m.toBytes = m.header ++ m.payload := by
  simp only [toBytes, header, List.append_assoc]

theorem Sent.header_length (h : Sent P m) : m.header.length = messageHeaderSize := by
  simp only [header, List.length_append, h.magic, h.command, leBytes_length, netMagic,
    messageHeaderSize]
  rfl

theorem Sent.toBytes_length (h : Sent P m) :
    m.toBytes.length = messageHeaderSize + m.payload.length := by
  rw [toBytes_eq, List.length_append, h.header_length]

theorem Sent.fromBytes_header (h : Sent P m) (t : Bytes) :
    fromBytes P (m.header ++ t) = do
      ensure (m.payload.length ≤ t.length) .incomplete
      let (payload, _) ← okOr (.corrupt .readFailed) (takeBytes m.payload.length t)
      let msg : Message := { m with payload }
      ensure (msg.calculateChecksum P = m.checksum) (.corrupt .checksumMismatch)
      return (msg, messageHeaderSize + m.payload.length) := by
  have hmagic : takeBytes 4 (m.header ++ t) = some (m.magic, m.command ++
      (leBytes 4 m.length.toNat ++ (leBytes 4 m.checksum.toNat ++ t))) := by
    have hread := reads_takeBytes m.magic (m.command ++
      (leBytes 4 m.length.toNat ++ (leBytes 4 m.checksum.toNat ++ t)))
    have hfour : m.magic.length = 4 := by rw [h.magic]; rfl
    rw [hfour] at hread
    simpa only [header, List.append_assoc] using hread
  have hcommand := reads_takeBytes m.command
    (leBytes 4 m.length.toNat ++ (leBytes 4 m.checksum.toNat ++ t))
  rw [h.command] at hcommand
  have hlength := reads_readLe (k := 4) m.length.toNat_lt (leBytes 4 m.checksum.toNat ++ t)
  have hchecksum := reads_readLe (k := 4) m.checksum.toNat_lt t
  have hsize : messageHeaderSize ≤ (m.header ++ t).length := by
    rw [List.length_append, h.header_length]
    exact Nat.le_add_right _ _
  have htotal : messageHeaderSize + m.payload.length ≤ (m.header ++ t).length ↔
      m.payload.length ≤ t.length := by
    rw [List.length_append, h.header_length]
    omega
  simp only [fromBytes, ensure, if_pos hsize, hmagic, okOr, hcommand, hlength, hchecksum, ok_bind,
    if_pos h.magic, UInt32.ofNat_toNat]
  simp only [h.length, if_pos h.payload, ok_bind, htotal]

theorem Sent.fromBytes_toBytes (h : Sent P m) (t : Bytes) :
    fromBytes P (m.toBytes ++ t) = .ok (m, m.toBytes.length) := by
  have hlen : m.payload.length ≤ (m.payload ++ t).length := by simp
  rw [toBytes_eq, List.append_assoc, h.fromBytes_header, ← toBytes_eq, h.toBytes_length]
  simp only [ensure, if_pos hlen, ok_bind, reads_takeBytes m.payload t, okOr, if_pos h.checksum]
  rfl

theorem Sent.fromBytes_cut (h : Sent P m) (hn : n < m.toBytes.length) :
    fromBytes P (m.toBytes.take n) = .error .incomplete := by
  rw [h.toBytes_length] at hn
  by_cases hheader : n < messageHeaderSize
  · have hshort : ¬ messageHeaderSize ≤ (m.toBytes.take n).length := by
      rw [List.length_take]
      omega
    simp only [fromBytes, ensure, if_neg hshort, error_bind]
  · have hcut : m.toBytes.take n = m.header ++ m.payload.take (n - messageHeaderSize) := by
      rw [toBytes_eq, List.take_append, h.header_length, List.take_of_length_le]
      rw [h.header_length]
      omega
    have hshort : ¬ m.payload.length ≤ (m.payload.take (n - messageHeaderSize)).length := by
      rw [List.length_take]
      omega
    rw [hcut, h.fromBytes_header]
    simp only [ensure, if_neg hshort, error_bind]

end Message

namespace NetworkQueue

variable {P : Primitives}

theorem parse_of_ok {buffer : Bytes} {consumed len : ℕ} {m : Message} (messages : List Message)
    (h : Message.fromBytes P (buffer.drop consumed) = .ok (m, len)) :
    parse P buffer consumed messages = parse P buffer (consumed + len) (messages ++ [m]) := by
  rw [parse]
  split
  · next heq => rw [h] at heq; cases heq; rfl
  · next heq => rw [h] at heq; cases heq
  · next heq => rw [h] at heq; cases heq

theorem parse_of_incomplete {buffer : Bytes} {consumed : ℕ} (messages : List Message)
    (h : Message.fromBytes P (buffer.drop consumed) = .error .incomplete) :
    parse P buffer consumed messages = (.ok consumed, messages) := by
  rw [parse]
  split
  · next heq => rw [h] at heq; cases heq
  · rfl
  · next heq => rw [h] at heq; cases heq

variable {ms : List Message}

theorem parse_wire (hms : ∀ m ∈ ms, m.Sent P) {buffer : Bytes}
    (hn : n ≤ (wire Message.toBytes ms).length) (consumed : ℕ) (messages : List Message)
    (hbuf : buffer.drop consumed = (wire Message.toBytes ms).take n) :
    parse P buffer consumed messages =
      (.ok (consumed + (wire Message.toBytes (complete Message.toBytes ms n)).length),
        messages ++ complete Message.toBytes ms n) := by
  induction ms generalizing n consumed messages with
  | nil =>
    rw [parse_of_incomplete messages (by rw [hbuf, wire_nil, List.take_nil]; rfl)]
    simp [complete]
  | cons m ms ih =>
    rw [List.forall_mem_cons] at hms
    rw [wire_cons, List.length_append] at hn
    rw [wire_cons] at hbuf
    by_cases hcut : n < m.toBytes.length
    · rw [List.take_append_of_le_length hcut.le] at hbuf
      rw [parse_of_incomplete messages (by rw [hbuf, hms.1.fromBytes_cut hcut])]
      simp [complete, hcut]
    · have hsplit : buffer.drop consumed =
          m.toBytes ++ (wire Message.toBytes ms).take (n - m.toBytes.length) := by
        rw [hbuf, List.take_append, List.take_of_length_le (by omega)]
      have hrest : buffer.drop (consumed + m.toBytes.length) =
          (wire Message.toBytes ms).take (n - m.toBytes.length) := by
        rw [← List.drop_drop, hsplit, List.drop_left]
      rw [parse_of_ok messages (by rw [hsplit, hms.1.fromBytes_toBytes]),
        ih hms.2 (by omega) _ _ hrest]
      simp only [complete, if_neg hcut, wire_cons, List.length_append, List.append_assoc,
        List.singleton_append, Nat.add_assoc]

theorem drain_eq (q : NetworkQueue) : q.drain = (q.messages, ⟨q.buffer, []⟩) := by
  obtain ⟨buffer, messages⟩ := q
  induction messages with
  | nil => rw [drain]; rfl
  | cons m ms ih =>
    rw [drain]
    simp only [getNextMessage, List.head?_cons, List.tail_cons, ih]

def fedTo (ms : List Message) (n : ℕ) : NetworkQueue :=
  ⟨(wire Message.toBytes (coming Message.toBytes ms n)).take (intoFrame Message.toBytes ms n), []⟩

theorem fedTo_buffer_length (hn : n ≤ (wire Message.toBytes ms).length) :
    (fedTo ms n).buffer.length = intoFrame Message.toBytes ms n := by
  rw [fedTo, List.length_take, Nat.min_eq_left (intoFrame_le hn)]

theorem processIncomingData_wire (hms : ∀ m ∈ ms, m.Sent P) {chunk rest : Bytes}
    (hsize : chunk.length ≤ readSize) (hchunk : (wire Message.toBytes ms).drop n = chunk ++ rest)
    (hn : n ≤ (wire Message.toBytes ms).length)
    (hinto : intoFrame Message.toBytes ms n ≤ maxMessageSize) :
    (fedTo ms n).processIncomingData P chunk =
      (if maxMessageSize < intoFrame Message.toBytes ms (n + chunk.length)
        then .error .exceedsMessageSize else .ok (),
      ⟨(fedTo ms (n + chunk.length)).buffer,
        complete Message.toBytes (coming Message.toBytes ms n)
          (intoFrame Message.toBytes ms n + chunk.length)⟩) := by
  set ns := coming Message.toBytes ms n with hns
  set k := intoFrame Message.toBytes ms n with hk
  obtain ⟨hcoming, hnext⟩ := split_add Message.toBytes ms n chunk.length
  have hlen : n + chunk.length ≤ (wire Message.toBytes ms).length := by
    have hcut := congrArg List.length hchunk
    rw [List.length_drop, List.length_append] at hcut
    omega
  have hdrop : (wire Message.toBytes ns).drop k = chunk ++ rest := by
    rw [← hchunk, hns, hk, ← drop_wire]
  have hbuffer : (fedTo ms n).buffer ++ chunk =
      (wire Message.toBytes ns).take (k + chunk.length) := by
    rw [List.take_add, hdrop, List.take_left]
    rfl
  have hroom : k + chunk.length ≤ (wire Message.toBytes ns).length := by
    have hle : k ≤ (wire Message.toBytes ns).length := intoFrame_le hn
    have hcut := congrArg List.length hdrop
    rw [List.length_drop, List.length_append] at hcut
    omega
  have hguard : ¬ maxMessageSize * 2 < (fedTo ms n).buffer.length + chunk.length := by
    rw [fedTo_buffer_length hn]
    simp only [maxMessageSize, readSize] at *
    omega
  have hsent : ∀ m ∈ ns, m.Sent P := fun m hm => hms m (by
    rw [← complete_append_coming Message.toBytes ms n]
    exact List.mem_append_right _ hm)
  have hparse := parse_wire hsent hroom 0 [] hbuffer
  have hleft : ((fedTo ms n).buffer ++ chunk).drop
      (wire Message.toBytes (complete Message.toBytes ns (k + chunk.length))).length =
        (fedTo ms (n + chunk.length)).buffer := by
    rw [hbuffer, take_wire, List.drop_left, fedTo, hcoming, hnext]
  simp only [processIncomingData, if_neg hguard]
  rw [show (fedTo ms n).messages = [] from rfl, hparse]
  simp only [Nat.zero_add, List.nil_append, hleft, fedTo_buffer_length hlen]
  split_ifs <;> rfl

theorem append_rest_eq_ok {found rest all : List Message} {r : Except QueueError (List Message)}
    (h : found ++ rest = all) :
    (do let later ← r; return found ++ later) = Except.ok all ↔ r = .ok rest := by
  rw [bind_eq_ok, ← h]
  constructor
  · rintro ⟨later, hr, hall⟩
    rw [hr, List.append_cancel_left (pure_eq_ok.mp hall)]
  · exact fun hr => ⟨rest, hr, rfl⟩

theorem receive_wire (hms : ∀ m ∈ ms, m.Sent P) {chunks : List Bytes}
    (hsize : ∀ c ∈ chunks, c.length ≤ readSize)
    (hchunks : (wire Message.toBytes ms).drop n = chunks.flatten)
    (hn : n ≤ (wire Message.toBytes ms).length)
    (hinto : intoFrame Message.toBytes ms n ≤ maxMessageSize) :
    receive P (fedTo ms n) chunks = .ok (coming Message.toBytes ms n) ↔
      ∀ p ∈ cuts n chunks, intoFrame Message.toBytes ms p ≤ maxMessageSize := by
  induction chunks generalizing n with
  | nil =>
    have hend : n = (wire Message.toBytes ms).length :=
      le_antisymm hn (List.drop_eq_nil_iff.mp hchunks)
    rw [hend, coming_length_wire]
    simp [receive, cuts]
  | cons c cs ih =>
    rw [List.forall_mem_cons] at hsize
    rw [List.flatten_cons] at hchunks
    have hstep := processIncomingData_wire hms hsize.1 hchunks hn hinto
    have hrest : (wire Message.toBytes ms).drop (n + c.length) = cs.flatten := by
      rw [← List.drop_drop, hchunks, List.drop_left]
    have hnext : n + c.length ≤ (wire Message.toBytes ms).length := by
      have hcut := congrArg List.length hchunks
      rw [List.length_drop, List.length_append] at hcut
      omega
    rw [cuts, List.forall_mem_cons, receive, hstep]
    by_cases hover : maxMessageSize < intoFrame Message.toBytes ms (n + c.length)
    · simp only [if_pos hover, reduceCtorEq, false_iff, not_and]
      omega
    · rw [← ih hsize.2 hrest hnext (by omega), (split_add Message.toBytes ms n c.length).1]
      simp only [if_neg hover, drain_eq, not_lt.mp hover, true_and]
      exact append_rest_eq_ok (complete_append_coming Message.toBytes _ _)

theorem receive_new {sent : List Message} (hsent : ∀ m ∈ sent, m.Sent P) {chunks : List Bytes}
    (hsize : ∀ c ∈ chunks, c.length ≤ readSize) (hchunks : chunks.flatten = wire Message.toBytes sent) :
    receive P new chunks = .ok sent ↔
      ∀ p ∈ cuts 0 chunks, intoFrame Message.toBytes sent p ≤ maxMessageSize := by
  have hpos : ∀ m ∈ sent, 0 < m.toBytes.length := fun m hm => by
    rw [(hsent m hm).toBytes_length, messageHeaderSize]
    omega
  have hrun := receive_wire (n := 0) hsent hsize hchunks.symm (Nat.zero_le _)
    (by rw [intoFrame_zero]; exact Nat.zero_le _)
  rw [coming_zero Message.toBytes hpos] at hrun
  rw [← hrun, fedTo, intoFrame_zero]
  rfl

end NetworkQueue

/-- Messages arrive exactly as sent when no read ends more than
`MAX_MESSAGE_SIZE` bytes into a message, and only then. -/
theorem received_iff_cuts {P : Primitives} {sent : List Message}
    (hnew : ∀ m ∈ sent, ∃ command payload, Message.new P command payload = .ok m)
    {chunks : List Bytes} (hsize : ∀ c ∈ chunks, c ≠ [] ∧ c.length ≤ readSize)
    (hchunks : chunks.flatten = sent.flatMap Message.toBytes) :
    NetworkQueue.receive P NetworkQueue.new chunks = .ok sent ↔
      ∀ p ∈ cuts 0 chunks, intoFrame Message.toBytes sent p ≤ maxMessageSize := by
  refine NetworkQueue.receive_new (fun m hm => ?_) (fun c hc => (hsize c hc).2) hchunks
  obtain ⟨command, payload, h⟩ := hnew m hm
  exact Message.new_sent h

def ping : Bytes := [0x70, 0x69, 0x6E, 0x67]

def pingMessage : Message :=
  ⟨netMagic, [0x70, 0x69, 0x6E, 0x67, 0, 0, 0, 0, 0, 0, 0, 0], 2, 0x102, [0, 0]⟩

theorem pings_received_in_pieces :
    NetworkQueue.receive poly NetworkQueue.new
      (pieces 9 5 (pingMessage.toBytes ++ pingMessage.toBytes)) = .ok [pingMessage, pingMessage] :=
  (received_iff_cuts
    (fun m hm => ⟨ping, [0, 0], by
      obtain rfl : m = pingMessage := by simpa using hm
      decide +kernel⟩) (by decide +kernel) (by decide +kernel)).mpr (by decide +kernel)

/-- A ping whose payload has the greatest size that `new` accepts, read in
pieces of which one ends in the last bytes of the payload. -/
theorem largest_message_rejected :
    ∃ m, Message.new poly ping (List.replicate maxMessageSize 0) = .ok m ∧
      (∀ c ∈ pieces 4890 409 m.toBytes, c ≠ [] ∧ c.length ≤ readSize) ∧
      (pieces 4890 409 m.toBytes).flatten = [m].flatMap Message.toBytes ∧
      NetworkQueue.receive poly NetworkQueue.new (pieces 4890 409 m.toBytes) ≠ .ok [m] := by
  obtain ⟨m, hm, hpayload⟩ := Message.new_isOk poly ping
    (List.replicate maxMessageSize 0) (by decide +kernel) (by decide) (by decide)
    (by rw [List.length_replicate])
  have hsent := Message.new_sent hm
  have hlen : m.toBytes.length = 2000024 := by
    rw [hsent.toBytes_length, hpayload, List.length_replicate]
    rfl
  have hsize : ∀ c ∈ pieces 4890 409 m.toBytes, c ≠ [] ∧ c.length ≤ readSize := fun c hc => by
    have hbounds := length_of_mem_pieces hc (by omega) (by omega) (by omega)
    exact ⟨List.ne_nil_of_length_pos hbounds.1, hbounds.2.trans (by decide)⟩
  have hflat : (pieces 4890 409 m.toBytes).flatten = [m].flatMap Message.toBytes := by
    rw [flatten_pieces, List.flatMap_singleton]
  refine ⟨m, hm, hsize, hflat, fun hok => ?_⟩
  -- the cut after 409 pieces leaves 2000010 bytes of the message in the buffer
  have hcut := (NetworkQueue.receive_new (fun x hx => List.mem_singleton.mp hx ▸ hsent)
    (fun c hc => (hsize c hc).2) hflat).mp hok (0 + (408 + 1) * 4890) (mem_cuts_pieces (by omega) 0)
  rw [intoFrame, if_pos (by omega)] at hcut
  exact absurd hcut (by decide)

end Ironcat.Network
