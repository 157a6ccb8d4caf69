import Ironcat.Lib.ByteCodec

/-!
# Readers with a cursor

A reader moves a position through a byte string that stays as it is, and may
fail. What it consumes are the bytes between the old position and the new one,
whatever stands before and behind them.
-/

namespace Ironcat.Lib.Cursor

open Lib.ByteCodec

abbrev CursorM := ReaderT Bytes (StateT ℕ Option)

variable {α β : Type}

def nextByte : CursorM UInt8 := fun data pos => data[pos]?.map (·, pos + 1)

def slice (n : ℕ) : CursorM Bytes := fun data pos =>
  if pos + n ≤ data.length then some ((data.drop pos).take n, pos + n) else none

def Consumes (r : CursorM α) (enc : Bytes) (a : α) : Prop :=
  ∀ before rest, r (before ++ enc ++ rest) before.length = some (a, (before ++ enc).length)

theorem consumes_pure (a : α) : Consumes (pure a) [] a := by
  intro before rest
  rw [List.append_nil]
  rfl

theorem Consumes.bind {r : CursorM α} {next : α → CursorM β} {enc enc' : Bytes} {a : α} {b : β}
    (h : Consumes r enc a) (hnext : Consumes (next a) enc' b) :
    Consumes (r >>= next) (enc ++ enc') b := by
  intro before rest
  have hfirst := h before (enc' ++ rest)
  have hsecond := hnext (before ++ enc) rest
  rw [List.append_assoc before enc enc'] at hsecond
  rw [← List.append_assoc, List.append_assoc before enc enc'] at hfirst
  change (r (before ++ (enc ++ enc') ++ rest) before.length >>= fun p =>
    next p.1 (before ++ (enc ++ enc') ++ rest) p.2) = _
  rw [hfirst]
  exact hsecond

theorem Consumes.guard_bind {c : Prop} [Decidable c] {r : CursorM α} {enc : Bytes} {a : α} (hc : c)
    (h : Consumes r enc a) : Consumes (guard c >>= fun _ => r) enc a := by
  rw [guard, if_pos hc]
  exact h

theorem consumes_nextByte (b : UInt8) : Consumes nextByte [b] b := by
  intro before rest
  rw [nextByte, List.append_assoc, List.getElem?_append_right le_rfl, Nat.sub_self]
  simp

theorem consumes_slice (bs : Bytes) : Consumes (slice bs.length) bs bs := by
  intro before rest
  rw [slice, if_pos (by simp), List.append_assoc, List.drop_left, List.take_left, List.length_append]

end Ironcat.Lib.Cursor
