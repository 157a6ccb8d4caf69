import Ironcat.Types

/-!
# FindAndDelete

`find_and_delete` of `script/signature.rs` looks for the push encodings of some
data at every byte of a script.
-/

namespace Ironcat.Script

open Lib.ByteCodec

def buildPushPatterns (data : Bytes) : List Bytes :=
  (if data.length ≤ 75 then [UInt8.ofNat data.length :: data] else []) ++
    (if data.length ≤ 255 then [0x4c :: UInt8.ofNat data.length :: data] else []) ++
    (if data.length ≤ 65535 then [0x4d :: (leBytes 2 data.length ++ data)] else []) ++
    [0x4e :: (leBytes 4 data.length ++ data)]

def matchesAt (rest pattern : Bytes) : Bool :=
  pattern.length ≤ rest.length ∧ rest.take pattern.length = pattern

/-- The loop of `find_and_delete` on what is left of the script. -/
def deleteLoop (patterns : List Bytes) : ℕ → Bytes → Bytes
  | 0, _ => []
  | _+1, [] => []
  | fuel+1, b :: rest =>
    match patterns.find? (matchesAt (b :: rest)) with
    | some pattern => deleteLoop patterns fuel ((b :: rest).drop pattern.length)
    | none => b :: deleteLoop patterns fuel rest

def findAndDelete (script data : Bytes) : Bytes :=
  if data = [] then script else deleteLoop (buildPushPatterns data) script.length script

end Ironcat.Script
