import Ironcat.BlockWire
import Ironcat.Lib.Checked
import Ironcat.Lib.FiniteMap

/-!
# The block flat files

`has_block`, `load_block` and `load_and_deserialize` of
`storage/block_store.rs`. The index says where a block was written; whether
the file still holds it is found out only when it is loaded.
-/

namespace Ironcat.BlockFiles

open Lib.ByteCodec Lib.ByteCodec.Reader Lib.Checked Lib.FiniteMap Types BlockWire

def entryPrefixSize : ℕ := 8

structure BlockLocation where
  fileNumber : ℕ
  offset : ℕ
  size : ℕ
deriving DecidableEq, Repr

structure BlockStore where
  index : Map Hash256 BlockLocation
  files : Map ℕ Bytes

inductive LoadError
  | notFound (hash : Hash256)
  | openFailed (fileNumber : ℕ)
  | readFailed
  | badBlock
deriving DecidableEq, Repr

namespace BlockStore

def getLocation (bs : BlockStore) (hash : Hash256) : Option BlockLocation := bs.index.lookup hash

def hasBlock (bs : BlockStore) (hash : Hash256) : Bool := (bs.getLocation hash).isSome

def loadBlock (bs : BlockStore) (hash : Hash256) : Except LoadError Bytes := do
  let loc ← okOr (.notFound hash) (bs.getLocation hash)
  let file ← okOr (.openFailed loc.fileNumber) (bs.files.lookup loc.fileNumber)
  let (buf, _) ← okOr .readFailed (takeBytes loc.size (file.drop (loc.offset + entryPrefixSize)))
  return buf

def loadAndDeserialize (bs : BlockStore) (hash : Hash256) : Except LoadError Block := do
  let raw ← bs.loadBlock hash
  okOr .badBlock (fromBytes raw)

end BlockStore

end Ironcat.BlockFiles
