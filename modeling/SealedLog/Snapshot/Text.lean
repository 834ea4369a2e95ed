import SealedLog.Json.Printer
import SealedLog.Json.Record
import SealedLog.Snapshot.Basic

/-!
# The text of snapshots

Snapshots are kept in files and sent to callers as JSON. A document is the array of all
snapshots of a store, one value to a line.
-/

namespace SealedLog

namespace Snapshot

def fields : Json.Fields Json.Decoder
    (Hash × Nat × List (List String) × List (List Hash) × Nat × Unit) :=
  .cons (Json.field "root_hash" Json.Reader.text) <|
  .cons (Json.field "tree_index" Json.Reader.word64) <|
  .cons (Json.field "leaf_data_blocks" (Json.Reader.list (Json.Reader.list Json.Reader.text))) <|
  .cons (Json.field "level_hashes" (Json.Reader.list (Json.Reader.list Json.Reader.text))) <|
  .cons (Json.field "updated_at" Json.Reader.word64) .nil

def decoder : Json.Decoder Snapshot :=
  Json.Reader.record "AuditLogSnapshot" fields
    fun (rootHash, treeIndex, leafBlocks, levelHashes, updatedAt, ()) =>
      ⟨rootHash, treeIndex, leafBlocks, levelHashes, updatedAt⟩

/-- A list of lists of texts as a value. -/
def textLists (xss : List (List String)) : Json :=
  .arr (xss.map fun xs => .arr (xs.map .str))

def toJson (s : Snapshot) : Json :=
  .obj [
    ("root_hash", .str s.rootHash),
    ("tree_index", .nat s.treeIndex),
    ("leaf_data_blocks", textLists s.leafBlocks),
    ("level_hashes", textLists s.levelHashes),
    ("updated_at", .nat s.updatedAt)]

/-- The document of a list of snapshots. -/
def document (snapshots : List Snapshot) : String :=
  (Json.arr (snapshots.map toJson)).pretty

/-- The snapshots of a document, given as bytes. -/
def readDocument (bytes : List UInt8) : Except String (List Snapshot) :=
  Json.decodeBytes (Json.Reader.list decoder) bytes

end Snapshot

namespace SealedTree

def fields : Json.Fields Json.Decoder (Nat × Hash × Unit) :=
  .cons (Json.field "tree_index" Json.Reader.word64) <|
  .cons (Json.field "root_hash" Json.Reader.text) .nil

def decoder : Json.Decoder SealedTree :=
  Json.Reader.record "SealedTree" fields fun (treeIndex, rootHash, ()) => ⟨treeIndex, rootHash⟩

def toJson (t : SealedTree) : Json :=
  .obj [("tree_index", .nat t.treeIndex), ("root_hash", .str t.rootHash)]

end SealedTree

end SealedLog
