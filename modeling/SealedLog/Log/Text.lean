import SealedLog.Json.Union
import SealedLog.Log.Basic
import SealedLog.Snapshot.Text

/-!
# The text of settings, receipts and checks

The JSON forms of what a log takes and gives besides snapshots and events.
-/

namespace SealedLog

namespace LogConfig

def fields : Json.Fields Json.Decoder (Nat × Unit) :=
  .cons (Json.field "max_leaves_per_tree" Json.Reader.count) .nil

def decoder : Json.Decoder LogConfig :=
  Json.Reader.record "AuditLogConfig" fields fun (maxLeaves, ()) => ⟨maxLeaves⟩

def toJson (c : LogConfig) : Json :=
  .obj [("max_leaves_per_tree", .nat c.maxLeavesPerTree)]

end LogConfig

namespace Receipt

def fields : Json.Fields Json.Decoder (Hash × Nat × Nat × Option SealedTree × Unit) :=
  .cons (Json.field "root_hash" Json.Reader.text) <|
  .cons (Json.field "tree_index" Json.Reader.word64) <|
  .cons (Json.field "leaf_index" Json.Reader.count) <|
  .cons ⟨"sealed", Json.Reader.orNull SealedTree.decoder, some none, false⟩ .nil

def decoder : Json.Decoder Receipt :=
  Json.Reader.record "RecordReceipt" fields
    fun (rootHash, treeIndex, leafIndex, sealedTree?, ()) =>
      ⟨rootHash, treeIndex, leafIndex, sealedTree?⟩

def toJson (r : Receipt) : Json :=
  .obj [
    ("root_hash", .str r.rootHash),
    ("tree_index", .nat r.treeIndex),
    ("leaf_index", .nat r.leafIndex),
    ("sealed", r.sealedTree?.elim .null SealedTree.toJson)]

end Receipt

namespace Checkpoint

def fields : Json.Fields Json.Decoder (Hash × Nat × Nat × Nat × Nat × Unit) :=
  .cons (Json.field "root_hash" Json.Reader.text) <|
  .cons (Json.field "tree_index" Json.Reader.word64) <|
  .cons (Json.field "leaf_count" Json.Reader.count) <|
  .cons (Json.field "block_count" Json.Reader.count) <|
  .cons (Json.field "sealed_trees" Json.Reader.count) .nil

def decoder : Json.Decoder Checkpoint :=
  Json.Reader.record "Checkpoint" fields
    fun (rootHash, treeIndex, leafCount, blockCount, sealedTrees, ()) =>
      ⟨rootHash, treeIndex, leafCount, blockCount, sealedTrees⟩

def toJson (c : Checkpoint) : Json :=
  .obj [
    ("root_hash", .str c.rootHash),
    ("tree_index", .nat c.treeIndex),
    ("leaf_count", .nat c.leafCount),
    ("block_count", .nat c.blockCount),
    ("sealed_trees", .nat c.sealedTrees)]

end Checkpoint

namespace Inclusion

def union : Json.Union Inclusion where
  tag := "result"
  title := "internally tagged enum Inclusion"
  variants := [
    .ofFields "verified" "Inclusion::Verified"
      (.cons (Json.field "leaf_index" Json.Inspector.count)
        (.cons (Json.field "path_len" Json.Inspector.count) .nil))
      fun (leafIndex, pathLen, ()) => verified leafIndex pathLen,
    .unit "not_found" notFound,
    .ofFields "mismatch" "Inclusion::Mismatch"
      (.cons (Json.field "level" Json.Inspector.count) .nil)
      fun (level, ()) => mismatch level]

def toJson : Inclusion → Json
  | verified leafIndex pathLen =>
    .obj [("result", .str "verified"), ("leaf_index", .nat leafIndex), ("path_len", .nat pathLen)]
  | notFound => .obj [("result", .str "not_found")]
  | mismatch level => .obj [("result", .str "mismatch"), ("level", .nat level)]

end Inclusion

end SealedLog
