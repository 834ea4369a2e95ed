import SealedLog.Proofs.Json.Reading
import SealedLog.Proofs.Json.Tuples
import SealedLog.Snapshot.Text

/-!
# The document of a store

The document of any snapshots is read back as these snapshots, whatever their texts are, as long
as their numbers have 64 bits: `readDocument_document`. Those of the snapshots that were read from
a document have: `word64_of_readDocument`.
-/

namespace SealedLog

namespace Snapshot

open Json

/-- The numbers of the snapshot have 64 bits. -/
structure Word64 (s : Snapshot) : Prop where
  treeIndex_lt : s.treeIndex < UInt64.size
  updatedAt_lt : s.updatedAt < UInt64.size

theorem reads_word64 {n : Nat} (h : n < UInt64.size) : Reads 0 Reader.word64 (.nat n) n :=
  reads_natBelow (Nat.le_refl _) h "u64"

theorem reads_textLists (xss : List (List String)) :
    Reads 2 (Reader.list (Reader.list Reader.text)) (textLists xss) xss := by
  refine reads_list (List.forall₂_map_left_iff.2 (List.forall₂_same.2 fun xs _ => ?_))
  exact reads_list (List.forall₂_map_left_iff.2 (List.forall₂_same.2 fun x _ => reads_text x))

theorem reads_decoder {s : Snapshot} (h : s.Word64) : Reads 3 decoder s.toJson s := by
  have hfields : fields.Reads 2 [
      ("root_hash", .str s.rootHash),
      ("tree_index", .nat s.treeIndex),
      ("leaf_data_blocks", textLists s.leafBlocks),
      ("level_hashes", textLists s.levelHashes),
      ("updated_at", .nat s.updatedAt)]
      (s.rootHash, s.treeIndex, s.leafBlocks, s.levelHashes, s.updatedAt, ()) :=
    .cons ((reads_text s.rootHash).mono (Nat.zero_le 2)) <|
    .cons ((reads_word64 h.treeIndex_lt).mono (Nat.zero_le 2)) <|
    .cons (reads_textLists s.leafBlocks) <|
    .cons (reads_textLists s.levelHashes) <|
    .cons ((reads_word64 h.updatedAt_lt).mono (Nat.zero_le 2)) .nil
  exact reads_record hfields (by decide) "AuditLogSnapshot" _

theorem reads_document {snapshots : List Snapshot} (h : ∀ s ∈ snapshots, s.Word64) :
    Reads 4 (Reader.list decoder) (.arr (snapshots.map toJson)) snapshots :=
  reads_list (List.forall₂_map_left_iff.2 (List.forall₂_same.2 fun s hs => reads_decoder (h s hs)))

/-- Reading undoes writing. -/
theorem readDocument_document {snapshots : List Snapshot} (h : ∀ s ∈ snapshots, s.Word64) :
    readDocument (bytesOf (document snapshots)) = .ok snapshots :=
  (reads_document h).decode_pretty (by decide)

theorem word64_of_gives {n : Nat} {s : Snapshot} (h : Gives n decoder s) : s.Word64 := by
  obtain ⟨m, ⟨rootHash, treeIndex, leafBlocks, levelHashes, updatedAt, ⟨⟩⟩, -, rfl, hgiven⟩ :=
    given_of_gives_record h
  obtain ⟨-, hindex, -, -, htime, -⟩ := hgiven
  exact ⟨lt_of_gives_natBelow (Fields.gives_of_given_field hindex),
    lt_of_gives_natBelow (Fields.gives_of_given_field htime)⟩

/-- Whatever a document is, the snapshots that it is read as can be written down again. -/
theorem word64_of_readDocument {bytes : List UInt8} {snapshots : List Snapshot}
    (h : readDocument bytes = .ok snapshots) : ∀ s ∈ snapshots, s.Word64 := by
  obtain ⟨m, -, hgives⟩ := gives_of_mem_list (gives_of_decodeBytes h)
  exact fun s hs => word64_of_gives (hgives s hs)

theorem bytesOf_document_ne_nil (snapshots : List Snapshot) :
    bytesOf (document snapshots) ≠ [] := by
  rw [document, Layout.bytesOf_pretty]
  cases snapshots with
  | nil => exact List.cons_ne_nil _ _
  | cons s rest => exact List.cons_ne_nil _ _

end Snapshot

end SealedLog
