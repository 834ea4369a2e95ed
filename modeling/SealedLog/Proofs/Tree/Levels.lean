import SealedLog.Proofs.Tree.Content

/-!
# The levels of a tree by hashing alone

`Batch` speaks of the texts that are hashed. Here the levels of a tree are built from hashes:
the lowest level has the hash of every leaf, a level above it the hash of every pair of the
level below, where a last hash without a neighbour counts as a pair by itself, and the first
level with a single hash is the top.

Main statement: `ofBlocks_eq_hashLevels`, a tree that is grown block by block goes through one
state after the other without failing, each block goes into the leaf that its place in the
list says, and in the end the tree shows these levels, whatever its largest number of leaves.
-/

namespace SealedLog

namespace Batch

/-- The hashes of the branches over a level: of the hashes at the places `2 * i` and
`2 * i + 1`, and of a last one without a neighbour by itself. -/
def pairHashes : List Hash → List Hash
  | [] => []
  | [a] => [Digest.ofChildren a none]
  | a :: b :: rest => Digest.ofChildren a (some b) :: pairHashes rest

@[simp] theorem length_pairHashes : ∀ hs : List Hash,
    (pairHashes hs).length = (hs.length + 1) / 2
  | [] => by simp [pairHashes]
  | [a] => by simp [pairHashes]
  | a :: b :: rest => by
      rw [pairHashes, List.length_cons, length_pairHashes rest, List.length_cons,
        List.length_cons]
      omega

/-- The levels over a level, that level first, up to the first one of a single hash. -/
def hashLevels (hs : List Hash) : List (List Hash) :=
  if hs.length ≤ 1 then [hs] else hs :: hashLevels (pairHashes hs)
termination_by hs.length
decreasing_by
  rw [length_pairHashes]
  omega

theorem hashLevels_of_le {hs : List Hash} (h : hs.length ≤ 1) : hashLevels hs = [hs] := by
  rw [hashLevels, if_pos h]

theorem hashLevels_of_lt {hs : List Hash} (h : 1 < hs.length) :
    hashLevels hs = hs :: hashLevels (pairHashes hs) := by
  rw [hashLevels, if_neg (by omega)]

example (a b c : Hash) : hashLevels [a, b, c] =
    [[a, b, c], [Digest.ofChildren a (some b), Digest.ofChildren c none],
      [Digest.ofChildren (Digest.ofChildren a (some b)) (some (Digest.ofChildren c none))]] := by
  simp [hashLevels, pairHashes]

/-- The branches over a level are the hashes of its pair texts. -/
theorem map_ofText_pairTexts : ∀ hs : List Hash,
    (pairTexts hs).map Digest.ofText = pairHashes hs
  | [] => rfl
  | [a] => by simp [pairTexts, pairHashes, Digest.ofChildren]
  | a :: b :: rest => by
      rw [pairTexts, pairHashes, List.map_cons, map_ofText_pairTexts rest]
      rfl

theorem map_textsOver (ts : List String) :
    (textsOver ts).map (List.map Digest.ofText) = hashLevels (ts.map Digest.ofText) := by
  induction ts using textsOver.induct with
  | case1 ts hle => rw [textsOver_of_le hle, hashLevels_of_le (by simpa using hle)]; rfl
  | case2 ts hlt ih =>
      rw [textsOver_of_lt (by omega), hashLevels_of_lt (by simpa using hlt), List.map_cons, ih,
        textsAbove, map_ofText_pairTexts]

/-- The levels of the tree over some blocks, from the hashes of its leaves up. -/
theorem levelHashes_of_ne_nil {bs : List String} (h : bs ≠ []) :
    levelHashes bs = hashLevels ((leaves bs).map Digest.ofBlocks) := by
  rw [levelHashes, if_neg h, texts, leafTexts, if_neg h, map_textsOver, List.map_map]
  rfl

end Batch

namespace Tree

/-- The last leaf is the one that the last block belongs to. -/
theorem Holds.lastLeafIndex_eq {t : Tree} {bs : List String} {b : String}
    (h : t.Holds (bs ++ [b])) : t.lastLeafIndex = bs.length / leafCapacity := by
  rw [lastLeafIndex, h.leafCount_eq, List.length_append, List.length_singleton, leafCapacity]
  omega

/-- The top level holds the root and nothing else. -/
theorem Holds.getLast?_levelHashes {t : Tree} {bs : List String} (h : t.Holds bs)
    (hne : bs ≠ []) : t.levelHashes.getLast? = some [t.rootHash] := by
  apply Tree.getLast?_levelHashes h.sound
  have hpos := List.length_pos_iff.2 hne
  rw [h.leafCount_eq, leafCapacity]
  omega

/-- Growing a tree from nothing, block by block, does not fail: from the tree over the first
`j` blocks, the block at place `j` goes into leaf `j / leafCapacity`. The tree over all blocks
has them in leaves of `leafCapacity`, level by level the hashes that are built from these
leaves in one go, and on top the root, or the hash of the empty text if there is no block.
What the tree may hold at most is in none of this. -/
theorem ofBlocks_eq_hashLevels (bs : List String) (maxLeaves : Nat) :
    (∀ j : Fin bs.length, ∃ t t', ofBlocks (bs.take j) maxLeaves = .ok t ∧
      t.append bs[j] = .ok t' ∧ t'.lastLeafIndex = j / leafCapacity) ∧
    ∃ t, ofBlocks bs maxLeaves = .ok t ∧
      t.leafBlocks = Batch.leaves bs ∧
      t.levelHashes =
        (if bs = [] then [] else Batch.hashLevels ((Batch.leaves bs).map Digest.ofBlocks)) ∧
      t.levelHashes.getLast? = (if bs = [] then none else some [t.rootHash]) ∧
      (bs = [] → t.rootHash = Digest.emptyRoot) := by
  constructor
  · intro j
    obtain ⟨t, hgrow, hholds, -⟩ := ofBlocks_eq_ok (bs.take j) maxLeaves
    obtain ⟨t', happend, hholds', -⟩ := hholds.append bs[j]
    refine ⟨t, t', hgrow, happend, ?_⟩
    rw [hholds'.lastLeafIndex_eq, List.length_take_of_le (Nat.le_of_lt j.isLt)]
  · obtain ⟨t, hgrow, hholds, -⟩ := ofBlocks_eq_ok bs maxLeaves
    refine ⟨t, hgrow, hholds.leafBlocks_eq, ?_, ?_, ?_⟩
    · rw [hholds.levelHashes_eq]
      split
      · next hnil => rw [Batch.levelHashes, if_pos hnil]
      · next hne => exact Batch.levelHashes_of_ne_nil hne
    · split
      · next hnil => rw [hholds.levelHashes_eq, Batch.levelHashes, if_pos hnil]; rfl
      · next hne => exact hholds.getLast?_levelHashes hne
    · rintro rfl
      rw [hholds.rootHash_eq, Batch.root_nil]

end Tree

end SealedLog
