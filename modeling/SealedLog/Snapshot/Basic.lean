import SealedLog.Tree.Basic

/-!
# Snapshots of a tree

A snapshot is the full state of one tree as it is written to a store: its blocks leaf
by leaf, the hashes of every level, and the root, which is the key it is stored under.
It says nothing about where the tree keeps its nodes, so two trees of the same blocks
have the same snapshot up to the time of writing.

A snapshot read from a store is a claim, not a fact: its hashes need not fit its
blocks. `SealedLog.Chain.Audit` checks them.
-/

namespace SealedLog

structure Snapshot where
  rootHash : Hash
  treeIndex : Nat
  leafBlocks : List (List String)
  levelHashes : List (List Hash)
  /-- Seconds since 1970 at the time of writing. -/
  updatedAt : Nat
deriving DecidableEq, Repr

namespace Snapshot

def ofTree (t : Tree) (treeIndex updatedAt : Nat) : Snapshot where
  rootHash := t.rootHash
  treeIndex
  leafBlocks := t.leafBlocks
  levelHashes := t.levelHashes
  updatedAt

/-- The first block of the first leaf. In every tree of a chain but the first it is the
root of the tree before it. -/
def firstBlock? (s : Snapshot) : Option String :=
  s.leafBlocks.head?.bind List.head?

def blocks (s : Snapshot) : List String :=
  s.leafBlocks.flatten

end Snapshot

/-- The index and the final root of a tree that takes no more events. -/
structure SealedTree where
  treeIndex : Nat
  rootHash : Hash
deriving DecidableEq, Repr

end SealedLog
