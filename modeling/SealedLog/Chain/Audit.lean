import SealedLog.Snapshot.Basic

/-!
# Audit of a chain of snapshots

Given the stored snapshots of all trees, `audit` rebuilds every tree from its blocks
and lists what does not fit: a recorded root or level that the rebuilt tree does not
have, a tree that does not start with the root of the tree before it, an index without
a snapshot, an index with more than one.

The snapshots are taken in the order of their indices, and where several have the same
index the first of the list stands for the tree; the others are reported as duplicates
and looked at no further. `faultsFrom` says what is reported about a list in that order
after the snapshot that stands before it; `faultsOf` about one snapshot.
-/

namespace SealedLog

/-- What can be wrong with a tree of a chain. -/
inductive FaultKind where
  /-- The blocks hash to another root than the recorded one. -/
  | rootMismatch (recorded rebuilt : Hash)
  /-- The lowest level whose recorded hashes are not those of the rebuilt tree. -/
  | levelMismatch (level : Nat)
  /-- The first block is not the root of the tree before. -/
  | brokenLink
  | missingTree
  | duplicateTree
deriving DecidableEq, Repr

structure ChainFault where
  treeIndex : Nat
  kind : FaultKind
deriving DecidableEq, Repr

structure ChainReport where
  /-- The number of trees that were rebuilt. -/
  treesChecked : Nat
  faults : List ChainFault
deriving DecidableEq, Repr

namespace ChainReport

def isIntact (r : ChainReport) : Bool :=
  r.faults.isEmpty

end ChainReport

namespace Chain

/-- The lowest level at which two lists of levels differ; a level that only one of them
has is a difference. -/
def firstDifference? (xs ys : List (List Hash)) : Option Nat :=
  (List.range (max xs.length ys.length)).find? fun l => xs[l]? != ys[l]?

/-- What is wrong with a snapshot taken by itself. -/
def contentFaults (s : Snapshot) : List FaultKind :=
  match Tree.ofBlocks s.blocks Tree.defaultMaxLeaves with
  | .error _ => [.levelMismatch 0]
  | .ok rebuilt =>
    (if rebuilt.rootHash = s.rootHash then []
      else [.rootMismatch s.rootHash rebuilt.rootHash]) ++
    ((firstDifference? rebuilt.levelHashes s.levelHashes).map .levelMismatch).toList

/-- One fault for every index from `first` up to but not including `next`. -/
def missingTrees (first next : Nat) : List ChainFault :=
  (List.range' first (next - first)).map (⟨·, .missingTree⟩)

/-- What is wrong between a snapshot and the one before it, if there is one: the indices
that are left out, and the link where none is. -/
def linkFaults (previous? : Option Snapshot) (s : Snapshot) : List ChainFault :=
  match previous? with
  | none => missingTrees 0 s.treeIndex
  | some previous =>
    missingTrees (previous.treeIndex + 1) s.treeIndex ++
    (if s.treeIndex = previous.treeIndex + 1 ∧ s.firstBlock? ≠ some previous.rootHash then
      [⟨s.treeIndex, .brokenLink⟩] else [])

/-- What is reported about a snapshot that stands for its tree. -/
def faultsOf (previous? : Option Snapshot) (s : Snapshot) : List ChainFault :=
  linkFaults previous? s ++ (contentFaults s).map (⟨s.treeIndex, ·⟩)

/-- Whether a snapshot repeats the index of the one before it. -/
def repeats (previous? : Option Snapshot) (s : Snapshot) : Bool :=
  previous?.any (·.treeIndex == s.treeIndex)

/-- The report on snapshots in the order of their indices, after `previous?`. -/
def auditFrom : Option Snapshot → List Snapshot → ChainReport
  | _, [] => ⟨0, []⟩
  | previous?, s :: rest =>
    if repeats previous? s then
      let r := auditFrom previous? rest
      { r with faults := ⟨s.treeIndex, .duplicateTree⟩ :: r.faults }
    else
      let r := auditFrom (some s) rest
      ⟨r.treesChecked + 1, faultsOf previous? s ++ r.faults⟩

/-- Snapshots in the order of their indices, those of one index as they came. -/
def byIndex (snapshots : List Snapshot) : List Snapshot :=
  snapshots.mergeSort (fun a b => decide (a.treeIndex ≤ b.treeIndex))

/-- Rebuilds every tree and lists what does not fit. -/
def audit (snapshots : List Snapshot) : ChainReport :=
  auditFrom none (byIndex snapshots)

end Chain

end SealedLog
