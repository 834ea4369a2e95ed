import SealedLog.Snapshot.Basic

/-!
# Stores of snapshots

A store keeps snapshots under their root hashes. It is changed by one operation only:
`replace` removes the snapshot of an old root, if there is one, and puts a new snapshot
under its own root. Both this and loading can fail, and a failure is an answer like any
other: `replace` gives back the store as it is afterwards in either case.

The contents of a store are a list without two snapshots of one root, in the order of
tree indices and, within an index, of roots. That is also the order in which a store
lists them.
-/

namespace SealedLog

/-- What the file system reports when it refuses an operation. -/
inductive IoFault where
  | notFound
  | busy
  | notADirectory
  | isADirectory
deriving DecidableEq, Repr

namespace IoFault

def message : IoFault → String
  | notFound => "No such file or directory (os error 2)"
  | busy => "Device or resource busy (os error 16)"
  | notADirectory => "Not a directory (os error 20)"
  | isADirectory => "Is a directory (os error 21)"

end IoFault

inductive StoreError where
  | io (fault : IoFault)
  | serialization (detail : String)
  | unavailable (reason : String)
deriving DecidableEq, Repr

namespace StoreError

def message : StoreError → String
  | io fault => "I/O error: " ++ fault.message
  | serialization detail => "Serialization error: " ++ detail
  | unavailable reason => "Store unavailable: " ++ reason

end StoreError

/-- The operations of a store whose states are the values of `σ`. -/
class SnapshotStore (σ : Type) where
  /-- Removes the snapshot of an old root, if given and present, and puts a snapshot
  under its own root. -/
  replace : σ → Option Hash → Snapshot → Except StoreError Unit × σ
  /-- Every snapshot of the store. -/
  load : σ → Except StoreError (List Snapshot)

namespace Snapshot

/-- The order in which a store lists its snapshots. -/
def precedes (a b : Snapshot) : Bool :=
  a.treeIndex < b.treeIndex || (a.treeIndex == b.treeIndex && decide (a.rootHash < b.rootHash))

/-- Puts a snapshot at its place in an ordered list. -/
def insertInOrder (s : Snapshot) : List Snapshot → List Snapshot
  | [] => [s]
  | t :: rest => if s.precedes t then s :: t :: rest else t :: insertInOrder s rest

end Snapshot

/-- Snapshots by root hash, in memory: a store that never fails. -/
structure Shelf where
  snapshots : List Snapshot
deriving DecidableEq, Repr

namespace Shelf

def empty : Shelf := ⟨[]⟩

def size (shelf : Shelf) : Nat :=
  shelf.snapshots.length

def get? (shelf : Shelf) (root : Hash) : Option Snapshot :=
  shelf.snapshots.find? (·.rootHash == root)

/-- Removes the snapshot under a root, if there is one. -/
def erase (shelf : Shelf) (root : Hash) : Shelf :=
  ⟨shelf.snapshots.filter (·.rootHash != root)⟩

/-- Puts a snapshot under its root, in place of one that is there. -/
def insert (shelf : Shelf) (s : Snapshot) : Shelf :=
  ⟨s.insertInOrder (shelf.erase s.rootHash).snapshots⟩

/-- Removes the snapshot under `old?` and puts in `s`. -/
def replace (shelf : Shelf) (old? : Option Hash) (s : Snapshot) : Shelf :=
  (old?.elim shelf shelf.erase).insert s

/-- The shelf that holds `snapshots`, of which a later one takes the place of an earlier
one under the same root. -/
def ofList (snapshots : List Snapshot) : Shelf :=
  snapshots.foldl insert empty

instance : SnapshotStore Shelf where
  replace shelf old? s := (.ok (), shelf.replace old? s)
  load shelf := .ok shelf.snapshots

end Shelf

end SealedLog
