import SealedLog.Store.Basic
import SealedLog.Tree.Inclusion

/-!
# The log

A log is a chain of trees of which only the last one grows. Once that is full it is
sealed: its root is noted in the history and becomes the first block of the next tree.
Sealing waits for the next event, so a full tree may stay the current one for any time.

The log does not contain its store. Every operation that may write takes the store and
gives it back, together with the log as it is afterwards and the outcome. What the log
remembers of the store is the root under which the snapshot of the current tree was
last written, and whether a write of it has failed since.
-/

namespace SealedLog

structure LogConfig where
  /-- The number of leaves at which a tree is full; zero counts as one. -/
  maxLeavesPerTree : Nat
deriving DecidableEq, Repr

namespace LogConfig

def default : LogConfig := ⟨Tree.defaultMaxLeaves⟩

end LogConfig

/-- What the caller learns about an event that the log took. -/
structure Receipt where
  /-- The root of the current tree with the event in it. -/
  rootHash : Hash
  treeIndex : Nat
  leafIndex : Nat
  /-- The tree that was sealed to make room for the event, if one was. -/
  sealedTree? : Option SealedTree
deriving DecidableEq, Repr

structure Checkpoint where
  rootHash : Hash
  treeIndex : Nat
  leafCount : Nat
  blockCount : Nat
  sealedTrees : Nat
deriving DecidableEq, Repr

inductive LogError where
  | structural (detail : String)
  /-- A write to the store failed, or loading from it. If `recorded`, the event is in the
  current tree all the same and must not be sent again; the receipt says where. -/
  | persistence (recorded : Bool) (receipt? : Option Receipt) (source : StoreError)
  | recoveryInconsistency (treeIndex : Nat) (detail : String)
  | serialization (detail : String)
deriving DecidableEq, Repr

namespace LogError

def message : LogError → String
  | structural detail => "Structural error: " ++ detail
  | persistence recorded _ source =>
    "Persistence error (event recorded: " ++ (if recorded then "true" else "false") ++ "): " ++
      source.message
  | recoveryInconsistency treeIndex detail =>
    "Recovery inconsistency in tree " ++ toString treeIndex ++ ": " ++ detail
  | serialization detail => "Serialization error: " ++ detail

def ofStructural (e : StructuralError) : LogError :=
  structural e.message

/-- A failed write without which the event could not be taken. -/
def notRecorded (source : StoreError) : LogError :=
  persistence false none source

end LogError

/-- The final roots of the sealed trees, the oldest first. -/
structure History where
  sealedTrees : List SealedTree
deriving DecidableEq, Repr

namespace History

def empty : History := ⟨[]⟩

def record (h : History) (t : SealedTree) : History :=
  ⟨h.sealedTrees ++ [t]⟩

/-- The newest entry, if there is one, and the history without it. -/
def pop (h : History) : Option SealedTree × History :=
  (h.sealedTrees.getLast?, ⟨h.sealedTrees.dropLast⟩)

def size (h : History) : Nat :=
  h.sealedTrees.length

/-- The root of the oldest entry for a tree index. -/
def rootOf? (h : History) (treeIndex : Nat) : Option Hash :=
  (h.sealedTrees.find? (·.treeIndex == treeIndex)).map SealedTree.rootHash

end History

structure Log where
  config : LogConfig
  tree : Tree
  treeIndex : Nat
  history : History
  /-- The root under which the current tree was last written, if it was. -/
  persistedRoot? : Option Hash
  /-- Whether the last write of the current tree failed. -/
  pendingWrite : Bool
deriving DecidableEq, Repr

namespace Log

/-- A log without events, of which nothing has been written. -/
def blank (config : LogConfig) : Log where
  config
  tree := .withCapacity config.maxLeavesPerTree
  treeIndex := 0
  history := .empty
  persistedRoot? := none
  pendingWrite := false

def rootHash (log : Log) : Hash :=
  log.tree.rootHash

def snapshot (log : Log) (now : Nat) : Snapshot :=
  .ofTree log.tree log.treeIndex now

def checkpoint (log : Log) : Checkpoint where
  rootHash := log.tree.rootHash
  treeIndex := log.treeIndex
  leafCount := log.tree.leafCount
  blockCount := log.tree.blockCount
  sealedTrees := log.history.size

/-- Checks the inclusion of an event in the current tree. Sealed trees are not asked. -/
def check (log : Log) (data : String) : Inclusion :=
  log.tree.check data

/-- Overwrites a block of the current tree and leaves its hashes as they were. -/
def tamper (log : Log) (old new : String) : Log × Bool :=
  let (tree, done) := log.tree.tamper old new
  ({ log with tree }, done)

/-- Starts the next tree with the root of the current one as its first block and notes
the current one as sealed. Nothing is written. -/
def sealTree (log : Log) : Except StructuralError (Log × SealedTree) := do
  let sealedTree : SealedTree := ⟨log.treeIndex, log.tree.rootHash⟩
  let tree ← (Tree.withCapacity log.config.maxLeavesPerTree).append sealedTree.rootHash
  let next : Log :=
    { log with
      tree
      treeIndex := log.treeIndex + 1
      history := log.history.record sealedTree
      persistedRoot? := none }
  return (next, sealedTree)

/-- Puts back a sealed tree, with the root under which it was last written, and gives up the
one after it. No write of it is pending: a tree is only sealed once it has been written. -/
def undoSeal (log : Log) (sealedTree : Tree) (persistedRoot? : Option Hash) : Log :=
  { log with
    tree := sealedTree
    treeIndex := log.treeIndex - 1
    history := log.history.pop.2
    persistedRoot?
    pendingWrite := false }

end Log

end SealedLog
