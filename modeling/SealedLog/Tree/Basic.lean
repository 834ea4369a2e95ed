import SealedLog.Tree.Arena

/-!
# The growing tree

A binary hash tree that is extended by one block at a time. The tree keeps its nodes
in levels, the leaves first: the parent of the node at place `i` of a level stands at
place `i / 2` of the level above. When a level has an odd number of nodes its last
node hangs under a parent without a right child. Such a parent is provisional: as soon
as the sibling arrives, `raise` puts a new parent over both in its place and removes
the old one from the arena, and the same goes for the parents above it. The top level
holds exactly one node, the root.

A block goes into the last leaf while that has room, and then only the hashes along
the right edge change (`refreshEdge`); otherwise it opens a new leaf.

The views `leafBlocks`, `levelHashes` and `rootHash` say what a tree holds without
naming nodes. The largest number of leaves matters to no view: it only decides when
the tree calls itself full.
-/

namespace SealedLog

/-- A tree under construction, with the number of leaves at which it counts as full. -/
structure Tree where
  arena : Arena
  levels : List (Array NodeId)
  root? : Option NodeId
  maxLeaves : Nat
deriving DecidableEq, Repr

namespace Tree

/-- The number of leaves of a tree for which no other limit was asked for. -/
def defaultMaxLeaves : Nat := 4096

/-- The empty tree that is full at `maxLeaves` full leaves, and at one if asked for
none. -/
def withCapacity (maxLeaves : Nat) : Tree :=
  ⟨.empty, [], none, max maxLeaves 1⟩

def leaves (t : Tree) : Array NodeId :=
  t.levels.headD #[]

def leafCount (t : Tree) : Nat :=
  t.leaves.size

def isEmpty (t : Tree) : Bool :=
  t.leafCount == 0

/-- The node at place `index` of level `level`. -/
def slot? (t : Tree) (level index : Nat) : Option NodeId :=
  (t.levels[level]?).bind (·[index]?)

def rootNode? (t : Tree) : Option Node :=
  t.root?.bind t.arena.get?

/-- The recorded hash of the root, or of the empty text if there is no root. -/
def rootHash (t : Tree) : Hash :=
  match t.rootNode? with
  | some n => n.hash
  | none => Digest.emptyRoot

def rootLevel? (t : Tree) : Option Nat :=
  t.rootNode?.map Node.level

/-- The blocks of every leaf, in order. -/
def leafBlocks (t : Tree) : List (List String) :=
  t.leaves.toList.filterMap fun id => (t.arena.get? id).map Node.blocks

def blocks (t : Tree) : List String :=
  t.leafBlocks.flatten

def blockCount (t : Tree) : Nat :=
  t.leafBlocks.foldl (fun n blocks => n + blocks.length) 0

/-- The recorded hashes of every level, the leaves first. -/
def levelHashes (t : Tree) : List (List Hash) :=
  t.levels.map fun level =>
    level.toList.filterMap fun id => (t.arena.get? id).map Node.hash

def lastLeaf? (t : Tree) : Option NodeId :=
  t.leaves.back?

def isNodeFull (t : Tree) (id : NodeId) : Bool :=
  (t.arena.get? id).any Node.isFull

/-- Whether the last leaf has no room. An empty tree has no leaf with room and counts
as full here. -/
def isLeafFull (t : Tree) : Bool :=
  match t.lastLeaf? with
  | some id => t.isNodeFull id
  | none => true

/-- Whether the tree has all the leaves it may have, and the last one is full. -/
def isFull (t : Tree) : Bool :=
  decide (t.maxLeaves ≤ t.leafCount) && t.isLeafFull

/-- The children of the parent that a node gets when it is put at the end of a level:
itself alone at an even place, its left neighbour and itself at an odd one. -/
def pairUp (level : Array NodeId) (node : NodeId) : NodeId × Option NodeId :=
  match level.back? with
  | some last => if level.size % 2 = 1 then (last, some node) else (node, none)
  | none => (node, none)

/-- Frees the place `place` at the end of a level: if a node stands there it is taken
off the level and removed from the arena. -/
def vacate (arena : Arena) (place : Nat) (level : Array NodeId) : Arena × Array NodeId :=
  if place < level.size then
    match level.back? with
    | some stale => (arena.erase stale, level.pop)
    | none => (arena, level)
  else (arena, level)

/-- Puts `node` at place `place` of the lowest of `levels`, in place of a provisional
node there, and parents over it up to a level that it is alone on. Gives back the
arena, the levels and the root. -/
def raise : Arena → List (Array NodeId) → Nat → NodeId →
    Except StructuralError (Arena × List (Array NodeId) × NodeId)
  | arena, [], _, node => .ok (arena, [#[node]], node)
  | arena, level :: above, place, node =>
    let (arena, level) := vacate arena place level
    if level.isEmpty && above.isEmpty then .ok (arena, [#[node]], node)
    else do
      let (left, right) := pairUp level node
      let (arena, parent) ← arena.newBranch left right
      let (arena, above, root) ← raise arena above (level.size / 2) parent
      return (arena, level.push node :: above, root)

/-- Hashes the last node of each of `levels` anew, the lowest first. -/
def refreshEdge : Arena → List (Array NodeId) → Except StructuralError Arena
  | arena, [] => .ok arena
  | arena, level :: above =>
    match level.back? with
    | some id => do
      let arena ← arena.refresh id
      refreshEdge arena above
    | none => refreshEdge arena above

/-- Opens a new last leaf that holds one block. -/
def openLeaf (t : Tree) (data : String) : Except StructuralError Tree :=
  match t with
  | ⟨arena, levels, _, maxLeaves⟩ => do
    let (arena, leaf) ← arena.newLeaf [data]
    let (arena, levels, root) ← raise arena levels (levels.headD #[]).size leaf
    return ⟨arena, levels, some root, maxLeaves⟩

/-- Puts a block at the end of the leaf `leaf`, which is to be the last one. -/
def extendLeaf (t : Tree) (leaf : NodeId) (data : String) : Except StructuralError Tree :=
  match t with
  | ⟨arena, levels, root?, maxLeaves⟩ => do
    let arena ← arena.appendToLeaf leaf data
    let arena ← refreshEdge arena levels.tail
    return ⟨arena, levels, root?, maxLeaves⟩

def append (t : Tree) (data : String) : Except StructuralError Tree :=
  match t.lastLeaf? with
  | some leaf => if t.isNodeFull leaf then t.openLeaf data else t.extendLeaf leaf data
  | none => t.openLeaf data

/-- The place of the last leaf, which after `append` is where the new block went. -/
def lastLeafIndex (t : Tree) : Nat :=
  t.leafCount - 1

def appendAll (t : Tree) (blocks : List String) : Except StructuralError Tree :=
  blocks.foldlM append t

def ofBlocks (blocks : List String) (maxLeaves : Nat) : Except StructuralError Tree :=
  (withCapacity maxLeaves).appendAll blocks

/-- The first leaf that holds a block equal to `data`, with its place. -/
def findLeaf? (t : Tree) (data : String) : Option (Nat × NodeId × Node) :=
  t.leaves.toList.zipIdx.findSome? fun (id, i) =>
    ((t.arena.get? id).filter (·.contains data)).map fun node => (i, id, node)

/-- Overwrites the first block equal to `old` and leaves every hash as it was, as an
intruder with access to the memory would. Says whether there was such a block. -/
def tamper (t : Tree) (old new : String) : Tree × Bool :=
  match t.findLeaf? old with
  | none => (t, false)
  | some (_, id, node) =>
    let forged := node.blocks.set (node.blocks.idxOf old) new
    ({ t with arena := t.arena.set id { node with shape := .leaf forged } }, true)

/-- The top level holds exactly the root, or there is neither. -/
def topIsRoot (t : Tree) : Bool :=
  match t.levels.getLast?, t.root? with
  | none, none => true
  | some top, some root => top == #[root]
  | _, _ => false

def checkStructure (t : Tree) : Except StructuralError Unit :=
  if t.topIsRoot then .ok () else .error .topIsNotRoot

end Tree

end SealedLog
