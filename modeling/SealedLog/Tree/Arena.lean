import SealedLog.Digest.Basic

/-!
# Nodes and the arena that holds them

A tree refers to its nodes by identifier. The arena hands out identifiers in order and
never hands one out twice: it is an array of slots, a new node goes into a new last
slot, and a removed node leaves an empty slot behind. So an identifier kept from
earlier either still names the node it named then or names nothing at all, and which
of the two is the content of the array at that place.

A node is a leaf, which holds up to four blocks, or a branch over one or two children.
No parent is stored; `SealedLog.Tree.Inclusion` searches for it.
-/

namespace SealedLog

/-- The name of a node within one arena. -/
structure NodeId where
  index : Nat
deriving DecidableEq, Repr

namespace NodeId

/-- The form in which messages show an identifier. -/
def text (id : NodeId) : String :=
  "NodeId(" ++ toString id.index ++ ")"

end NodeId

/-- The number of blocks a leaf has room for. -/
def leafCapacity : Nat := 4

/-- What a node stands over. A branch keeps the height of its children plus one. -/
inductive NodeShape where
  | leaf (blocks : List String)
  | branch (left : NodeId) (right : Option NodeId) (level : Nat)
deriving DecidableEq, Repr

/-- A node and the hash recorded for it. The hash is the one that was computed when the
node was last written, which need not fit its blocks once these were tampered with. -/
structure Node where
  hash : Hash
  shape : NodeShape
deriving DecidableEq, Repr

namespace Node

def blocks (n : Node) : List String :=
  match n.shape with
  | .leaf blocks => blocks
  | .branch .. => []

def left? (n : Node) : Option NodeId :=
  match n.shape with
  | .leaf _ => none
  | .branch left _ _ => some left

/-- The right child of a branch, if it has one. -/
def right? (n : Node) : Option NodeId :=
  match n.shape with
  | .leaf _ => none
  | .branch _ right _ => right

def level (n : Node) : Nat :=
  match n.shape with
  | .leaf _ => 0
  | .branch _ _ level => level

def isLeaf (n : Node) : Bool :=
  match n.shape with
  | .leaf _ => true
  | .branch .. => false

/-- A leaf is full once it holds `leafCapacity` blocks; a branch never is. -/
def isFull (n : Node) : Bool :=
  n.isLeaf && leafCapacity ≤ n.blocks.length

def contains (n : Node) (data : String) : Bool :=
  n.blocks.contains data

/-- The leaf that holds `blocks`, with their hash. -/
def ofBlocks (blocks : List String) : Node :=
  ⟨Digest.ofBlocks blocks, .leaf blocks⟩

def children (n : Node) : List NodeId :=
  n.left?.toList ++ n.right?.toList

end Node

/-- What can be wrong with a request to build or change nodes. -/
inductive StructuralError where
  | emptyLeaf
  | oversizedLeaf (blocks : Nat)
  | unknownNode (id : NodeId)
  | unknownLeftChild (id : NodeId)
  | unknownRightChild (id : NodeId)
  | appendToBranch
  | appendToFullLeaf
  | topIsNotRoot
deriving DecidableEq, Repr

namespace StructuralError

def message : StructuralError → String
  | emptyLeaf => "leaf without data blocks"
  | oversizedLeaf n =>
    "leaf with " ++ toString n ++ " blocks exceeds capacity " ++ toString leafCapacity
  | unknownNode id => "unknown node " ++ id.text
  | unknownLeftChild id => "unknown left child " ++ id.text
  | unknownRightChild id => "unknown right child " ++ id.text
  | appendToBranch => "append to internal node"
  | appendToFullLeaf => "append to full leaf"
  | topIsNotRoot => "top level does not hold exactly the root"

end StructuralError

/-- Every node of one tree, by identifier. The slot of a removed node is `none`. -/
structure Arena where
  slots : Array (Option Node)
deriving DecidableEq, Repr

namespace Arena

def empty : Arena := ⟨#[]⟩

/-- The node of that name, if it was made and has not been removed. -/
def get? (arena : Arena) (id : NodeId) : Option Node :=
  arena.slots[id.index]?.join

def size (arena : Arena) : Nat :=
  arena.slots.countP Option.isSome

/-- Adds a node under a name never used before. -/
def insert (arena : Arena) (node : Node) : Arena × NodeId :=
  let id := ⟨arena.slots.size⟩
  (⟨arena.slots.push (some node)⟩, id)

def set (arena : Arena) (id : NodeId) (node : Node) : Arena :=
  ⟨arena.slots.setIfInBounds id.index (some node)⟩

/-- Empties the slot of a node. Its name is not used again. -/
def erase (arena : Arena) (id : NodeId) : Arena :=
  ⟨arena.slots.setIfInBounds id.index none⟩

/-- Adds a leaf that holds `blocks`. -/
def newLeaf (arena : Arena) (blocks : List String) :
    Except StructuralError (Arena × NodeId) :=
  if blocks.isEmpty then .error .emptyLeaf
  else if leafCapacity < blocks.length then .error (.oversizedLeaf blocks.length)
  else .ok (arena.insert (.ofBlocks blocks))

/-- The hash and the level of a branch over the given children. -/
def combine (arena : Arena) (left : NodeId) (right : Option NodeId) :
    Except StructuralError (Hash × Nat) :=
  match arena.get? left with
  | none => .error (.unknownLeftChild left)
  | some l =>
    match right with
    | none => .ok (Digest.ofChildren l.hash none, l.level + 1)
    | some id =>
      match arena.get? id with
      | none => .error (.unknownRightChild id)
      | some r => .ok (Digest.ofChildren l.hash (some r.hash), max l.level r.level + 1)

/-- Adds a branch over `left` and, if given, `right`. -/
def newBranch (arena : Arena) (left : NodeId) (right : Option NodeId) :
    Except StructuralError (Arena × NodeId) := do
  let (hash, level) ← arena.combine left right
  return arena.insert ⟨hash, .branch left right level⟩

/-- Puts one more block at the end of a leaf and hashes the leaf anew. -/
def appendToLeaf (arena : Arena) (id : NodeId) (data : String) :
    Except StructuralError Arena :=
  match arena.get? id with
  | none => .error (.unknownNode id)
  | some node =>
    if !node.isLeaf then .error .appendToBranch
    else if node.isFull then .error .appendToFullLeaf
    else .ok (arena.set id (.ofBlocks (node.blocks ++ [data])))

/-- Hashes a branch anew from the hashes its children have now. A leaf stays as it is. -/
def refresh (arena : Arena) (id : NodeId) : Except StructuralError Arena :=
  match arena.get? id with
  | none => .error (.unknownNode id)
  | some node =>
    match node.shape with
    | .leaf _ => .ok arena
    | .branch left right _ => do
      let (hash, _) ← arena.combine left right
      return arena.set id { node with hash }

end Arena

end SealedLog
