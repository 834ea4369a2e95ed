import SealedLog.Tree.Basic

/-!
# Inclusion checks

Whether a tree holds a block, and whether the hashes on the way from the block's leaf
to the root still fit together. `check` hashes the leaf anew and climbs to the root,
at each step combining the hash so far with the recorded hash of the sibling and
comparing the result with the recorded hash of the parent. The first disagreement is
reported with its level.

Parents are not stored. `searchParent` looks for one below the root with an explicit
list of branches still to be visited. It is given a number of visits, and a search
that would need more says so (`outOfVisits`) rather than that there is no parent:
`parentOf?` grants as many visits as the arena has slots, which is enough for a tree,
where no branch is met twice.
-/

namespace SealedLog

/-- The outcome of an inclusion check. -/
inductive Inclusion where
  /-- The path from the leaf to the root hashes as recorded. -/
  | verified (leafIndex pathLen : Nat)
  /-- No leaf holds the block. -/
  | notFound
  /-- The lowest level at which the hash computed anew is not the recorded one. -/
  | mismatch (level : Nat)
deriving DecidableEq, Repr

namespace Inclusion

def isVerified : Inclusion → Bool
  | verified .. => true
  | _ => false

end Inclusion

namespace Tree

/-- What a bounded search for a parent came to. -/
inductive ParentSearch where
  | found (parent : NodeId)
  | absent
  | outOfVisits
deriving DecidableEq, Repr

/-- Looks for the branch that has `target` as a child among the branches in `pending`
and those below them, making at most the given number of visits. A name in `pending`
that the arena does not know ends the search. -/
def searchParent (arena : Arena) (target : NodeId) : Nat → List NodeId → ParentSearch
  | _, [] => .absent
  | 0, _ :: _ => .outOfVisits
  | visits + 1, id :: pending =>
    match arena.get? id with
    | none => .absent
    | some node =>
      if node.children.contains target then .found id
      else
        let inner := node.children.filter fun child =>
          (arena.get? child).any fun n => !n.isLeaf
        searchParent arena target visits (inner.reverse ++ pending)

/-- The parent of a node of the tree; none for the root and for a name outside it. -/
def parentOf? (t : Tree) (target : NodeId) : Option NodeId :=
  match searchParent t.arena target t.arena.slots.size t.root?.toList with
  | .found parent => some parent
  | _ => none

/-- The hash that `parent` should have if its child `child` has the hash `hash`. -/
def hashThrough (arena : Arena) (parent : Node) (child : NodeId) (hash : Hash) : Hash :=
  if parent.left? = some child then
    Digest.ofChildren hash (parent.right?.bind arena.get? |>.map Node.hash)
  else
    Digest.ofChildren ((parent.left?.bind arena.get? |>.map Node.hash).getD "") (some hash)

/-- Climbs from `current`, whose hash came out as `hash`, over at most `steps` parents
to the root. -/
def climb (t : Tree) (root : NodeId) (leafIndex : Nat) :
    (steps pathLen : Nat) → (current : NodeId) → (hash : Hash) → Inclusion
  | steps, pathLen, current, hash =>
    if current = root then .verified leafIndex pathLen
    else
      match steps, t.parentOf? current with
      | steps + 1, some parentId =>
        match t.arena.get? parentId with
        | none => .mismatch (pathLen + 1)
        | some parent =>
          let combined := hashThrough t.arena parent current hash
          if combined = parent.hash then
            climb t root leafIndex steps (pathLen + 1) parentId combined
          else .mismatch parent.level
      | _, _ => .mismatch (((t.arena.get? current).map Node.level).getD 0)

def check (t : Tree) (data : String) : Inclusion :=
  match t.root?, t.findLeaf? data with
  | some root, some (index, id, leaf) =>
    let hash := Digest.ofBlocks leaf.blocks
    if hash = leaf.hash then climb t root index t.levels.length 0 id hash
    else .mismatch 0
  | _, _ => .notFound

/-- Whether the tree holds the block and its path to the root checks out. -/
def includes (t : Tree) (data : String) : Bool :=
  (t.check data).isVerified

end Tree

end SealedLog
