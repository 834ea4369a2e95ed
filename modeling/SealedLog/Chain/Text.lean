import SealedLog.Chain.Audit
import SealedLog.Json.Printer
import SealedLog.Json.Union

/-!
# The text of audit reports

A fault is one object: the index of its tree, the kind of fault, and what that kind
needs to be understood.
-/

namespace SealedLog

namespace FaultKind

def union : Json.Union FaultKind where
  tag := "kind"
  title := "internally tagged enum FaultKind"
  variants := [
    .ofFields "root_mismatch" "FaultKind::RootMismatch"
      (.cons (Json.field "expected" Json.Inspector.text)
        (.cons (Json.field "actual" Json.Inspector.text) .nil))
      fun (recorded, rebuilt, ()) => rootMismatch recorded rebuilt,
    .ofFields "level_mismatch" "FaultKind::LevelMismatch"
      (.cons (Json.field "level" Json.Inspector.count) .nil)
      fun (level, ()) => levelMismatch level,
    .unit "broken_link" brokenLink,
    .unit "missing_tree" missingTree,
    .unit "duplicate_tree" duplicateTree]

/-- The members that tell the kind of a fault. -/
def members : FaultKind → List (String × Json)
  | rootMismatch recorded rebuilt =>
    [("kind", .str "root_mismatch"), ("expected", .str recorded), ("actual", .str rebuilt)]
  | levelMismatch level => [("kind", .str "level_mismatch"), ("level", .nat level)]
  | brokenLink => [("kind", .str "broken_link")]
  | missingTree => [("kind", .str "missing_tree")]
  | duplicateTree => [("kind", .str "duplicate_tree")]

def toJson (k : FaultKind) : Json :=
  .obj k.members

end FaultKind

namespace ChainFault

/-- Takes the members of a fault up to the brace, in at most `budget` turns: the index,
if it has come, and the members that tell the kind, the last one first. -/
def takeMembers : (budget : Nat) → (first : Bool) → Option Nat → List (String × Json) →
    Json.Decoder (Option Nat × List (String × Json))
  | 0, _, _, _ => Json.Reader.failNext .endInObject
  | budget + 1, first, index?, done => do
    if ← Json.Reader.hasMember first then
      let name ← Json.Reader.quotedText
      if name = "tree_index" then
        match index? with
        | some _ => Json.Reader.failUnplaced (.duplicateField name)
        | none =>
          Json.Reader.colon
          let index ← Json.Reader.word64
          takeMembers budget false (some index) done
      else
        Json.Reader.colon
        let j ← Json.Reader.value
        takeMembers budget false index? ((name, j) :: done)
    else return (index?, done)

/-- Takes a fault from the members of an object up to its brace. -/
def takeObject : Json.Decoder ChainFault := do
  match ← takeMembers (← read).budget true none [] with
  | (none, _) => Json.Reader.failUnplaced (.missingField "tree_index")
  | (some index, done) =>
    let kind ← Json.Reader.ofExcept (FaultKind.union.ofMembers done.reverse)
    return ⟨index, kind⟩

def decoder : Json.Decoder ChainFault := do
  match ← Json.Reader.peekPastSpace? with
  | some b =>
    if b = Json.Reader.ascii '\x7b' then
      Json.Reader.nested fun scope => do
        Json.Reader.skip
        (takeObject scope).closedBy Json.Reader.endObject
    else Json.Reader.mismatch "struct ChainFault"
  | none => Json.Reader.mismatch "struct ChainFault"

def toJson (f : ChainFault) : Json :=
  .obj (("tree_index", .nat f.treeIndex) :: f.kind.members)

end ChainFault

namespace ChainReport

def fields : Json.Fields Json.Decoder (Nat × List ChainFault × Unit) :=
  .cons (Json.field "trees_checked" Json.Reader.count) <|
  .cons (Json.field "faults" (Json.Reader.list ChainFault.decoder)) .nil

def decoder : Json.Decoder ChainReport :=
  Json.Reader.record "ChainReport" fields fun (treesChecked, faults, ()) => ⟨treesChecked, faults⟩

def toJson (r : ChainReport) : Json :=
  .obj [
    ("trees_checked", .nat r.treesChecked),
    ("faults", .arr (r.faults.map ChainFault.toJson))]

end ChainReport

end SealedLog
