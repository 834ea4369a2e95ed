import SealedLog.Json.Record

/-!
# Reading tagged unions

A value of a tagged union is an object one member of which, the tag, names the
alternative, while the other members are the fields of that alternative. The tag may
stand anywhere, so the other members are taken as they are and looked at once the whole
object has been read: faults in them have no place of their own. An array is read too:
its first item is the tag.

`Union.ofMembers` reads an alternative from members that were taken earlier, for records
whose own fields stand in one object with those of a union.
-/

namespace SealedLog.Json

/-- Looks at a value that has been taken already. -/
abbrev Inspector := ReaderT Json (Except Cause)

namespace Inspector

def text : Inspector String
  | .str s => .ok s
  | j => .error (.invalidType (.ofJson j) "a string")

def word16 : Inspector Nat :=
  Reader.natOf UInt16.size "u16"

def count : Inspector Nat :=
  Reader.natOf UInt64.size "usize"

end Inspector

namespace Fields

/-- Puts members into a draft, skipping those of unknown names. -/
def collect {γ : Type} (fs : Fields Inspector γ) :
    List (String × Json) → fs.Draft → Except Cause fs.Draft
  | [], draft => .ok draft
  | (name, j) :: rest, draft =>
    match fs.offer name draft with
    | .unknown => fs.collect rest draft
    | .duplicate name => .error (.duplicateField name)
    | .read next => do fs.collect rest (← next j)

/-- The tuple in the members of an object. -/
def ofMembers {γ : Type} (fs : Fields Inspector γ) (members : List (String × Json)) :
    Except Cause γ := do
  fs.finish (← fs.collect members fs.blank)

/-- The tuple in the first items of an array, with the number of items left over;
`place` fields stand before these. -/
def ofItems (expected : String) : {γ : Type} → (place : Nat) → Fields Inspector γ →
    List Json → Except Cause (γ × Nat)
  | _, _, .nil, items => .ok ((), items.length)
  | _, place, .cons _ _, [] => .error (.invalidLength place expected)
  | _, place, .cons f rest, j :: items => do
    let a ← f.read j
    let (tuple, left) ← ofItems expected (place + 1) rest items
    return ((a, tuple), left)

end Fields

/-- An alternative of a union. -/
structure Variant (α : Type) where
  name : String
  ofMembers : List (String × Json) → Except Cause α
  ofItems : List Json → Except Cause α

namespace Variant

variable {α : Type}

/-- An alternative without fields. Other members are not looked at; other items may not be
there. -/
def unit (name : String) (a : α) : Variant α where
  name
  ofMembers _ := .ok a
  ofItems items :=
    if items.isEmpty then .ok a
    else .error (.invalidLength items.length "0 elements in sequence")

/-- An alternative with fields, which messages call `title`. -/
def ofFields {γ : Type} (name title : String) (fs : Fields Inspector γ) (make : γ → α) :
    Variant α where
  name
  ofMembers members := make <$> fs.ofMembers members
  ofItems items := do
    let expected := "struct variant " ++ title ++ " with " ++ fs.elements
    let (tuple, left) ← fs.ofItems expected 0 items
    if left = 0 then return make tuple
    else throw (.invalidLength items.length (fs.elements ++ " in sequence"))

end Variant

/-- A tagged union: the name of its tag, what messages call it, and its alternatives. -/
structure Union (α : Type) where
  tag : String
  title : String
  variants : List (Variant α)

namespace Union

variable {α : Type}

def variantOf (u : Union α) (name : String) : Except Cause (Variant α) :=
  match u.variants.find? (·.name == name) with
  | some v => .ok v
  | none => .error (.unknownVariant name (u.variants.map Variant.name))

def takeTag (u : Union α) : Decoder (Variant α) :=
  Reader.textAs "variant identifier" u.variantOf

/-- Takes the members of an object up to its brace, in at most `budget` turns: the tag,
if it has come, and the other members, the last one first. -/
def takeMembers (u : Union α) : (budget : Nat) → (first : Bool) →
    Option (Variant α) → List (String × Json) →
    Decoder (Option (Variant α) × List (String × Json))
  | 0, _, _, _ => Reader.failNext .endInObject
  | budget + 1, first, tag?, done => do
    if ← Reader.hasMember first then
      let name ← Reader.quotedText
      if name = u.tag then
        match tag? with
        | some _ => Reader.failUnplaced (.duplicateField u.tag)
        | none =>
          Reader.colon
          let v ← u.takeTag
          takeMembers u budget false (some v) done
      else
        Reader.colon
        let j ← Reader.value
        takeMembers u budget false tag? ((name, j) :: done)
    else return (tag?, done)

/-- Takes the tag and the other members of an object. -/
def takeObject (u : Union α) : Decoder (Variant α × List (String × Json)) := do
  match ← u.takeMembers (← read).budget true none [] with
  | (some v, done) => return (v, done.reverse)
  | (none, _) => Reader.failUnplaced (.missingField u.tag)

/-- Takes the tag and the other items of an array. -/
def takeList (u : Union α) : Decoder (Variant α × List Json) := do
  if ← Reader.hasItem true then
    let v ← u.takeTag
    let scope ← read
    let items ← Reader.itemsFrom (Reader.value scope) scope.budget false []
    return (v, items)
  else Reader.failUnplaced (.missingField u.tag)

def read (u : Union α) : Decoder α := do
  match ← Reader.peekPastSpace? with
  | some b =>
    if b = Reader.ascii '[' then
      Reader.nested fun scope => do
        Reader.skip
        let (v, items) ← (u.takeList scope).closedBy Reader.endList
        Reader.ofExcept (v.ofItems items)
    else if b = Reader.ascii '\x7b' then
      Reader.nested fun scope => do
        Reader.skip
        let (v, members) ← (u.takeObject scope).closedBy Reader.endObject
        Reader.ofExcept (v.ofMembers members)
    else Reader.mismatch u.title
  | none => Reader.mismatch u.title

/-- The alternative that a value which was taken already names: by its name, or by its
number. -/
def variantIn (u : Union α) : Json → Except Cause (Variant α)
  | .str name => u.variantOf name
  | .int i =>
    if i < 0 then .error (.invalidType (.int i) "variant identifier")
    else
      match u.variants[i.toNat]? with
      | some v => .ok v
      | none =>
        .error (.invalidValue (.int i)
          ("variant index 0 <= i < " ++ toString u.variants.length))
  | j => .error (.invalidType (.ofJson j) "variant identifier")

/-- The tag among members that were taken already, and the other members. -/
def splitTag (u : Union α) : Option (Variant α) → List (String × Json) →
    Except Cause (Option (Variant α) × List (String × Json))
  | tag?, [] => .ok (tag?, [])
  | tag?, (name, j) :: rest =>
    if name = u.tag then
      match tag? with
      | some _ => .error (.duplicateField u.tag)
      | none => do u.splitTag (some (← u.variantIn j)) rest
    else do
      let (tag?, others) ← u.splitTag tag? rest
      return (tag?, (name, j) :: others)

/-- The value of the union in members that were taken already. -/
def ofMembers (u : Union α) (members : List (String × Json)) : Except Cause α := do
  match ← u.splitTag none members with
  | (some v, others) => v.ofMembers others
  | (none, _) => throw (.missingField u.tag)

end Union

end SealedLog.Json
