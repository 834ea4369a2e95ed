import SealedLog.Json.Reader

/-!
# Reading records

A record is read from an object, by the names of its fields, or from an array, by their
order. From an object, members of other names are skipped, a repeated field is a fault,
and a field may be missing only if its description says what it then is. From an array
every field has to be there, unless its description allows otherwise, and nothing more.

`Fields R γ` describes the fields of a record once for both: `γ` is the tuple of their
values and `R` the way in which a single value is read. While the fields come in, in
any order, a `Draft` keeps those that are there.
-/

namespace SealedLog.Json

/-- A field whose value is read by `R`. -/
structure Field (R : Type → Type) (α : Type) where
  name : String
  read : R α
  /-- The value of the field in an object that does not have it, if it may be missing. -/
  absent? : Option α
  /-- Whether the field may also be missing from an array. -/
  mayEndBefore : Bool

def field {R : Type → Type} {α : Type} (name : String) (read : R α) : Field R α :=
  ⟨name, read, none, false⟩

/-- The fields of a record in their order; `γ` is the tuple of their values. -/
inductive Fields (R : Type → Type) : Type → Type 1 where
  | nil : Fields R Unit
  | cons {α β : Type} : Field R α → Fields R β → Fields R (α × β)

namespace Fields

variable {R : Type → Type} {γ : Type}

def size : {γ : Type} → Fields R γ → Nat
  | _, .nil => 0
  | _, .cons _ rest => rest.size + 1

/-- The values of the fields that have come in so far. -/
def Draft : {γ : Type} → Fields R γ → Type
  | _, .nil => Unit
  | _, .cons (α := α) _ rest => Option α × rest.Draft

def blank : {γ : Type} → (fs : Fields R γ) → fs.Draft
  | _, .nil => ()
  | _, .cons _ rest => (none, rest.blank)

/-- What a name means for a draft. -/
inductive Offer (R : Type → Type) (δ : Type) where
  | unknown
  | duplicate (name : String)
  /-- Reading the value gives the next draft. -/
  | read (next : R δ)

/-- What to do with the member `name`. -/
def offer [Functor R] : {γ : Type} → (fs : Fields R γ) → (name : String) → fs.Draft →
    Offer R fs.Draft
  | _, .nil, _, _ => .unknown
  | _, .cons (α := α) f rest, name, draft =>
    let (slot?, draft) : Option α × rest.Draft := draft
    if name = f.name then
      match slot? with
      | some _ => .duplicate name
      | none => .read ((fun a => (some a, draft)) <$> f.read)
    else
      match rest.offer name draft with
      | .unknown => .unknown
      | .duplicate name => .duplicate name
      | .read next => .read ((fun draft => (slot?, draft)) <$> next)

/-- The tuple of a draft that lacks no field that has to be there. -/
def finish : {γ : Type} → (fs : Fields R γ) → fs.Draft → Except Cause γ
  | _, .nil, _ => .ok ()
  | _, .cons (α := α) f rest, draft =>
    let (slot?, draft) : Option α × rest.Draft := draft
    match slot? <|> f.absent? with
    | none => .error (.missingField f.name)
    | some a => (fun tuple => (a, tuple)) <$> rest.finish draft

/-- The value of a field that an array ends before, if there may be one. -/
def Field.afterEnd? {R : Type → Type} {α : Type} (f : Field R α) : Option α :=
  if f.mayEndBefore then f.absent? else none

/-- How many elements a record of these fields has. -/
def elements (fs : Fields R γ) : String :=
  if fs.size = 1 then "1 element" else toString fs.size ++ " elements"

/-- Takes the members of an object up to its brace, in at most `budget` turns. -/
def takeMembers (fs : Fields Decoder γ) : (budget : Nat) → (first : Bool) → fs.Draft →
    Decoder fs.Draft
  | 0, _, _ => Reader.failNext .endInObject
  | budget + 1, first, draft => do
    if ← Reader.hasMember first then
      let name ← Reader.quotedText
      match fs.offer name draft with
      | .duplicate name => Reader.failUnplaced (.duplicateField name)
      | .unknown =>
        Reader.colon
        Reader.skipValue
        takeMembers fs budget false draft
      | .read next =>
        Reader.colon
        let draft ← next
        takeMembers fs budget false draft
    else return draft

/-- Takes a tuple from the members of an object up to its brace. -/
def takeObject (fs : Fields Decoder γ) : Decoder γ := do
  let draft ← fs.takeMembers (← read).budget true fs.blank
  Reader.ofExcept (fs.finish draft)

/-- Takes a tuple from the items of an array up to its bracket; `place` fields stand
before these in a record that is called `expected`. -/
def takeList (expected : String) : {γ : Type} → (place : Nat) → Fields Decoder γ → Decoder γ
  | _, _, .nil => pure ()
  | _, place, .cons f rest => do
    if ← Reader.hasItem (place == 0) then
      let a ← f.read
      let tuple ← takeList expected (place + 1) rest
      return (a, tuple)
    else
      match Field.afterEnd? f with
      | none => Reader.failUnplaced (.invalidLength place expected)
      | some a =>
        let tuple ← takeList expected (place + 1) rest
        return (a, tuple)

end Fields

namespace Reader

variable {α γ : Type}

/-- Takes a value that is not of the kind asked for and says so. The parts of an array
or an object are not looked at. -/
def mismatch (expected : String) : Reader α := placed do
  match ← peekPastSpace? with
  | none => failNext .endInValue
  | some b =>
    if b = ascii '[' then failUnplaced (.invalidType .sequence expected)
    else if b = ascii '\x7b' then failUnplaced (.invalidType .map expected)
    else if startsScalar b then
      let j ← scalarFrom b
      failUnplaced (.invalidType (.ofJson j) expected)
    else failNext .expectedValue

/-- Takes a quoted text and makes something of it. -/
def textAs (expected : String) (make : String → Except Cause α) : Decoder α := do
  match ← peekPastSpace? with
  | some b =>
    if b = ascii '"' then
      (placed do
        let text ← quotedText
        ofExcept (make text) : Reader α)
    else mismatch expected
  | none => mismatch expected

def text : Decoder String :=
  textAs "a string" .ok

/-- The natural number below `limit` that a value is. -/
def natOf (limit : Nat) (expected : String) : Json → Except Cause Nat
  | .int i =>
    if 0 ≤ i ∧ i < limit then .ok i.toNat else .error (.invalidValue (.int i) expected)
  | j => .error (.invalidType (.ofJson j) expected)

def natBelow (limit : Nat) (expected : String) : Decoder Nat := do
  match ← peekPastSpace? with
  | some b =>
    if b = ascii '-' ∨ isDigit b then
      (placed do
        let j ← number
        ofExcept (natOf limit expected j) : Reader Nat)
    else mismatch expected
  | none => mismatch expected

def word64 : Decoder Nat :=
  natBelow UInt64.size "u64"

/-- Takes a natural number of 64 bits that counts something. -/
def count : Decoder Nat :=
  natBelow UInt64.size "usize"

/-- Takes null or a value. -/
def orNull (read : Decoder α) : Decoder (Option α) := do
  match ← peekPastSpace? with
  | some b =>
    if b = ascii 'n' then
      let _ ← literalFrom b
      return none
    else some <$> read
  | none => some <$> read

def list (item : Decoder α) : Decoder (List α) := do
  match ← peekPastSpace? with
  | some b =>
    if b = ascii '[' then
      nested fun scope => do
        skip
        (itemsFrom (item scope) scope.budget true []).closedBy endList
    else mismatch "a sequence"
  | none => mismatch "a sequence"

/-- Takes a record called `name` from an object or an array. -/
def record (name : String) (fs : Fields Decoder γ) (make : γ → α) : Decoder α := do
  match ← peekPastSpace? with
  | some b =>
    if b = ascii '[' then
      nested fun scope => do
        skip
        let take := fs.takeList ("struct " ++ name ++ " with " ++ fs.elements) 0
        make <$> (take scope).closedBy endList
    else if b = ascii '\x7b' then
      nested fun scope => do
        skip
        make <$> (fs.takeObject scope).closedBy endObject
    else mismatch ("struct " ++ name)
  | none => mismatch ("struct " ++ name)

end Reader

end SealedLog.Json
