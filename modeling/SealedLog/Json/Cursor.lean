import SealedLog.Json.Fault

/-!
# Reading from a run of bytes

A reader takes bytes from the front of what is left of a text and gives a value or a
fault; in either case it says what is left afterwards. The state after a fault matters
because a fault without a place gets the place where the reading of the enclosing value
stopped (`placed`).

The readers here are those that look at single bytes: blanks, literals and the marks
between values.
-/

namespace SealedLog.Json

/-- Reads from the bytes that are left. -/
abbrev Reader := EStateM Fault (List UInt8)

namespace Reader

variable {α : Type}

/-- Fails with a place behind the last byte that was taken. -/
def failHere (cause : Cause) : Reader α :=
  fun s => .error ⟨cause, some s.length⟩ s

/-- Fails with the place of the next byte, or of the end if there is none. -/
def failNext (cause : Cause) : Reader α :=
  fun s => .error ⟨cause, some (s.length - 1)⟩ s

/-- Fails without a place. -/
def failUnplaced (cause : Cause) : Reader α :=
  fun s => .error ⟨cause, none⟩ s

/-- Gives a fault without a place the place at which `read` stopped. -/
def placed (read : Reader α) : Reader α := fun s =>
  match read s with
  | .ok a s => .ok a s
  | .error f s => .error (f.placedAt s.length) s

/-- Runs `read` and then `close`, which is run after a fault too: its own fault counts
only if `read` had none, but a fault of `read` without a place gets the place at which
`close` stopped. -/
def closedBy (read : Reader α) (close : Reader Unit) : Reader α := fun s =>
  match read s with
  | .ok a s =>
    match close s with
    | .ok _ s => .ok a s
    | .error f s => .error f s
  | .error f s =>
    match close s with
    | .ok _ s => .error (f.placedAt s.length) s
    | .error _ s => .error (f.placedAt s.length) s

def ofExcept : Except Cause α → Reader α
  | .ok a => pure a
  | .error cause => failUnplaced cause

def peek? : Reader (Option UInt8) :=
  fun s => .ok s.head? s

def next? : Reader (Option UInt8)
  | [] => .ok none []
  | b :: s => .ok (some b) s

def skip : Reader Unit :=
  fun s => .ok () s.tail

/-- The code of an ASCII character. -/
def ascii (c : Char) : UInt8 :=
  UInt8.ofNat c.toNat

/-- Space, tab and the two characters of line breaks. -/
def isSpace (b : UInt8) : Bool :=
  b == 32 || b == 9 || b == 10 || b == 13

/-- Takes all spaces and gives the byte after them, which it leaves where it is. -/
def peekPastSpace? : Reader (Option UInt8) := fun s =>
  let s := s.dropWhile isSpace
  .ok s.head? s

/-- Takes the bytes of `rest`, the part of a literal after its first letter. -/
def literal : List UInt8 → Reader Unit
  | [] => pure ()
  | expected :: rest => do
    match ← next? with
    | none => failHere .endInValue
    | some b => if b = expected then literal rest else failHere .expectedLiteral

/-- Takes a literal whose first letter is next. -/
def literalFrom (first : UInt8) : Reader Json := do
  skip
  if first = ascii 'n' then
    literal ("ull".toList.map ascii)
    return .null
  else if first = ascii 't' then
    literal ("rue".toList.map ascii)
    return .bool true
  else
    literal ("alse".toList.map ascii)
    return .bool false

/-- Whether an array goes on, given whether this is its start: takes the comma between
two items, but not the closing bracket. -/
def hasItem (first : Bool) : Reader Bool := do
  match ← peekPastSpace? with
  | none => failNext .endInList
  | some b =>
    if b = ascii ']' then return false
    else if first then return true
    else if b = ascii ',' then
      skip
      match ← peekPastSpace? with
      | none => failNext .endInValue
      | some b => if b = ascii ']' then failNext .trailingComma else return true
    else failNext .expectedListEnd

/-- Whether an object goes on, given whether this is its start: takes the comma between
two members, but not the closing brace. -/
def hasMember (first : Bool) : Reader Bool := do
  match ← peekPastSpace? with
  | none => failNext .endInObject
  | some b =>
    if b = ascii '\x7d' then return false
    else if first then
      if b = ascii '"' then return true else failNext .keyNotString
    else if b = ascii ',' then
      skip
      match ← peekPastSpace? with
      | none => failNext .endInValue
      | some b =>
        if b = ascii '"' then return true
        else if b = ascii '\x7d' then failNext .trailingComma
        else failNext .keyNotString
    else failNext .expectedObjectEnd

def colon : Reader Unit := do
  match ← peekPastSpace? with
  | none => failNext .endInObject
  | some b => if b = ascii ':' then skip else failNext .expectedColon

def endList : Reader Unit := do
  match ← peekPastSpace? with
  | none => failNext .endInList
  | some b =>
    if b = ascii ']' then skip
    else if b = ascii ',' then
      skip
      match ← peekPastSpace? with
      | some b =>
        if b = ascii ']' then failNext .trailingComma else failNext .trailingCharacters
      | none => failNext .trailingCharacters
    else failNext .trailingCharacters

def endObject : Reader Unit := do
  match ← peekPastSpace? with
  | none => failNext .endInObject
  | some b =>
    if b = ascii '\x7d' then skip
    else if b = ascii ',' then failNext .trailingComma
    else failNext .trailingCharacters

/-- Makes sure that nothing but space is left. -/
def endOfText : Reader Unit := do
  match ← peekPastSpace? with
  | none => pure ()
  | some _ => failNext .trailingCharacters

end Reader

end SealedLog.Json
