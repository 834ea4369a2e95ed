import SealedLog.Json.Lexeme

/-!
# Reading any JSON value

`value` reads a value of whatever kind comes next, and `skipValue` takes one without
looking at it. They do not accept the same texts: reading checks escapes, the size of
numbers and how deep brackets are nested, skipping only how the text is put together.

Nesting is counted down: inside the last bracket that is allowed the depth is zero.
Loops over items are given the size of the whole text as a bound, since every turn takes
at least one byte of it.
-/

namespace SealedLog.Json

/-- The number of brackets that may be open at once. -/
def maxDepth : Nat := 127

/-- What a reader of part of a text has to know of the whole. -/
structure Scope where
  /-- The number of brackets that may still be opened. -/
  depth : Nat
  /-- A bound on the number of bytes that are left. -/
  budget : Nat

/-- Reads part of a text. -/
abbrev Decoder := ReaderT Scope Reader

namespace Reader

variable {α : Type}

/-- Takes the items of an array up to its bracket, in at most `budget` turns; `done` are
those taken so far, the last one first. -/
def itemsFrom (item : Reader α) : (budget : Nat) → (first : Bool) → (done : List α) →
    Reader (List α)
  | 0, _, _ => failNext .endInList
  | budget + 1, first, done => do
    if ← hasItem first then
      let a ← item
      itemsFrom item budget false (a :: done)
    else return done.reverse

/-- Takes the members of an object up to its brace, in at most `budget` turns. -/
def membersFrom (member : String → Reader α) : (budget : Nat) → (first : Bool) →
    (done : List α) → Reader (List α)
  | 0, _, _ => failNext .endInObject
  | budget + 1, first, done => do
    if ← hasMember first then
      let name ← quotedText
      let a ← member name
      membersFrom member budget false (a :: done)
    else return done.reverse

def startsScalar (b : UInt8) : Bool :=
  b == ascii 'n' || b == ascii 't' || b == ascii 'f' || b == ascii '"' ||
    b == ascii '-' || isDigit b

/-- Takes a value without parts that starts with the byte `b`. -/
def scalarFrom (b : UInt8) : Reader Json := do
  if b = ascii '"' then return .str (← quotedText)
  else if b = ascii '-' ∨ isDigit b then number
  else literalFrom b

/-- Takes a value whose parts, if it has any, are taken by `part?`; without that it may
not have a bracket. -/
def valueWith (budget : Nat) (part? : Option (Reader Json)) : Reader Json := do
  match ← peekPastSpace? with
  | none => failNext .endInValue
  | some b =>
    if b = ascii '[' then
      match part? with
      | none => failNext .recursionLimit
      | some part => do
        skip
        let items ← (itemsFrom part budget true []).closedBy endList
        return .arr items
    else if b = ascii '\x7b' then
      match part? with
      | none => failNext .recursionLimit
      | some part => do
        skip
        let member (name : String) : Reader (String × Json) := do
          colon
          return (name, ← part)
        let members ← (membersFrom member budget true []).closedBy endObject
        return .obj members
    else if startsScalar b then scalarFrom b
    else failNext .expectedValue

/-- Takes a value with at most `depth` brackets inside one another. -/
def valueAt (budget : Nat) : (depth : Nat) → Reader Json
  | 0 => valueWith budget none
  | depth + 1 => valueWith budget (some (valueAt budget depth))

/-- Takes a value as it stands, members of objects in their order. -/
def value : Decoder Json :=
  fun scope => valueAt scope.budget scope.depth

/-- Reads inside one more bracket, if that is allowed. -/
def nested (read : Decoder α) : Decoder α := fun scope =>
  match scope.depth with
  | 0 => failNext .recursionLimit
  | depth + 1 => read { scope with depth }

/-! ## Taking a value without looking at it -/

/-- Takes the rest of a quoted text without decoding it, given whether a backslash stands
before it. -/
def skipTextFrom : (escaped : Bool) → Reader Unit
  | _, [] => .error ⟨.endInString, some 0⟩ []
  | true, b :: s =>
    if b = ascii 'u' then
      match s with
      | d1 :: d2 :: d3 :: d4 :: s =>
        match TextState.hexValue? [d1, d2, d3, d4] with
        | some _ => skipTextFrom false s
        | none => .error ⟨.invalidEscape, some s.length⟩ s
      | _ => .error ⟨.endInString, some 0⟩ []
    else
      match TextState.escapedByte? b with
      | some _ => skipTextFrom false s
      | none => .error ⟨.invalidEscape, some s.length⟩ s
  | false, b :: s =>
    if b = ascii '"' then .ok () s
    else if b = ascii '\\' then skipTextFrom true s
    else if b < 32 then .error ⟨.controlCharacter, some (s.length + 1)⟩ (b :: s)
    else skipTextFrom false s

def skipText : Reader Unit := do
  skip
  skipTextFrom false

/-- Takes an exponent from its letter on. -/
def skipExponent : Reader Unit := do
  skip
  match ← peek? with
  | some b => if b = ascii '+' ∨ b = ascii '-' then skip
  | none => pure ()
  match ← next? with
  | some b =>
    if isDigit b then
      let _ ← digits
    else failHere .invalidNumber
  | none => failHere .invalidNumber

/-- Takes a fraction from its point on, and an exponent after it. -/
def skipFraction : Reader Unit := do
  skip
  let ds ← digits
  if ds.isEmpty then failNext .invalidNumber
  else
    match ← peek? with
    | some b => if b = ascii 'e' ∨ b = ascii 'E' then skipExponent
    | none => pure ()

def skipNumber : Reader Unit := do
  match ← next? with
  | none => failHere .invalidNumber
  | some b =>
    if b = ascii '0' then
      match ← peek? with
      | some d => if isDigit d then failNext .invalidNumber
      | none => pure ()
    else if isDigit b then
      let _ ← digits
    else failHere .invalidNumber
    match ← peek? with
    | some b =>
      if b = ascii '.' then skipFraction
      else if b = ascii 'e' ∨ b = ascii 'E' then skipExponent
    | none => pure ()

/-- A bracket that is open while a value is skipped. -/
inductive Bracket where
  | square
  | curly

def skipName : Reader Unit := do
  match ← peekPastSpace? with
  | none => failNext .endInObject
  | some b =>
    if b = ascii '"' then
      skipText
      colon
    else failNext .keyNotString

/-- Goes on with the next item inside a bracket. -/
def enter : Bracket → Reader Unit
  | .square => pure ()
  | .curly => skipName

/-- What comes next while values are skipped. -/
inductive SkipState where
  /-- A value inside the given brackets, the innermost first. -/
  | value (opened : List Bracket)
  /-- What follows a value, or, if `fresh`, an opening bracket. -/
  | after (fresh : Bool) (opened : List Bracket)

/-- One turn of skipping; none at the end of the outermost value. -/
def skipTurn : SkipState → Reader (Option SkipState)
  | .value opened => do
    match ← peekPastSpace? with
    | none => failNext .endInValue
    | some b =>
      if b = ascii '[' then
        skip
        return some (.after true (.square :: opened))
      else if b = ascii '\x7b' then
        skip
        return some (.after true (.curly :: opened))
      else if b = ascii '"' then
        skipText
        return some (.after false opened)
      else if b = ascii '-' then
        skip
        skipNumber
        return some (.after false opened)
      else if isDigit b then
        skipNumber
        return some (.after false opened)
      else if startsScalar b then
        let _ ← literalFrom b
        return some (.after false opened)
      else failNext .expectedValue
  | .after _ [] => return none
  | .after fresh (bracket :: opened) => do
    match ← peekPastSpace? with
    | none => failNext (match bracket with | .square => .endInList | .curly => .endInObject)
    | some b =>
      let closing := match bracket with | .square => ascii ']' | .curly => ascii '\x7d'
      if b = closing then
        skip
        return some (.after false opened)
      else if fresh then
        enter bracket
        return some (.value (bracket :: opened))
      else if b = ascii ',' then
        skip
        enter bracket
        return some (.value (bracket :: opened))
      else
        failNext (match bracket with
          | .square => .expectedListEnd
          | .curly => .expectedObjectEnd)

def skipFrom : (turns : Nat) → SkipState → Reader Unit
  | 0, _ => failNext .endInValue
  | turns + 1, state => do
    match ← skipTurn state with
    | none => pure ()
    | some state => skipFrom turns state

/-- Takes one value without looking at it. -/
def skipValue : Decoder Unit :=
  fun scope => skipFrom (2 * scope.budget + 2) (.value [])

end Reader

/-- Reads a whole text, which may have space around what is read. -/
def readAll {α : Type} (read : Decoder α) (text : List UInt8) : Except Fault α :=
  let whole : Reader α := do
    let a ← read ⟨maxDepth, text.length + 1⟩
    Reader.endOfText
    return a
  match whole text with
  | .ok a _ => .ok a
  | .error f _ => .error f

def bytesOf (text : String) : List UInt8 :=
  text.toUTF8.data.toList

/-- As `readAll`, with the message of the fault. -/
def decodeBytes {α : Type} (read : Decoder α) (text : List UInt8) : Except String α :=
  (readAll read text).mapError (Fault.message text)

/-- Reads a text, or says what is wrong with it. -/
def decode {α : Type} (read : Decoder α) (text : String) : Except String α :=
  decodeBytes read (bytesOf text)

/-- Reads a value with the members of its objects sorted by name. -/
def readValue : Decoder Json :=
  fun scope => Json.canonical <$> Reader.value scope

end SealedLog.Json
