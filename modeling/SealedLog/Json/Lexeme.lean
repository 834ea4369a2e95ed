import SealedLog.Json.Cursor
import SealedLog.Text.Hex

/-!
# Texts and numbers in JSON

The readers of the two kinds of value that consist of more than fixed letters.

A quoted text is taken byte by byte by a machine whose states say what the next byte is
part of; the bytes of the text are collected and have to be valid UTF-8 at the end. An
escape for half of a character beyond the first 65536 has to be followed by one for the
other half.

A number is split into sign, digits, fraction and exponent. The digits are collected
into a natural number as long as that fits into 64 bits; digits that do not fit raise
the exponent before the decimal point and are dropped after it.
-/

namespace SealedLog.Json

/-- What the next byte of a quoted text is part of. -/
inductive TextState where
  | plain
  | escape
  /-- The digits of an escape by number that were taken so far, the last one first. -/
  | hex (digits : List UInt8)
  /-- After an escape for the first half of a character. -/
  | firstHalf (half : Nat)
  | firstHalfEscape (half : Nat)
  | secondHalf (half : Nat) (digits : List UInt8)

namespace TextState

def hexValue? (digits : List UInt8) : Option Nat :=
  digits.foldlM (fun n d => (Hex.value? (Char.ofNat d.toNat)).map (16 * n + ·)) 0

def utf8 (n : Nat) : List UInt8 :=
  String.utf8EncodeChar (Char.ofNat n)

/-- The byte that an escape by a single letter stands for. -/
def escapedByte? (b : UInt8) : Option UInt8 :=
  if b = Reader.ascii '"' then some b
  else if b = Reader.ascii '\\' then some b
  else if b = Reader.ascii '/' then some b
  else if b = Reader.ascii 'b' then some 8
  else if b = Reader.ascii 'f' then some 12
  else if b = Reader.ascii 'n' then some 10
  else if b = Reader.ascii 'r' then some 13
  else if b = Reader.ascii 't' then some 9
  else none

/-- What one byte of a quoted text does: end it, fail, or lead to another state and add
bytes to the text. -/
inductive Move where
  | close
  | fail (cause : Cause)
  | go (state : TextState) (bytes : List UInt8)

/-- The move after the four digits of a first or only escape. -/
def afterHex (digits : List UInt8) : Move :=
  match hexValue? digits with
  | none => .fail .invalidEscape
  | some n =>
    if 0xdc00 ≤ n ∧ n ≤ 0xdfff then .fail .loneSurrogate
    else if 0xd800 ≤ n ∧ n ≤ 0xdbff then .go (.firstHalf n) []
    else .go .plain (utf8 n)

/-- The move after the four digits of the escape for a second half. -/
def afterSecondHalf (half : Nat) (digits : List UInt8) : Move :=
  match hexValue? digits with
  | none => .fail .invalidEscape
  | some n =>
    if 0xdc00 ≤ n ∧ n ≤ 0xdfff then
      .go .plain (utf8 (0x10000 + (half - 0xd800) * 0x400 + (n - 0xdc00)))
    else .fail .loneSurrogate

/-- The move on the byte `b`. -/
def move (b : UInt8) : TextState → Move
  | plain =>
    if b = Reader.ascii '"' then .close
    else if b = Reader.ascii '\\' then .go escape []
    else if b < 32 then .fail .controlCharacter
    else .go plain [b]
  | escape =>
    if b = Reader.ascii 'u' then .go (hex []) []
    else
      match escapedByte? b with
      | some e => .go plain [e]
      | none => .fail .invalidEscape
  | hex digits =>
    if digits.length < 3 then .go (hex (b :: digits)) []
    else afterHex (b :: digits).reverse
  | firstHalf half =>
    if b = Reader.ascii '\\' then .go (firstHalfEscape half) [] else .fail .unpairedEscape
  | firstHalfEscape half =>
    if b = Reader.ascii 'u' then .go (secondHalf half []) [] else .fail .unpairedEscape
  | secondHalf half digits =>
    if digits.length < 3 then .go (secondHalf half (b :: digits)) []
    else afterSecondHalf half (b :: digits).reverse

end TextState

namespace Reader

def decodeText? (bytes : List UInt8) : Option String :=
  String.fromUTF8? ⟨bytes.toArray⟩

/-- Takes the rest of a quoted text from the given state on; `taken` are the bytes of
the text so far, the last one first. -/
def textFrom : TextState → (taken : List UInt8) → Reader String
  | _, _, [] => .error ⟨.endInString, some 0⟩ []
  | state, taken, b :: s =>
    match state.move b with
    | .close =>
      match decodeText? taken.reverse with
      | some text => .ok text s
      | none => .error ⟨.invalidUnicode, some (s.length + 1)⟩ s
    | .fail cause => .error ⟨cause, some s.length⟩ s
    | .go state bytes => textFrom state (bytes.reverse ++ taken) s

/-- Takes a quoted text from its opening quote on. -/
def quotedText : Reader String := do
  skip
  textFrom .plain []

def isDigit (b : UInt8) : Bool :=
  48 ≤ b && b ≤ 57

def digitValue (b : UInt8) : Nat :=
  b.toNat - 48

def digits : Reader (List UInt8) :=
  fun s => .ok (s.takeWhile isDigit) (s.dropWhile isDigit)

/-- A natural number that fits into 64 bits, and the number of digits after it that did
not fit in. -/
structure Significand where
  value : Nat
  dropped : Nat

/-- Collects digits into a significand until one does not fit. -/
def Significand.ofDigits (ds : List UInt8) (start : Nat) : Significand :=
  ds.foldl (fun s d =>
    let v := 10 * s.value + digitValue d
    if s.dropped = 0 ∧ v < UInt64.size then ⟨v, 0⟩ else ⟨s.value, s.dropped + 1⟩) ⟨start, 0⟩

/-- The double that a decimal is read as. -/
def realOf (positive : Bool) (significand : Nat) (exponent : Int) : Reader Json :=
  match realOfDecimal? positive significand exponent with
  | some bits => return .real bits
  | none => failHere .numberOutOfRange

/-- The largest exponent that is read digit by digit. -/
def exponentLimit : Nat := Nat.pow 2 31

/-- Collects the digits of an exponent up to the first with which it reaches the limit;
gives the digits after that one in this case. -/
def collectExponent : (value : Nat) → List UInt8 → Nat × Option (List UInt8)
  | value, [] => (value, none)
  | value, d :: ds =>
    let v := 10 * value + digitValue d
    if v < exponentLimit then collectExponent v ds else (v, some ds)

/-- Takes an exponent from its letter on, for a decimal that has the exponent `start`
without it. -/
def exponentPart (positive : Bool) (significand : Nat) (start : Int) : Reader Json := do
  skip
  let upward ← match ← peek? with
    | some b =>
      if b = ascii '+' then do skip; pure true
      else if b = ascii '-' then do skip; pure false
      else pure true
    | none => pure true
  match ← next? with
  | none => failHere .endInValue
  | some b =>
    if !isDigit b then failHere .invalidNumber
    else
      let ds ← digits
      match collectExponent (digitValue b) ds with
      | (e, none) =>
        realOf positive significand (if upward then start + e else start - e)
      | (_, some rest) =>
        if significand ≠ 0 ∧ upward then
          fun s => .error ⟨.numberOutOfRange, some (rest.length + s.length)⟩ s
        else realOf positive 0 0

/-- Takes a fraction from its point on, for digits that stand `raised` places too low. -/
def fractionPart (positive : Bool) (significand raised : Nat) : Reader Json := do
  skip
  let ds ← digits
  if ds.isEmpty then
    match ← peek? with
    | some _ => failNext .invalidNumber
    | none => failNext .endInValue
  else
    let s := Significand.ofDigits ds significand
    let exponent : Int := (raised : Int) - (ds.length - s.dropped : Nat)
    match ← peek? with
    | some b =>
      if b = ascii 'e' ∨ b = ascii 'E' then exponentPart positive s.value exponent
      else realOf positive s.value exponent
    | none => realOf positive s.value exponent

def integerOf (positive : Bool) (significand : Nat) : Reader Json :=
  if positive then return .int significand
  else if 0 < significand ∧ significand ≤ Nat.pow 2 63 then return .int (-significand)
  else realOf false significand 0

/-- Takes what follows the digits of a number. -/
def afterDigits (positive : Bool) (s : Significand) : Reader Json := do
  match ← peek? with
  | some b =>
    if b = ascii '.' then fractionPart positive s.value s.dropped
    else if b = ascii 'e' ∨ b = ascii 'E' then exponentPart positive s.value s.dropped
    else if s.dropped = 0 then integerOf positive s.value
    else realOf positive s.value s.dropped
  | none =>
    if s.dropped = 0 then integerOf positive s.value else realOf positive s.value s.dropped

/-- Takes a number from its first digit on. -/
def unsignedNumber (positive : Bool) : Reader Json := do
  match ← next? with
  | none => failHere .endInValue
  | some b =>
    if b = ascii '0' then
      match ← peek? with
      | some d => if isDigit d then failNext .invalidNumber else afterDigits positive ⟨0, 0⟩
      | none => afterDigits positive ⟨0, 0⟩
    else if isDigit b then
      let ds ← digits
      afterDigits positive (.ofDigits ds (digitValue b))
    else failHere .invalidNumber

/-- Takes a number, given that a digit or a minus sign is next. -/
def number : Reader Json := do
  match ← peek? with
  | some b =>
    if b = ascii '-' then
      skip
      unsignedNumber false
    else unsignedNumber true
  | none => failNext .endInValue

end Reader

end SealedLog.Json
