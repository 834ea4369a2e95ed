import SealedLog.Json.Number
import SealedLog.Text.Quoted

/-!
# What can be wrong with a JSON text

A text can fail to be JSON, or be JSON of another shape than the one asked for. Either
way the fault has a cause and usually a place. A place is kept as the number of bytes
from there to the end of the text, which is what a reader knows without counting from
the start; `message` turns it into a line and a column. The column is the number of
bytes of the line up to and including the offending one.

A fault found in a value that had been read before it was looked at has no place of its
own. It gets the place where the reading of the enclosing value ended, if there is one.
-/

namespace SealedLog.Json

/-- A kind of value, as messages show one that was not asked for. -/
inductive Shown where
  | null
  | bool (b : Bool)
  | int (i : Int)
  | real (bits : UInt64)
  | str (s : String)
  | sequence
  | map
deriving DecidableEq, Repr

namespace Shown

def ofJson : Json → Shown
  | .null => null
  | .bool b => bool b
  | .int i => int i
  | .real bits => real bits
  | .str s => str s
  | .arr _ => sequence
  | .obj _ => map

def text : Shown → String
  | null => "null"
  | bool true => "boolean `true`"
  | bool false => "boolean `false`"
  | int i => "integer `" ++ toString i ++ "`"
  | real bits => "floating point `" ++ realText bits ++ "`"
  | str s => "string " ++ Text.quoted s
  | sequence => "sequence"
  | map => "map"

end Shown

inductive Cause where
  -- the text is not JSON
  | endInValue
  | endInString
  | endInList
  | endInObject
  | expectedValue
  | expectedLiteral
  | expectedColon
  | expectedListEnd
  | expectedObjectEnd
  | keyNotString
  | trailingComma
  | trailingCharacters
  | invalidNumber
  | numberOutOfRange
  | invalidEscape
  | unpairedEscape
  | loneSurrogate
  | controlCharacter
  | invalidUnicode
  | recursionLimit
  -- the value is not of the shape asked for
  | invalidType (found : Shown) (expected : String)
  | invalidValue (found : Shown) (expected : String)
  | invalidLength (length : Nat) (expected : String)
  | missingField (name : String)
  | duplicateField (name : String)
  | unknownVariant (name : String) (known : List String)
  /-- The text of a value does not follow the form it should have. -/
  | malformed (detail : String)
deriving DecidableEq, Repr

namespace Cause

/-- A name in the quotes that messages use for names. -/
def tick (name : String) : String :=
  "`" ++ name ++ "`"

/-- The alternatives to an unknown name. -/
def alternatives : List String → String
  | [] => "there are no variants"
  | [a] => "expected " ++ tick a
  | [a, b] => "expected " ++ tick a ++ " or " ++ tick b
  | names => "expected one of " ++ ", ".intercalate (names.map tick)

def message : Cause → String
  | endInValue => "EOF while parsing a value"
  | endInString => "EOF while parsing a string"
  | endInList => "EOF while parsing a list"
  | endInObject => "EOF while parsing an object"
  | expectedValue => "expected value"
  | expectedLiteral => "expected ident"
  | expectedColon => "expected `:`"
  | expectedListEnd => "expected `,` or `]`"
  | expectedObjectEnd => "expected `,` or `\x7d`"
  | keyNotString => "key must be a string"
  | trailingComma => "trailing comma"
  | trailingCharacters => "trailing characters"
  | invalidNumber => "invalid number"
  | numberOutOfRange => "number out of range"
  | invalidEscape => "invalid escape"
  | unpairedEscape => "unexpected end of hex escape"
  | loneSurrogate => "lone leading surrogate in hex escape"
  | controlCharacter => "control character (\\u0000-\\u001F) found while parsing a string"
  | invalidUnicode => "invalid unicode code point"
  | recursionLimit => "recursion limit exceeded"
  | invalidType found expected => "invalid type: " ++ found.text ++ ", expected " ++ expected
  | invalidValue found expected => "invalid value: " ++ found.text ++ ", expected " ++ expected
  | invalidLength length expected =>
    "invalid length " ++ toString length ++ ", expected " ++ expected
  | missingField name => "missing field " ++ tick name
  | duplicateField name => "duplicate field " ++ tick name
  | unknownVariant name known => "unknown variant " ++ tick name ++ ", " ++ alternatives known
  | malformed detail => detail

end Cause

structure Fault where
  cause : Cause
  /-- The number of bytes from the place of the fault to the end of the text; none if
  the fault has no place. -/
  left? : Option Nat
deriving DecidableEq, Repr

namespace Fault

/-- The fault, placed where `left` bytes are left unless it has a place already. -/
def placedAt (f : Fault) (left : Nat) : Fault :=
  { f with left? := some (f.left?.getD left) }

def lastLine (bytes : List UInt8) : List UInt8 :=
  (bytes.reverse.takeWhile (· != 10)).reverse

/-- The message for a fault found in `text`. -/
def message (text : List UInt8) (f : Fault) : String :=
  match f.left? with
  | none => f.cause.message
  | some left =>
    let before := text.take (text.length - left)
    f.cause.message ++ " at line " ++ toString (before.count 10 + 1) ++
      " column " ++ toString (lastLine before).length

end Fault

end SealedLog.Json
