import SealedLog.Text.Hex
import SealedLog.Json.Number

/-!
# Writing JSON

Two forms of the same text: `compact` without any space, and `pretty` with one member
or item to a line, indented by two spaces for each enclosing bracket, an empty array or
object being written without a line break. A text is escaped only where it has to be:
quotes, backslashes and the control characters below 32.
-/

namespace SealedLog.Json

def escapeChar (c : Char) : List Char :=
  if c = '"' then ['\\', '"']
  else if c = '\\' then ['\\', '\\']
  else if c = '\n' then ['\\', 'n']
  else if c = '\r' then ['\\', 'r']
  else if c = '\t' then ['\\', 't']
  else if c = '\x08' then ['\\', 'b']
  else if c = '\x0c' then ['\\', 'f']
  else if c.toNat < 32 then ['\\', 'u', '0', '0'] ++ Hex.ofByte (UInt8.ofNat c.toNat)
  else [c]

def strText (s : String) : String :=
  "\"" ++ String.ofList (s.toList.flatMap escapeChar) ++ "\""

def scalarText : Json → String
  | .bool true => "true"
  | .bool false => "false"
  | .int i => toString i
  | .real bits => realText bits
  | .str s => strText s
  | _ => "null"

mutual

/-- The text of a value without any space. -/
def compact : Json → String
  | .arr [] => "[]"
  | .arr (j :: rest) => "[" ++ compact j ++ compactItems rest ++ "]"
  | .obj [] => "\x7b\x7d"
  | .obj ((name, j) :: rest) =>
    "\x7b" ++ strText name ++ ":" ++ compact j ++ compactMembers rest ++ "\x7d"
  | j => scalarText j

/-- The items after the first, each with the comma before it. -/
def compactItems : List Json → String
  | [] => ""
  | j :: rest => "," ++ compact j ++ compactItems rest

/-- The members after the first, each with the comma before it. -/
def compactMembers : List (String × Json) → String
  | [] => ""
  | (name, j) :: rest => "," ++ strText name ++ ":" ++ compact j ++ compactMembers rest

end

/-- A line break and the indentation of `depth` brackets. -/
def newLine (depth : Nat) : String :=
  "\n" ++ String.ofList (List.replicate (2 * depth) ' ')

mutual

/-- The text of a value inside `depth` brackets, one member or item to a line. -/
def prettyAt (depth : Nat) : Json → String
  | .arr [] => "[]"
  | .arr (j :: rest) =>
    "[" ++ newLine (depth + 1) ++ prettyAt (depth + 1) j ++ prettyItems (depth + 1) rest ++
      newLine depth ++ "]"
  | .obj [] => "\x7b\x7d"
  | .obj ((name, j) :: rest) =>
    "\x7b" ++ newLine (depth + 1) ++ strText name ++ ": " ++ prettyAt (depth + 1) j ++
      prettyMembers (depth + 1) rest ++ newLine depth ++ "\x7d"
  | j => scalarText j

def prettyItems (depth : Nat) : List Json → String
  | [] => ""
  | j :: rest => "," ++ newLine depth ++ prettyAt depth j ++ prettyItems depth rest

def prettyMembers (depth : Nat) : List (String × Json) → String
  | [] => ""
  | (name, j) :: rest =>
    "," ++ newLine depth ++ strText name ++ ": " ++ prettyAt depth j ++ prettyMembers depth rest

end

/-- The text of a value, one member or item to a line. -/
def pretty (j : Json) : String :=
  prettyAt 0 j

end SealedLog.Json
