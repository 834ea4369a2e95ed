import SealedLog.Log.Basic
import SealedLog.Text.Blank
import SealedLog.Text.Hex
import SealedLog.Text.Quoted

/-!
# Settings of the service

The service is set up by variables of its environment. The address of the database has
to be given; everything else has a default. A variable whose value is not UTF-8 counts
as not given, except where one has to be given.

`Settings.ofEnvironment` looks at the variables in a fixed order and reports the first
fault: the address missing, the number of leaves unreadable, the number of leaves zero,
the address of the wrong kind.
-/

namespace SealedLog.Service

/-- The value of a variable of the environment. -/
inductive Variable where
  | text (s : String)
  /-- Bytes that are not UTF-8. -/
  | bytes (bs : List UInt8)
deriving DecidableEq, Repr

namespace Variable

def text? : Variable → Option String
  | text s => some s
  | bytes _ => none

end Variable

abbrev Environment := List (String × Variable)

inductive NumberFault where
  | empty
  | invalidDigit
  | tooLarge
deriving DecidableEq, Repr

namespace NumberFault

def message : NumberFault → String
  | empty => "cannot parse integer from empty string"
  | invalidDigit => "invalid digit found in string"
  | tooLarge => "number too large to fit in target type"

end NumberFault

/-- The number of 64 bits that digits write, from `value` on. -/
def numberFrom : (value : Nat) → List Char → Except NumberFault Nat
  | value, [] => .ok value
  | value, c :: cs =>
    if !c.isDigit then .error .invalidDigit
    else
      let next := 10 * value + (c.toNat - '0'.toNat)
      if next < UInt64.size then numberFrom next cs else .error .tooLarge

/-- The number of 64 bits that a text writes, a plus sign before it being allowed. -/
def parseNumber (text : String) : Except NumberFault Nat :=
  match text.toList with
  | [] => .error .empty
  | ['+'] => .error .invalidDigit
  | '+' :: cs => numberFrom 0 cs
  | cs => numberFrom 0 cs

inductive ConfigError where
  | missing (name : String)
  | notUnicode (name : String) (bytes : List UInt8)
  | notANumber (text : String) (fault : NumberFault)
  | noLeaves
  | foreignDatabase
deriving DecidableEq, Repr

/-- The parts of a run of bytes, at most `most` of them: characters, and bytes that belong
to none. -/
def partsOf : (most : Nat) → List UInt8 → List (Char ⊕ UInt8)
  | 0, _ => []
  | _, [] => []
  | most + 1, b :: bs =>
    let char? := [1, 2, 3, 4].findSome? fun n =>
      match String.fromUTF8? ⟨((b :: bs).take n).toArray⟩ with
      | some s => s.toList.head?.map fun c => (c, n)
      | none => none
    match char? with
    | some (c, n) => .inl c :: partsOf most ((b :: bs).drop n)
    | none => .inr b :: partsOf most bs

def singleQuote : Char := Char.ofNat 39

/-- A part of a run of bytes between quotes: a single quote is escaped here as well, and a
byte that is part of no character is written by its number. -/
def showPart : Char ⊕ UInt8 → List Char
  | .inl c => if c = singleQuote then ['\\', c] else Text.showChar c
  | .inr b => ['\\', 'x'] ++ (Hex.ofByte b).map Char.toUpper

def quotedBytes (bs : List UInt8) : String :=
  "\"" ++ String.ofList ((partsOf bs.length bs).flatMap showPart) ++ "\""

namespace ConfigError

def message : ConfigError → String
  | missing name =>
    "Missing required env var: " ++ name ++ ": environment variable not found"
  | notUnicode name bytes =>
    "Missing required env var: " ++ name ++ ": environment variable was not valid unicode: " ++
      quotedBytes bytes
  | notANumber text fault => "AUDIT_MAX_LEAVES is not a number: " ++ text ++ ": " ++ fault.message
  | noLeaves => "AUDIT_MAX_LEAVES must be at least 1"
  | foreignDatabase => "DATABASE_URL must start with postgres:// or postgresql://"

end ConfigError

structure Settings where
  databaseUrl : String
  bindAddress : String
  snapshotPath : String
  log : LogConfig
  /-- The names of parameters that are masked in every operation. -/
  redactedFields : List String
deriving DecidableEq, Repr

namespace Settings

/-- The parts of a list with commas between them, without blanks around them and without
empty ones. -/
def listOf (text : String) : List String :=
  ((text.toList.splitOn ',').map Text.trim).filterMap fun part =>
    if part.isEmpty then none else some (String.ofList part)

def required (env : Environment) (name : String) : Except ConfigError String :=
  match env.lookup name with
  | none => .error (.missing name)
  | some (.bytes bs) => .error (.notUnicode name bs)
  | some (.text s) => .ok s

def optional? (env : Environment) (name : String) : Option String :=
  (env.lookup name).bind Variable.text?

def maxLeaves (env : Environment) : Except ConfigError Nat :=
  match optional? env "AUDIT_MAX_LEAVES" with
  | none => .ok Tree.defaultMaxLeaves
  | some text => (parseNumber text).mapError (.notANumber text)

/-- Whether an address is one of a database that the journal can be kept in. -/
def isPostgres (url : String) : Bool :=
  url.startsWith "postgres://" || url.startsWith "postgresql://"

/-- The settings that an environment makes. -/
def ofEnvironment (env : Environment) : Except ConfigError Settings := do
  let databaseUrl ← required env "DATABASE_URL"
  let maxLeaves ← maxLeaves env
  if maxLeaves = 0 then throw .noLeaves
  if !isPostgres databaseUrl then throw .foreignDatabase
  return {
    databaseUrl
    bindAddress := (optional? env "AUDITD_BIND_ADDR").getD "0.0.0.0:8090"
    snapshotPath := (optional? env "AUDIT_SNAPSHOT_PATH").getD "audit_snapshots.json"
    log := ⟨maxLeaves⟩
    redactedFields := (optional? env "AUDIT_REDACT_FIELDS").elim ["password", "token"] listOf }

end Settings

end SealedLog.Service
