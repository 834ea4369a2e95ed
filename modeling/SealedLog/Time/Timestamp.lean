import SealedLog.Text.Blank
import SealedLog.Time.Calendar

/-!
# Timestamps

The text form of a moment, after RFC 3339: `2024-05-06T07:08:09.5Z`.

It is written in UTC with a `Z`, with as few fraction digits as lose nothing, out of 0,
3, 6 and 9, and with a sign before a year that does not have four digits.

It is read more freely: numbers may be short and have blanks before them, a year may
have a sign and then any number of digits, a blank or a small letter may stand for the
`T`, the offset may be that of any place, and second 60 is a leap second. Faults are
found from left to right; whether there is a day of that name is looked at last.
-/

namespace SealedLog

namespace Timestamp

/-- Why a text is not a timestamp. -/
inductive Fault where
  | endOfText
  | invalidCharacter
  | outOfRange
  | noSuchMoment
  | trailingText
deriving DecidableEq, Repr

namespace Fault

def message : Fault → String
  | endOfText => "premature end of input"
  | invalidCharacter => "input contains invalid characters"
  | outOfRange => "input is out of range"
  | noSuchMoment => "no possible date and time matching input"
  | trailingText => "trailing input"

end Fault

/-- Reads from the characters that are left. -/
abbrev Reader := StateT (List Char) (Except Fault)

def blanks : Reader Unit :=
  modify Text.skipBlanks

def digitsValue (ds : List Char) : Nat :=
  ds.foldl (fun n d => 10 * n + (d.toNat - '0'.toNat)) 0

/-- Takes a number of one up to `most` digits, or as many as come if there is no such
limit, with the number of its digits. -/
def digits (most? : Option Nat) : Reader (Nat × Nat) := do
  let cs ← get
  if cs.isEmpty then throw .endOfText
  let ds := (most?.elim cs cs.take).takeWhile Char.isDigit
  if ds.isEmpty then throw .invalidCharacter
  if Nat.pow 2 63 ≤ digitsValue ds then throw .outOfRange
  set (cs.drop ds.length)
  return (digitsValue ds, ds.length)

/-- Takes a number of one or two digits from `low` to `high`, and blanks before it. -/
def twoDigits (low high : Nat) : Reader Nat := do
  blanks
  let (n, _) ← digits (some 2)
  if low ≤ n ∧ n ≤ high then return n else throw .outOfRange

def mark (c : Char) : Reader Unit := do
  match ← get with
  | [] => throw .endOfText
  | d :: cs => if d = c then set cs else throw .invalidCharacter

/-- Takes a year, and blanks before it. -/
def year : Reader Int := do
  blanks
  let y : Int ← match ← get with
    | '-' :: cs => do
      set cs
      let (n, _) ← digits none
      pure (-(n : Int))
    | '+' :: cs => do
      set cs
      let (n, _) ← digits none
      pure (n : Int)
    | _ => do
      let (n, _) ← digits (some 4)
      pure (n : Int)
  if -2147483648 ≤ y ∧ y < 2147483648 then return y else throw .outOfRange

def date : Reader Date := do
  let y ← year
  blanks
  mark '-'
  let m ← twoDigits 1 12
  blanks
  mark '-'
  let d ← twoDigits 1 31
  return ⟨y, m, d⟩

/-- Takes what stands between day and time. -/
def separator : Reader Unit := do
  match ← get with
  | [] => throw .endOfText
  | c :: cs => if c = 'T' ∨ c = 't' ∨ c = ' ' then set cs else throw .invalidCharacter

/-- Takes the fraction of a second, if there is one: the nanoseconds. -/
def fraction : Reader Nat := do
  match ← get with
  | '.' :: cs => do
    set cs
    let (n, count) ← digits (some 9)
    modify (·.dropWhile Char.isDigit)
    return n * Nat.pow 10 (9 - count)
  | _ => return 0

/-- Takes the time of a day: its second, and the nanosecond, which is past one billion in
a leap second. -/
def timeOfDay : Reader (Nat × Nat) := do
  let h ← twoDigits 0 23
  blanks
  mark ':'
  let m ← twoDigits 0 59
  blanks
  mark ':'
  let s ← twoDigits 0 60
  let nano ← fraction
  blanks
  let minute := 3600 * h + 60 * m
  return if s = 60 then (minute + 59, nano + 1000000000) else (minute + s, nano)

def byteCount (cs : List Char) : Nat :=
  cs.foldl (fun n c => n + c.utf8Size) 0

/-- Takes two digits, the first of them at most `high`. -/
def offsetDigits (high : Char) : Reader Nat := do
  let cs ← get
  if byteCount cs < 2 then throw .endOfText
  match cs with
  | a :: b :: rest =>
    if a.isDigit ∧ b.isDigit then
      if a ≤ high then do
        set rest
        return digitsValue [a, b]
      else throw .outOfRange
    else throw .invalidCharacter
  | _ => throw .invalidCharacter

/-- Takes the offset from UTC, in seconds. -/
def offset : Reader Int := do
  match ← get with
  | [] => throw .endOfText
  | c :: cs =>
    if c = 'Z' ∨ c = 'z' then do
      set cs
      return 0
    else if (c :: cs.take 2).map Char.toUpper = ['U', 'T', 'C'] then do
      set (cs.drop 2)
      return 0
    else if c = '+' ∨ c = '-' ∨ c = '−' then do
      set cs
      let h ← offsetDigits '9'
      modify (·.dropWhile fun c => c = ':' || Text.isBlank c)
      let m ← offsetDigits '5'
      let seconds : Int := 3600 * h + 60 * m
      return if c = '+' then seconds else -seconds
    else throw .invalidCharacter

def endOfText : Reader Unit := do
  blanks
  if (← get).isEmpty then pure () else throw .trailingText

def timestamp : Reader Instant := do
  let d ← date
  separator
  let (second, nano) ← timeOfDay
  let shift ← offset
  endOfText
  if !d.exists? ∨ 86400 ≤ shift.natAbs then throw .outOfRange
  match Instant.ofLocal? d second nano shift with
  | some t => return t
  | none => throw .noSuchMoment

/-- The moment that a text names. -/
def read (text : String) : Except Fault Instant :=
  (timestamp.run text.toList).map Prod.fst

/-- The digits of `n`, with zeros before them to make at least `width`. -/
def padded (width n : Nat) : List Char :=
  let ds := Nat.toDigits 10 n
  List.replicate (width - ds.length) '0' ++ ds

/-- A year in four digits, or with a sign where these do not do. -/
def yearText (y : Int) : List Char :=
  if 0 ≤ y ∧ y ≤ 9999 then padded 4 y.toNat
  else (if y < 0 then '-' else '+') :: padded 4 y.natAbs

/-- The fraction of a second, with as few digits as lose nothing. -/
def fractionText (nano : Nat) : List Char :=
  if nano = 0 then []
  else if nano % 1000000 = 0 then '.' :: padded 3 (nano / 1000000)
  else if nano % 1000 = 0 then '.' :: padded 6 (nano / 1000)
  else '.' :: padded 9 nano

/-- The text of a moment. -/
def write (t : Instant) : String :=
  let leap := t.nano / 1000000000
  String.ofList <|
    yearText t.date.year ++ ['-'] ++ padded 2 t.date.month ++ ['-'] ++ padded 2 t.date.day ++
    ['T'] ++ padded 2 (t.second / 3600) ++ [':'] ++ padded 2 (t.second / 60 % 60) ++ [':'] ++
    padded 2 (t.second % 60 + leap) ++ fractionText (t.nano % 1000000000) ++ ['Z']

end Timestamp

end SealedLog
