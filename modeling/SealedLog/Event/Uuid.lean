import SealedLog.Text.Hex

/-!
# Identifiers of events

Every event has an identifier of sixteen bytes, a UUID. It is written as 32 lowercase
digits in five groups with hyphens between them. It is read in either case, with or
without the hyphens, and with the hyphens also between braces or after `urn:uuid:`.

When a text is refused, `explain` finds the most telling reason: a character that has no
place there, a wrong number of groups, or a group of a wrong length.
-/

namespace SealedLog

structure Uuid where
  bytes : List UInt8
  length_bytes : bytes.length = 16
deriving DecidableEq, Repr

namespace Uuid

def groupLengths : List Nat := [8, 4, 4, 4, 12]

/-- Cuts digits into groups with hyphens between them. -/
def hyphenate : List Nat → List Char → List Char
  | [], ds => ds
  | [_], ds => ds
  | n :: rest, ds => ds.take n ++ '-' :: hyphenate rest (ds.drop n)

def text (id : Uuid) : String :=
  String.ofList (hyphenate groupLengths (Hex.ofBytes id.bytes))

def nil : Uuid := ⟨List.replicate 16 0, rfl⟩

/-- The identifier of the given bytes, filled up with zeros or cut off, once the bits that
mark an identifier made from random bytes are set. -/
def ofRandom (random : List UInt8) : Uuid :=
  let b := (random ++ List.replicate 16 0).take 16
  let marked := b.mapIdx fun i x =>
    if i = 6 then (x &&& 0x0f) ||| 0x40 else if i = 8 then (x &&& 0x3f) ||| 0x80 else x
  ⟨marked, by simp [marked, b]⟩

/-- The number that says how an identifier was made. -/
def version (id : Uuid) : Nat :=
  ((id.bytes.getD 6 0) >>> 4).toNat

inductive Fault where
  | character (c : Char) (index : Nat)
  | simpleLength (length : Nat)
  | groupCount (count : Nat)
  | groupLength (group expected length : Nat)
deriving DecidableEq, Repr

namespace Fault

def message : Fault → String
  | character c index =>
    "invalid character: found `" ++ String.singleton c ++ "` at " ++ toString index
  | simpleLength length =>
    "invalid length: expected length 32 for simple format, found " ++ toString length
  | groupCount count => "invalid group count: expected 5, found " ++ toString count
  | groupLength group expected length =>
    "invalid group length in group " ++ toString group ++ ": expected " ++
      toString expected ++ ", found " ++ toString length

end Fault

def ofDigits? (ds : List Char) : Option Uuid := do
  let bytes ← Hex.bytes? ds
  if h : bytes.length = 16 then some ⟨bytes, h⟩ else none

/-- The digits between hyphens that stand where they should. -/
def withoutHyphens? : List Nat → List Char → Option (List Char)
  | [], ds => if ds.isEmpty then some [] else none
  | [n], ds => if ds.length = n then some ds else none
  | n :: rest, ds =>
    match ds.drop n with
    | '-' :: more => (withoutHyphens? rest more).map (ds.take n ++ ·)
    | _ => none

/-- The prefix of the form for networks, in any case. -/
def urnMark : List Char := "urn:uuid:".toList

def startsWithUrn (cs : List Char) : Bool :=
  (cs.take urnMark.length).map Char.toLower == urnMark

def unbraced? (cs : List Char) : Option (List Char) :=
  match cs with
  | '\x7b' :: rest => if rest.getLast? = some '\x7d' then some rest.dropLast else none
  | _ => none

/-- The identifier that a text writes in one of the forms. -/
def parse? (cs : List Char) : Option Uuid :=
  if cs.length = 32 then ofDigits? cs
  else
    let body? :=
      if cs.length = 36 then some cs
      else if cs.length = 38 then unbraced? cs
      else if cs.length = 45 ∧ startsWithUrn cs then some (cs.drop urnMark.length)
      else none
    body? >>= withoutHyphens? groupLengths >>= ofDigits?

/-- The body of a text, how many bytes stand before it, and whether it stands alone. -/
def bodyOf (cs : List Char) : List Char × Nat × Bool :=
  match unbraced? cs with
  | some body => (body, 1, false)
  | none =>
    if startsWithUrn cs then (cs.drop urnMark.length, urnMark.length, false)
    else (cs, 0, true)

/-- The first character that can be no part of an identifier, with its place in bytes. -/
def badCharacter? : (index : Nat) → List Char → Option (Char × Nat)
  | _, [] => none
  | index, c :: cs =>
    if c = '-' ∨ (Hex.value? c).isSome then badCharacter? (index + c.utf8Size) cs
    else some (c, index)

def lengthsOfGroups (cs : List Char) : List Nat :=
  (cs.splitOn '-').map List.length

/-- The first group of digits that does not have its length, the last group being given
the length `last`. -/
def badGroup (last : Nat) : (group : Nat) → (expected actual : List Nat) → Fault
  | group, e :: es, a :: as =>
    if es.isEmpty then .groupLength group e last
    else if a = e then badGroup last (group + 1) es as
    else .groupLength group e a
  | group, es, _ => .groupLength group (es.headD 0) last

/-- Why a text that `parse?` refuses is not an identifier. -/
def explain (cs : List Char) : Fault :=
  let (body, before, alone) := bodyOf cs
  match badCharacter? before body with
  | some (c, index) => .character c index
  | none =>
    let groups := lengthsOfGroups body
    if groups.length = 1 ∧ alone then .simpleLength cs.length
    else if groups.length ≠ 5 then .groupCount groups.length
    else badGroup (cs.length - 24) 0 groupLengths groups

def read (text : String) : Except Fault Uuid :=
  match parse? text.toList with
  | some id => .ok id
  | none => .error (explain text.toList)

end Uuid

end SealedLog
