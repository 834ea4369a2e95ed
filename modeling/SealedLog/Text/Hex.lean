/-!
# Hexadecimal text

Digests, identifiers and escapes all write numbers in base sixteen with lowercase
digits. A byte is two digits and a 32-bit word is eight, most significant first, so
the length of a written text is known from what was written. Reading accepts both
cases; `bytes? (ofBytes bs)` gives `bs` back.
-/

namespace SealedLog.Hex

def ofByte (b : UInt8) : List Char :=
  [Nat.digitChar (b.toNat / 16), Nat.digitChar (b.toNat % 16)]

def ofBytes (bs : List UInt8) : List Char :=
  bs.flatMap ofByte

/-- The digit of `w` that stands `shift` bits above the lowest. -/
def nibble (w shift : UInt32) : Char :=
  Nat.digitChar ((w >>> shift) &&& 15).toNat

/-- The eight digits of a word. -/
def ofWord (w : UInt32) : List Char :=
  [nibble w 28, nibble w 24, nibble w 20, nibble w 16,
    nibble w 12, nibble w 8, nibble w 4, nibble w 0]

@[simp] theorem length_ofByte (b : UInt8) : (ofByte b).length = 2 := rfl

@[simp] theorem length_ofWord (w : UInt32) : (ofWord w).length = 8 := rfl

/-- The value of one digit in either case; `none` for any other character. -/
def value? (c : Char) : Option Nat :=
  if '0' ≤ c ∧ c ≤ '9' then some (c.toNat - '0'.toNat)
  else if 'a' ≤ c ∧ c ≤ 'f' then some (c.toNat - 'a'.toNat + 10)
  else if 'A' ≤ c ∧ c ≤ 'F' then some (c.toNat - 'A'.toNat + 10)
  else none

/-- The bytes that a run of digits writes; `none` at an odd count or a character that
is no digit. -/
def bytes? : List Char → Option (List UInt8)
  | [] => some []
  | [_] => none
  | high :: low :: rest => do
    let h ← value? high
    let l ← value? low
    let bs ← bytes? rest
    pure (UInt8.ofNat (16 * h + l) :: bs)

end SealedLog.Hex
