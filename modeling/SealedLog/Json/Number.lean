import SealedLog.Decimal.Shortest
import SealedLog.Json.Value

/-!
# Numbers in JSON

How a number of double precision is written, and which one a decimal in a text stands
for. It is written with the fewest digits that read back; positionally if its first
digit stands for a power of ten from `-5` to `15`, with `.0` if it is whole, and with
an exponent otherwise, which shows its sign. A decimal is read by scaling its digits,
as a double, by a power of ten: one rounding for the digits and one for the scaling.
-/

namespace SealedLog.Json

def padRight (ds : List Char) (n : Nat) : List Char :=
  ds ++ List.replicate n '0'

/-- The decimal of the digits `ds` whose first digit stands for `10 ^ e`. -/
def positional (ds : List Char) (e : Int) : List Char :=
  if e < 0 then ['0', '.'] ++ List.replicate (-e - 1).toNat '0' ++ ds
  else
    let whole := e.toNat + 1
    if ds.length ≤ whole then padRight ds (whole - ds.length) ++ ['.', '0']
    else ds.take whole ++ ['.'] ++ ds.drop whole

/-- The same decimal with one digit before the point and an exponent. -/
def scientific (ds : List Char) (e : Int) : List Char :=
  ds.take 1 ++ (if ds.length ≤ 1 then [] else '.' :: ds.drop 1) ++ ['e'] ++
    [if e < 0 then '-' else '+'] ++ Nat.toDigits 10 e.natAbs

/-- The text of a positive decimal `c * 10 ^ k`. -/
def decimalText (c : Nat) (k : Int) : List Char :=
  let ds := Nat.toDigits 10 c
  let e := k + ds.length - 1
  if -5 ≤ e ∧ e ≤ 15 then positional ds e else scientific ds e

/-- The text of the double of these bits, which is finite. -/
def realText (bits : UInt64) : String :=
  let sign := if bits >>> 63 = 0 then [] else ['-']
  let exponent := ((bits >>> 52) &&& 0x7ff).toNat
  let fraction := (bits &&& 0xfffffffffffff).toNat
  let digits :=
    if exponent = 0 then
      if fraction = 0 then ['0', '.', '0']
      else
        let (c, k) := Decimal.shortest fraction (-1074) false
        decimalText c k
    else
      let (c, k) := Decimal.shortest (Nat.pow 2 52 + fraction) ((exponent : Int) - 1075)
        (fraction == 0 && 1 < exponent)
      decimalText c k
  String.ofList (sign ++ digits)

/-- `10 ^ n` as a double, `n ≤ 308`. -/
def powerOfTen (n : Nat) : Float :=
  Float.ofScientific 1 false n

/-- `x / 10 ^ n`, the power being divided out in parts that a double can hold, at most
`parts` of them. -/
def scaleDown (x : Float) (n : Nat) : (parts : Nat) → Float
  | 0 => 0
  | parts + 1 =>
    if n ≤ 308 then x / powerOfTen n
    else if x == 0 then x
    else scaleDown (x / powerOfTen 308) (n - 308) parts

/-- The bits of the double that `significand * 10 ^ exponent` is read as; none if that
is too large for a double. -/
def realOfDecimal? (positive : Bool) (significand : Nat) (exponent : Int) : Option UInt64 :=
  let x := (UInt64.ofNat significand).toFloat
  let scaled? : Option Float :=
    if exponent < 0 then some (scaleDown x exponent.natAbs 4)
    else if exponent ≤ 308 then
      let y := x * powerOfTen exponent.toNat
      if y.isInf then none else some y
    else if x == 0 then some x
    else none
  scaled?.map fun y => (if positive then y else -y).toBits

end SealedLog.Json
