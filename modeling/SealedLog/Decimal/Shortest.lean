/-!
# The shortest decimal of a binary number

A binary floating-point number stands for an interval of reals: those that round to it.
`shortest` finds the decimal number with the fewest digits in that interval and, among
those, the nearest to the number itself, an exact tie going to the even last digit.

The number is given as `m * 2 ^ q`. All arithmetic is on natural numbers: a grid of
decimals `c * 10 ^ k` is tried from coarse to fine, and on each grid only the two
neighbours of the number, since if any point of a grid lies in the interval then one
of these does.
-/

namespace SealedLog.Decimal

structure Fraction where
  num : Nat
  den : Nat

namespace Fraction

/-- The number `m * 2 ^ q`. -/
def ofBinary (m : Nat) (q : Int) : Fraction :=
  ⟨m * Nat.pow 2 q.toNat, Nat.pow 2 (-q).toNat⟩

/-- The number divided by `10 ^ k`. -/
def scale (x : Fraction) (k : Int) : Fraction :=
  ⟨x.num * Nat.pow 10 (-k).toNat, x.den * Nat.pow 10 k.toNat⟩

def below (x : Fraction) (orEqual : Bool) (n : Nat) : Bool :=
  if orEqual then x.num ≤ n * x.den else x.num < n * x.den

def above (x : Fraction) (orEqual : Bool) (n : Nat) : Bool :=
  if orEqual then n * x.den ≤ x.num else n * x.den < x.num

end Fraction

/-- The reals that round to a number: the number, the ends of the interval, and whether
the ends belong to it. -/
structure Interval where
  value : Fraction
  low : Fraction
  high : Fraction
  closed : Bool

namespace Interval

/-- The interval of `m * 2 ^ q`, whose lower neighbour is at half the distance of the
upper one if `narrow`. -/
def ofBinary (m : Nat) (q : Int) (narrow : Bool) : Interval where
  value := .ofBinary (4 * m) (q - 2)
  low := .ofBinary (if narrow then 4 * m - 1 else 4 * m - 2) (q - 2)
  high := .ofBinary (4 * m + 2) (q - 2)
  closed := m % 2 == 0

def contains (i : Interval) (k : Int) (c : Nat) : Bool :=
  (i.low.scale k).below i.closed c && (i.high.scale k).above i.closed c

/-- The point of the grid of step `10 ^ k` to use, if the interval has one. -/
def pick? (i : Interval) (k : Int) : Option Nat :=
  let v := i.value.scale k
  let c := v.num / v.den
  match i.contains k c, i.contains k (c + 1) with
  | false, false => none
  | true, false => some c
  | false, true => some (c + 1)
  | true, true =>
    let twice := 2 * v.num
    let middle := (2 * c + 1) * v.den
    if twice < middle then some c
    else if middle < twice then some (c + 1)
    else some (if c % 2 = 0 then c else c + 1)

/-- Tries `steps` grids from the one of step `10 ^ k` to finer ones. -/
def search (i : Interval) : (steps : Nat) → (k : Int) → Nat × Int
  | 0, k => (0, k)
  | steps + 1, k =>
    match i.pick? k with
    | some c => (c, k)
    | none => search i steps (k - 1)

end Interval

/-- The shortest decimal `(c, k)`, meaning `c * 10 ^ k`, that rounds to `m * 2 ^ q`. -/
def shortest (m : Nat) (q : Int) (narrow : Bool) : Nat × Int :=
  let i := Interval.ofBinary m q narrow
  let start := (Nat.toDigits 10 (i.value.num / i.value.den)).length
  i.search 800 start

end SealedLog.Decimal
