/-!
# JSON values

The values that texts in JSON stand for. Integers that fit into 64 bits, signed or
unsigned, are kept exactly; every other number is a double-precision one and kept as
its bits, so that equality of values is decidable and says what it should for `-0.0`.

The members of an object are a list. A value read from a text lists them as they came,
repetitions included; `canonical` sorts them by name at every depth and keeps the last
of those with one name. Values that the library builds list them in the order in which
they are to be written.
-/

namespace SealedLog

inductive Json where
  | null
  | bool (b : Bool)
  /-- An integer from `-2 ^ 63` up to but not including `2 ^ 64`. -/
  | int (i : Int)
  /-- The double-precision number of these bits. -/
  | real (bits : UInt64)
  | str (s : String)
  | arr (items : List Json)
  | obj (members : List (String × Json))
deriving Repr, Inhabited

namespace Json

def nat (n : Nat) : Json :=
  .int n

def strOrNull (s? : Option String) : Json :=
  s?.elim .null .str

/-- Puts a member at its place among members sorted by name, in place of one of the
same name. -/
def insertMember (name : String) (value : Json) :
    List (String × Json) → List (String × Json)
  | [] => [(name, value)]
  | (n, v) :: rest =>
    if name < n then (name, value) :: (n, v) :: rest
    else if name = n then (name, value) :: rest
    else (n, v) :: insertMember name value rest

mutual

/-- The value with the members of every object sorted by name, the last of each name
kept. -/
def canonical : Json → Json
  | .arr items => .arr (canonicalItems items)
  | .obj members => .obj (canonicalMembers [] members)
  | j => j

def canonicalItems : List Json → List Json
  | [] => []
  | j :: rest => canonical j :: canonicalItems rest

/-- Inserts the members one after the other into `done`. -/
def canonicalMembers (done : List (String × Json)) :
    List (String × Json) → List (String × Json)
  | [] => done
  | (name, j) :: rest => canonicalMembers (insertMember name (canonical j) done) rest

end

mutual

/-- Whether two values are the same, member by member and in the same order. -/
def equal : Json → Json → Bool
  | .null, .null => true
  | .bool a, .bool b => a == b
  | .int a, .int b => a == b
  | .real a, .real b => a == b
  | .str a, .str b => a == b
  | .arr a, .arr b => equalItems a b
  | .obj a, .obj b => equalMembers a b
  | _, _ => false

def equalItems : List Json → List Json → Bool
  | [], [] => true
  | a :: as, b :: bs => equal a b && equalItems as bs
  | _, _ => false

def equalMembers : List (String × Json) → List (String × Json) → Bool
  | [], [] => true
  | (m, a) :: as, (n, b) :: bs => m == n && equal a b && equalMembers as bs
  | _, _ => false

end

instance : BEq Json := ⟨equal⟩

end Json

end SealedLog
