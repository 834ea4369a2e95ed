import SealedLog.Digest.Sha256

/-!
# Hashes of leaves and inner nodes

A leaf hashes its blocks run together and an inner node hashes the hash texts of its
children run together, with no separator and no mark that tells the two apart. A
recorded root can therefore be recomputed with nothing but a SHA-256 tool.

Everything that is ever hashed goes through `ofText`, so a statement about two trees
can name the two texts on which it turns.
-/

namespace SealedLog

/-- A hash as it is carried and stored: a text. The hashes that this library computes
are 64 lowercase hexadecimal digits; one that was read from outside may be any text. -/
abbrev Hash := String

namespace Digest

def ofText (text : String) : Hash :=
  Sha256.hex text.toUTF8

/-- The hash of a leaf: of its blocks run together. -/
def ofBlocks (blocks : List String) : Hash :=
  ofText (String.join blocks)

/-- The hash of an inner node: of its children's hashes run together, a missing right
child counting as the empty text. -/
def ofChildren (left : Hash) (right : Option Hash) : Hash :=
  ofText (left ++ right.getD "")

/-- The root of a tree that holds no leaves: the hash of the empty text. -/
def emptyRoot : Hash :=
  "e3b0c44298fc1c149afbf4c8996fb92427ae41e4649b934ca495991b7852b855"

theorem length_ofText (text : String) : (ofText text).length = 64 :=
  Sha256.length_hex _

end Digest

end SealedLog
