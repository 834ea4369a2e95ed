import SealedLog.Proofs.Json.Lexeme

/-!
# Texts of a value

The two forms in which a value is written, and all others that differ from them in space alone:
a `Layout` says where there is space, and `Layout.spell` is the text of a value in that layout.
So that texts can be taken apart from the front, what follows a value is part of its text: there
is nothing to reassociate when one value after another is read.
-/

namespace SealedLog.Json

open Reader

def Blank (bs : List UInt8) : Prop :=
  ∀ b ∈ bs, isSpace b = true

theorem blank_nil : Blank [] := fun _ h => absurd h List.not_mem_nil

/-- Where a text has space. -/
structure Layout where
  /-- Before an item or a member inside `depth` brackets, and before the bracket that closes
  what is inside one more. -/
  line : (depth : Nat) → List UInt8
  /-- Behind a colon. -/
  gap : List UInt8
  blank_line : ∀ depth, Blank (line depth)
  blank_gap : Blank gap

namespace Layout

mutual

/-- The text of a value inside `depth` brackets, and what follows it. -/
def spell (L : Layout) (depth : Nat) : Json → (rest : List UInt8) → List UInt8
  | .arr [], rest => ascii '[' :: ascii ']' :: rest
  | .arr (j :: js), rest =>
    ascii '[' :: (L.line (depth + 1) ++ L.spell (depth + 1) j
      (L.spellItems (depth + 1) js (L.line depth ++ ascii ']' :: rest)))
  | .obj [], rest => ascii '\x7b' :: ascii '\x7d' :: rest
  | .obj ((name, j) :: ms), rest =>
    ascii '\x7b' :: (L.line (depth + 1) ++ (bytesOf (strText name) ++
      ascii ':' :: (L.gap ++ L.spell (depth + 1) j
        (L.spellMembers (depth + 1) ms (L.line depth ++ ascii '\x7d' :: rest)))))
  | j, rest => bytesOf (scalarText j) ++ rest

/-- The items after the first, each with the comma before it. -/
def spellItems (L : Layout) (depth : Nat) : List Json → (rest : List UInt8) → List UInt8
  | [], rest => rest
  | j :: js, rest =>
    ascii ',' :: (L.line depth ++ L.spell depth j (L.spellItems depth js rest))

/-- The members after the first, each with the comma before it. -/
def spellMembers (L : Layout) (depth : Nat) :
    List (String × Json) → (rest : List UInt8) → List UInt8
  | [], rest => rest
  | (name, j) :: ms, rest =>
    ascii ',' :: (L.line depth ++ (bytesOf (strText name) ++
      ascii ':' :: (L.gap ++ L.spell depth j (L.spellMembers depth ms rest))))

end

/-- One item or member to a line. -/
def indented : Layout where
  line depth := bytesOf (newLine depth)
  gap := [32]
  blank_line depth := by
    intro b hb
    rw [newLine, bytesOf_append, bytesOf_ofList (List.replicate _ _), List.mem_append] at hb
    rcases hb with hb | hb
    · rw [List.mem_singleton.1 (show b ∈ [10] from hb)]
      rfl
    · obtain ⟨c, hc, hb⟩ := List.mem_flatMap.1 hb
      rw [(List.mem_replicate.1 hc).2] at hb
      rw [List.mem_singleton.1 (show b ∈ [32] from hb)]
      rfl
  blank_gap := by
    intro b hb
    rw [List.mem_singleton.1 hb]
    rfl

mutual

theorem bytesOf_prettyAt (depth : Nat) : ∀ (j : Json) (rest : List UInt8),
    bytesOf (prettyAt depth j) ++ rest = indented.spell depth j rest
  | .arr [], rest => rfl
  | .arr (j :: js), rest => by
      have hitem := bytesOf_prettyAt (depth + 1) j
      have hitems := bytesOf_prettyItems (depth + 1) js
      simp only [prettyAt, spell, bytesOf_append, List.append_assoc, ← hitem, ← hitems]
      rfl
  | .obj [], rest => rfl
  | .obj ((name, j) :: ms), rest => by
      have hmember := bytesOf_prettyAt (depth + 1) j
      have hmembers := bytesOf_prettyMembers (depth + 1) ms
      simp only [prettyAt, spell, bytesOf_append, List.append_assoc, ← hmember, ← hmembers]
      rfl
  | .null, rest => rfl
  | .bool _, rest => rfl
  | .int _, rest => rfl
  | .real _, rest => rfl
  | .str _, rest => rfl

theorem bytesOf_prettyItems (depth : Nat) : ∀ (js : List Json) (rest : List UInt8),
    bytesOf (prettyItems depth js) ++ rest = indented.spellItems depth js rest
  | [], rest => rfl
  | j :: js, rest => by
      have hitem := bytesOf_prettyAt depth j
      have hitems := bytesOf_prettyItems depth js
      simp only [prettyItems, spellItems, bytesOf_append, List.append_assoc, ← hitem, ← hitems]
      rfl

theorem bytesOf_prettyMembers (depth : Nat) : ∀ (ms : List (String × Json)) (rest : List UInt8),
    bytesOf (prettyMembers depth ms) ++ rest = indented.spellMembers depth ms rest
  | [], rest => rfl
  | (name, j) :: ms, rest => by
      have hmember := bytesOf_prettyAt depth j
      have hmembers := bytesOf_prettyMembers depth ms
      simp only [prettyMembers, spellMembers, bytesOf_append, List.append_assoc, ← hmember,
        ← hmembers]
      rfl

end

/-- What `pretty` writes is the text of the value in the layout with lines. -/
theorem bytesOf_pretty (j : Json) : bytesOf j.pretty = indented.spell 0 j [] := by
  rw [← bytesOf_prettyAt, List.append_nil, pretty]

/-- No space at all. -/
def tight : Layout where
  line _ := []
  gap := []
  blank_line _ := blank_nil
  blank_gap := blank_nil

mutual

theorem bytesOf_compact_append (depth : Nat) : ∀ (j : Json) (rest : List UInt8),
    bytesOf j.compact ++ rest = tight.spell depth j rest
  | .arr [], rest => rfl
  | .arr (j :: js), rest => by
      have hitem := bytesOf_compact_append (depth + 1) j
      have hitems := bytesOf_compactItems (depth + 1) js
      simp only [compact, spell, bytesOf_append, List.append_assoc, ← hitem, ← hitems]
      rfl
  | .obj [], rest => rfl
  | .obj ((name, j) :: ms), rest => by
      have hmember := bytesOf_compact_append (depth + 1) j
      have hmembers := bytesOf_compactMembers (depth + 1) ms
      simp only [compact, spell, bytesOf_append, List.append_assoc, ← hmember, ← hmembers]
      rfl
  | .null, rest => rfl
  | .bool _, rest => rfl
  | .int _, rest => rfl
  | .real _, rest => rfl
  | .str _, rest => rfl

theorem bytesOf_compactItems (depth : Nat) : ∀ (js : List Json) (rest : List UInt8),
    bytesOf (compactItems js) ++ rest = tight.spellItems depth js rest
  | [], rest => rfl
  | j :: js, rest => by
      have hitem := bytesOf_compact_append depth j
      have hitems := bytesOf_compactItems depth js
      simp only [compactItems, spellItems, bytesOf_append, List.append_assoc, ← hitem, ← hitems]
      rfl

theorem bytesOf_compactMembers (depth : Nat) : ∀ (ms : List (String × Json)) (rest : List UInt8),
    bytesOf (compactMembers ms) ++ rest = tight.spellMembers depth ms rest
  | [], rest => rfl
  | (name, j) :: ms, rest => by
      have hmember := bytesOf_compact_append depth j
      have hmembers := bytesOf_compactMembers depth ms
      simp only [compactMembers, spellMembers, bytesOf_append, List.append_assoc, ← hmember,
        ← hmembers]
      rfl

end

/-- What `compact` writes is the text of the value in the layout without space. -/
theorem bytesOf_compact (j : Json) : bytesOf j.compact = tight.spell 0 j [] := by
  rw [← bytesOf_compact_append, List.append_nil]

mutual

theorem suffix_spell (L : Layout) (depth : Nat) : ∀ (j : Json) (rest : List UInt8),
    rest <:+ L.spell depth j rest
  | .arr [], rest => ⟨[_, _], rfl⟩
  | .arr (j :: js), rest => by
      have hitems := (suffix_spellItems L (depth + 1) js (L.line depth ++ ascii ']' :: rest)).trans
        (suffix_spell L (depth + 1) j _)
      refine List.IsSuffix.trans ?_ (hitems.trans ?_)
      · exact (List.suffix_cons _ rest).trans (List.suffix_append _ _)
      · rw [spell]
        exact (List.suffix_append _ _).trans (List.suffix_cons _ _)
  | .obj [], rest => ⟨[_, _], rfl⟩
  | .obj ((name, j) :: ms), rest => by
      have hmembers := (suffix_spellMembers L (depth + 1) ms
        (L.line depth ++ ascii '\x7d' :: rest)).trans (suffix_spell L (depth + 1) j _)
      refine List.IsSuffix.trans ?_ (hmembers.trans ?_)
      · exact (List.suffix_cons _ rest).trans (List.suffix_append _ _)
      · rw [spell]
        exact ((List.suffix_append _ _).trans (List.suffix_cons _ _)).trans
          ((List.suffix_append _ _).trans ((List.suffix_append _ _).trans (List.suffix_cons _ _)))
  | .null, rest => List.suffix_append _ _
  | .bool _, rest => List.suffix_append _ _
  | .int _, rest => List.suffix_append _ _
  | .real _, rest => List.suffix_append _ _
  | .str _, rest => List.suffix_append _ _

theorem suffix_spellItems (L : Layout) (depth : Nat) : ∀ (js : List Json) (rest : List UInt8),
    rest <:+ L.spellItems depth js rest
  | [], rest => List.suffix_refl rest
  | j :: js, rest => by
      refine (suffix_spellItems L depth js rest).trans ((suffix_spell L depth j _).trans ?_)
      rw [spellItems]
      exact (List.suffix_append _ _).trans (List.suffix_cons _ _)

theorem suffix_spellMembers (L : Layout) (depth : Nat) :
    ∀ (ms : List (String × Json)) (rest : List UInt8), rest <:+ L.spellMembers depth ms rest
  | [], rest => List.suffix_refl rest
  | (name, j) :: ms, rest => by
      refine (suffix_spellMembers L depth ms rest).trans ((suffix_spell L depth j _).trans ?_)
      rw [spellMembers]
      exact ((List.suffix_append _ _).trans (List.suffix_cons _ _)).trans
        ((List.suffix_append _ _).trans ((List.suffix_append _ _).trans (List.suffix_cons _ _)))

end

end Layout

end SealedLog.Json
