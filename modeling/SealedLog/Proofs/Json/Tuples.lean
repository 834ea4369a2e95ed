import SealedLog.Json.Union
import SealedLog.Proofs.Json.Giving

/-!
# What records give

A record that is read from a text, be it from an object or from an array, has in each of its
fields a value that the reader of the field gives, or the one that stands for a missing field:
`given_of_gives_record`. The fields of an alternative of a union are read from values that were
taken before, and for these the same holds. So `Given` is about any way in which single values
are read, of which it has to be known only that mapping a reader maps what it gives: `Giving`.
-/

namespace SealedLog.Json

/-- What a decoder gives that goes in steps. -/
theorem of_decoder_bind {α β : Type} {read : Decoder α} {f : α → Decoder β} {scope : Scope} {b : β}
    (h : Reader.Gives ((read >>= f) scope) b) :
    ∃ a, Reader.Gives (read scope) a ∧ Reader.Gives (f a scope) b :=
  Reader.Gives.of_bind h

/-- A way in which values are read, with what its readers give. -/
structure Giving (R : Type → Type) [Functor R] where
  gives : {α : Type} → R α → α → Prop
  of_map : ∀ {α β : Type} {f : α → β} {read : R α} {b : β}, gives (f <$> read) b →
    ∃ a, b = f a ∧ gives read a

/-- The readers of a text, where `n` brackets may be opened. -/
def decoding (n : Nat) : Giving Decoder where
  gives := Gives n
  of_map := by
    rintro α β f read b ⟨scope, hdepth, h⟩
    obtain ⟨a, rfl, ha⟩ := Reader.Gives.of_map h
    exact ⟨a, rfl, scope, hdepth, ha⟩

/-- The readers of values that were taken before. -/
def inspecting : Giving Inspector where
  gives read a := ∃ j, read j = .ok a
  of_map := by
    rintro α β f read b ⟨j, h⟩
    change Except.map f (read j) = _ at h
    cases hread : read j with
    | error _ =>
        rw [hread] at h
        cases h
    | ok a =>
        rw [hread] at h
        cases h
        exact ⟨a, rfl, j, hread⟩

namespace Fields

variable {R : Type → Type} [Functor R] {γ : Type} {G : Giving R}

/-- Each part of a tuple is given by the reader of its field, or stands for a missing field. -/
def Given (G : Giving R) : {γ : Type} → Fields R γ → γ → Prop
  | _, .nil, _ => True
  | _, .cons f rest, (a, tuple) => (G.gives f.read a ∨ f.absent? = some a) ∧ rest.Given G tuple

/-- A field that may not be missing is given by its reader. -/
theorem gives_of_given_field {α : Type} {name : String} {read : R α} {a : α}
    (h : G.gives (field name read).read a ∨ (field name read).absent? = some a) :
    G.gives read a := by
  rcases h with h | h
  · exact h
  · cases h

/-- The fields that have come in are given by their readers. -/
def DraftGiven (G : Giving R) : {γ : Type} → (fs : Fields R γ) → fs.Draft → Prop
  | _, .nil, _ => True
  | _, .cons (α := α) f rest, draft =>
    let (slot?, draft) : Option α × rest.Draft := draft
    (∀ a, slot? = some a → G.gives f.read a) ∧ rest.DraftGiven G draft

theorem draftGiven_blank (fs : Fields R γ) : fs.DraftGiven G fs.blank := by
  induction fs with
  | nil => trivial
  | cons f rest ih => exact ⟨by rintro _ ⟨⟩, ih⟩

theorem draftGiven_of_offer {fs : Fields R γ} {name : String} {draft draft' : fs.Draft}
    {next : R fs.Draft} (h : fs.DraftGiven G draft) (hoffer : fs.offer name draft = .read next)
    (hnext : G.gives next draft') : fs.DraftGiven G draft' := by
  induction fs with
  | nil => cases hoffer
  | @cons α β f rest ih =>
      obtain ⟨slot?, draft⟩ : Option α × rest.Draft := draft
      obtain ⟨hslot, hdraft⟩ := h
      simp only [offer] at hoffer
      split at hoffer
      · cases slot? with
        | some _ => cases hoffer
        | none =>
            cases hoffer
            obtain ⟨a, rfl, ha⟩ := G.of_map hnext
            refine ⟨?_, hdraft⟩
            rintro _ ⟨⟩
            exact ha
      · split at hoffer
        · cases hoffer
        · cases hoffer
        next next hrest =>
          cases hoffer
          obtain ⟨draft', rfl, hdraft'⟩ := G.of_map hnext
          exact ⟨hslot, ih hdraft hrest hdraft'⟩

theorem given_of_finish {fs : Fields R γ} {draft : fs.Draft} {tuple : γ}
    (h : fs.DraftGiven G draft) (hfinish : fs.finish draft = .ok tuple) : fs.Given G tuple := by
  induction fs with
  | nil => trivial
  | @cons α β f rest ih =>
      obtain ⟨slot?, draft⟩ : Option α × rest.Draft := draft
      obtain ⟨hslot, hdraft⟩ := h
      simp only [finish] at hfinish
      split at hfinish
      · cases hfinish
      next a ha =>
        change Except.map _ (rest.finish draft) = _ at hfinish
        cases hrest : rest.finish draft with
        | error _ =>
            rw [hrest] at hfinish
            cases hfinish
        | ok tuple =>
            rw [hrest] at hfinish
            cases hfinish
            refine ⟨?_, ih hdraft hrest⟩
            cases slot? with
            | none => exact Or.inr ha
            | some a' => exact Or.inl (hslot a ha)

/-! ### Fields in a text -/

section Decoding

variable {fs : Fields Decoder γ} {scope : Scope}

theorem draftGiven_of_takeMembers {budget : Nat} {first : Bool} {draft draft' : fs.Draft}
    (h : Reader.Gives (fs.takeMembers budget first draft scope) draft')
    (hdraft : fs.DraftGiven (decoding scope.depth) draft) :
    fs.DraftGiven (decoding scope.depth) draft' := by
  induction budget generalizing first draft with
  | zero => exact (Reader.not_gives_failNext h).elim
  | succ budget ih =>
      obtain ⟨more, -, h⟩ := of_decoder_bind h
      cases more with
      | false =>
          rw [Reader.Gives.of_pure h]
          exact hdraft
      | true =>
          obtain ⟨name, -, h⟩ := of_decoder_bind h
          cases hoffer : fs.offer name draft with
          | duplicate _ =>
              simp only [hoffer] at h
              exact (Reader.not_gives_failUnplaced h).elim
          | unknown =>
              simp only [hoffer] at h
              obtain ⟨-, -, h⟩ := of_decoder_bind h
              obtain ⟨-, -, h⟩ := of_decoder_bind h
              exact ih h hdraft
          | read next =>
              simp only [hoffer] at h
              obtain ⟨-, -, h⟩ := of_decoder_bind h
              obtain ⟨draft, hnext, h⟩ := of_decoder_bind h
              exact ih h (draftGiven_of_offer hdraft hoffer ⟨scope, rfl, hnext⟩)

theorem given_of_takeObject {tuple : γ} (h : Reader.Gives (fs.takeObject scope) tuple) :
    fs.Given (decoding scope.depth) tuple := by
  obtain ⟨_, -, h⟩ := of_decoder_bind h
  obtain ⟨draft, hdraft, h⟩ := of_decoder_bind h
  exact given_of_finish (draftGiven_of_takeMembers hdraft (draftGiven_blank fs)) h.of_ofExcept

theorem given_of_takeList {expected : String} {place : Nat} {tuple : γ}
    (h : Reader.Gives (fs.takeList expected place scope) tuple) :
    fs.Given (decoding scope.depth) tuple := by
  induction fs generalizing place with
  | nil => trivial
  | cons f rest ih =>
      obtain ⟨more, -, h⟩ := of_decoder_bind h
      cases more with
      | true =>
          obtain ⟨a, ha, h⟩ := of_decoder_bind h
          obtain ⟨tuple, htuple, h⟩ := of_decoder_bind h
          rw [Reader.Gives.of_pure h]
          exact ⟨Or.inl ⟨scope, rfl, ha⟩, ih htuple⟩
      | false =>
          cases hend : Field.afterEnd? f with
          | none =>
              simp only [Bool.false_eq_true, if_false, hend] at h
              exact (Reader.not_gives_failUnplaced h).elim
          | some a =>
              simp only [Bool.false_eq_true, if_false, hend] at h
              obtain ⟨tuple, htuple, h⟩ := of_decoder_bind h
              rw [Reader.Gives.of_pure h]
              refine ⟨Or.inr ?_, ih htuple⟩
              rw [Field.afterEnd?] at hend
              split at hend
              · exact hend
              · cases hend

end Decoding

/-! ### Fields in values that were taken before -/

section Inspecting

variable {fs : Fields Inspector γ}

theorem draftGiven_of_collect {members : List (String × Json)} {draft draft' : fs.Draft}
    (h : fs.collect members draft = .ok draft') (hdraft : fs.DraftGiven inspecting draft) :
    fs.DraftGiven inspecting draft' := by
  induction members generalizing draft with
  | nil =>
      cases h
      exact hdraft
  | cons m members ih =>
      obtain ⟨name, j⟩ := m
      rw [collect] at h
      cases hoffer : fs.offer name draft with
      | unknown =>
          simp only [hoffer] at h
          exact ih h hdraft
      | duplicate _ =>
          simp only [hoffer] at h
          cases h
      | read next =>
          simp only [hoffer] at h
          cases hnext : next j with
          | error _ =>
              rw [hnext] at h
              cases h
          | ok draft =>
              rw [hnext] at h
              exact ih h (draftGiven_of_offer hdraft hoffer ⟨j, hnext⟩)

theorem given_of_ofMembers {members : List (String × Json)} {tuple : γ}
    (h : fs.ofMembers members = .ok tuple) : fs.Given inspecting tuple := by
  rw [ofMembers] at h
  cases hcollect : fs.collect members fs.blank with
  | error _ =>
      rw [hcollect] at h
      cases h
  | ok draft =>
      rw [hcollect] at h
      exact given_of_finish (draftGiven_of_collect hcollect (draftGiven_blank fs)) h

theorem given_of_ofItems {expected : String} {place left : Nat} {items : List Json} {tuple : γ}
    (h : fs.ofItems expected place items = .ok (tuple, left)) : fs.Given inspecting tuple := by
  induction fs generalizing place items with
  | nil => trivial
  | cons f rest ih =>
      cases items with
      | nil => cases h
      | cons j items =>
          simp only [ofItems] at h
          cases hread : f.read j with
          | error _ =>
              rw [hread] at h
              cases h
          | ok a =>
              rw [hread] at h
              cases hrest : rest.ofItems expected (place + 1) items with
              | error _ =>
                  simp only [bind, Except.bind, hrest] at h
                  cases h
              | ok pair =>
                  simp only [bind, Except.bind, hrest] at h
                  cases h
                  exact ⟨Or.inl ⟨j, hread⟩, ih hrest⟩

end Inspecting

end Fields

section Leaves

variable {α : Type} {n limit : Nat} {expected : String} {a : α}

open Reader

theorem exists_of_gives_textAs {make : String → Except Cause α}
    (h : Json.Gives n (textAs expected make) a) : ∃ text, make text = .ok a := by
  obtain ⟨scope, -, h⟩ := h
  obtain ⟨next?, -, h⟩ := of_decoder_bind h
  cases next? with
  | none => exact (not_gives_mismatch expected h).elim
  | some b =>
      dsimp only at h
      split at h
      · obtain ⟨text, -, h⟩ := Reader.Gives.of_bind (Reader.Gives.of_placed h)
        exact ⟨text, h.of_ofExcept⟩
      · exact (not_gives_mismatch expected h).elim

/-- The number that a value is made into is below the limit. -/
theorem lt_of_natOf {j : Json} {v : Nat} (h : natOf limit expected j = .ok v) : v < limit := by
  cases j with
  | int i =>
      rw [natOf] at h
      split at h
      next hrange =>
        cases h
        omega
      · cases h
  | _ => cases h

theorem lt_of_gives_natBelow {v : Nat} (h : Json.Gives n (natBelow limit expected) v) :
    v < limit := by
  obtain ⟨scope, -, h⟩ := h
  obtain ⟨next?, -, h⟩ := of_decoder_bind h
  cases next? with
  | none => exact (not_gives_mismatch expected h).elim
  | some b =>
      dsimp only at h
      split at h
      · obtain ⟨j, -, h⟩ := Reader.Gives.of_bind (Reader.Gives.of_placed h)
        exact lt_of_natOf h.of_ofExcept
      · exact (not_gives_mismatch expected h).elim

theorem gives_of_nested {read : Decoder α} (h : Json.Gives n (nested read) a) :
    ∃ m, n = m + 1 ∧ Json.Gives m read a := by
  obtain ⟨scope, rfl, h⟩ := h
  rw [nested] at h
  split at h
  · exact (not_gives_failNext h).elim
  next depth hdepth => exact ⟨depth, hdepth, _, rfl, h⟩

theorem gives_of_mem_list {item : Decoder α} {as : List α} (h : Json.Gives n (list item) as) :
    ∃ m, n = m + 1 ∧ ∀ a ∈ as, Json.Gives m item a := by
  obtain ⟨scope, rfl, h⟩ := h
  obtain ⟨next?, -, h⟩ := of_decoder_bind h
  cases next? with
  | none => exact (not_gives_mismatch _ h).elim
  | some b =>
      dsimp only at h
      split at h
      · obtain ⟨m, hm, inner, rfl, h⟩ := gives_of_nested ⟨scope, rfl, h⟩
        obtain ⟨-, -, h⟩ := Reader.Gives.of_bind h
        refine ⟨inner.depth, hm, fun a ha => ⟨inner, rfl, ?_⟩⟩
        exact gives_of_mem_itemsFrom h.of_closedBy (fun a ha => absurd ha List.not_mem_nil) a ha
      · exact (not_gives_mismatch _ h).elim

/-- What a record consists of. -/
theorem given_of_gives_record {γ : Type} {name : String} {fs : Fields Decoder γ} {make : γ → α}
    (h : Json.Gives n (record name fs make) a) :
    ∃ m tuple, n = m + 1 ∧ a = make tuple ∧ fs.Given (decoding m) tuple := by
  obtain ⟨scope, rfl, h⟩ := h
  obtain ⟨next?, -, h⟩ := of_decoder_bind h
  cases next? with
  | none => exact (not_gives_mismatch _ h).elim
  | some b =>
      dsimp only at h
      split at h
      · obtain ⟨m, hm, inner, rfl, h⟩ := gives_of_nested ⟨scope, rfl, h⟩
        obtain ⟨-, -, h⟩ := Reader.Gives.of_bind h
        obtain ⟨tuple, rfl, htuple⟩ := Reader.Gives.of_map h
        exact ⟨inner.depth, tuple, hm, rfl, Fields.given_of_takeList htuple.of_closedBy⟩
      · split at h
        · obtain ⟨m, hm, inner, rfl, h⟩ := gives_of_nested ⟨scope, rfl, h⟩
          obtain ⟨-, -, h⟩ := Reader.Gives.of_bind h
          obtain ⟨tuple, rfl, htuple⟩ := Reader.Gives.of_map h
          exact ⟨inner.depth, tuple, hm, rfl, Fields.given_of_takeObject htuple.of_closedBy⟩
        · exact (not_gives_mismatch _ h).elim

end Leaves

end SealedLog.Json
