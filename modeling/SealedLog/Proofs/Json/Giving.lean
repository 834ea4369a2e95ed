import SealedLog.Proofs.Json.Values

/-!
# What readers give

`Gives read a` says that a reader gives a value for some text. It is the other half of `Reads`:
what is so of everything that a reader gives is what may be relied on when a value that came out
of a text is written again. A reader that goes in steps gives what its last step gives, for some
outcomes of the steps before (`Gives.of_bind`), so what a reader gives is found by following its
steps, and never by looking at the text.

The value reader gives values the integers of which fit into 64 bits, nested no deeper than it
may open brackets: `fits_of_gives_value`.
-/

namespace SealedLog.Json

namespace Reader

variable {α β : Type} {a : α} {b : β} {read : Reader α} {cause : Cause}

/-- The reader gives the value for some text. -/
def Gives (read : Reader α) (a : α) : Prop :=
  ∃ s s', read s = .ok a s'

theorem Gives.of_bind {f : α → Reader β} (h : (read >>= f).Gives b) :
    ∃ a, read.Gives a ∧ (f a).Gives b := by
  obtain ⟨s, s', h⟩ := h
  simp only [bind, EStateM.bind] at h
  cases hread : read s with
  | error _ _ =>
      rw [hread] at h
      cases h
  | ok a s₁ =>
      rw [hread] at h
      exact ⟨a, ⟨s, s₁, hread⟩, s₁, s', h⟩

theorem Gives.of_pure {a' : α} (h : (pure a : Reader α).Gives a') : a' = a := by
  obtain ⟨s, s', h⟩ := h
  cases h
  rfl

theorem Gives.of_map {f : α → β} (h : (f <$> read).Gives b) : ∃ a, b = f a ∧ read.Gives a := by
  obtain ⟨s, s', h⟩ := h
  change EStateM.map f read s = _ at h
  cases hread : read s with
  | error _ _ =>
      simp only [EStateM.map, hread] at h
      cases h
  | ok a s₁ =>
      simp only [EStateM.map, hread] at h
      cases h
      exact ⟨a, rfl, s, _, hread⟩

theorem Gives.of_ite {c : Prop} [Decidable c] {read' : Reader α}
    (h : (if c then read else read').Gives a) : read.Gives a ∨ read'.Gives a := by
  split at h
  · exact Or.inl h
  · exact Or.inr h

theorem Gives.of_placed (h : (placed read).Gives a) : read.Gives a := by
  obtain ⟨s, s', h⟩ := h
  simp only [placed] at h
  split at h
  next hread =>
    cases h
    exact ⟨s, _, hread⟩
  · cases h

theorem Gives.of_closedBy {close : Reader Unit} (h : (read.closedBy close).Gives a) :
    read.Gives a := by
  obtain ⟨s, s', h⟩ := h
  simp only [closedBy] at h
  split at h
  next hread =>
    split at h
    · cases h
      exact ⟨s, _, hread⟩
    · cases h
  · split at h <;> cases h

theorem Gives.of_ofExcept {x : Except Cause α} (h : (ofExcept x).Gives a) : x = .ok a := by
  obtain ⟨s, s', h⟩ := h
  cases x with
  | error _ => cases h
  | ok a' =>
      cases h
      rfl

theorem not_gives_failHere : ¬ (failHere cause : Reader α).Gives a := by
  rintro ⟨s, s', h⟩
  cases h

theorem not_gives_failNext : ¬ (failNext cause : Reader α).Gives a := by
  rintro ⟨s, s', h⟩
  cases h

theorem not_gives_failUnplaced : ¬ (failUnplaced cause : Reader α).Gives a := by
  rintro ⟨s, s', h⟩
  cases h

/-- A value of another kind than the one that was asked for is never given. -/
theorem not_gives_mismatch (expected : String) : ¬ (mismatch expected : Reader α).Gives a := by
  intro h
  obtain ⟨next?, -, h⟩ := h.of_placed.of_bind
  cases next? with
  | none => exact not_gives_failNext h
  | some b =>
      dsimp only at h
      split at h
      · exact not_gives_failUnplaced h
      · split at h
        · exact not_gives_failUnplaced h
        · split at h
          · obtain ⟨j, -, h⟩ := h.of_bind
            exact not_gives_failUnplaced h
          · exact not_gives_failNext h

/-! ### Numbers -/

/-- The values that the number reader may give. -/
inductive NumberFits : Json → Prop
  | int {i : Int} (fits : IntFits i) : NumberFits (.int i)
  | real (bits : UInt64) : NumberFits (.real bits)

variable {j : Json} {positive : Bool} {significand raised : Nat}

theorem numberFits_of_realOf {exponent : Int}
    (h : (realOf positive significand exponent).Gives j) : NumberFits j := by
  rw [realOf] at h
  split at h
  · rw [h.of_pure]
    exact .real _
  · exact (not_gives_failHere h).elim

theorem numberFits_of_exponentPart {start : Int}
    (h : (exponentPart positive significand start).Gives j) : NumberFits j := by
  obtain ⟨-, -, h⟩ := h.of_bind
  obtain ⟨sign?, -, h⟩ := h.of_bind
  extract_lets signed at h
  have hsigned : ∀ upward, (signed upward).Gives j → NumberFits j := by
    intro upward h
    obtain ⟨next?, -, h⟩ := h.of_bind
    cases next? with
    | none => exact (not_gives_failHere h).elim
    | some b =>
        dsimp only at h
        split at h
        · exact (not_gives_failHere h).elim
        · obtain ⟨ds, -, h⟩ := h.of_bind
          split at h
          · exact numberFits_of_realOf h
          · rcases Gives.of_ite h with ⟨s, s', h⟩ | h
            · cases h
            · exact numberFits_of_realOf h
  cases sign? with
  | none => exact hsigned true h
  | some b =>
      dsimp only at h
      split at h
      · obtain ⟨-, -, h⟩ := h.of_bind
        exact hsigned true h
      · split at h
        · obtain ⟨-, -, h⟩ := h.of_bind
          exact hsigned false h
        · exact hsigned true h

theorem numberFits_of_fractionPart (h : (fractionPart positive significand raised).Gives j) :
    NumberFits j := by
  obtain ⟨-, -, h⟩ := h.of_bind
  obtain ⟨ds, -, h⟩ := h.of_bind
  split at h
  · obtain ⟨next?, -, h⟩ := h.of_bind
    cases next? with
    | none => exact (not_gives_failNext h).elim
    | some b => exact (not_gives_failNext h).elim
  · obtain ⟨next?, -, h⟩ := h.of_bind
    cases next? with
    | none => exact numberFits_of_realOf h
    | some b =>
        dsimp only at h
        split at h
        · exact numberFits_of_exponentPart h
        · exact numberFits_of_realOf h

theorem numberFits_of_integerOf (hsize : significand < UInt64.size)
    (h : (integerOf positive significand).Gives j) : NumberFits j := by
  change significand < 18446744073709551616 at hsize
  rw [integerOf] at h
  split at h
  · rw [h.of_pure]
    refine .int ⟨?_, ?_⟩ <;> omega
  · split at h
    next hrange =>
      obtain ⟨-, hle⟩ := hrange
      change significand ≤ 9223372036854775808 at hle
      rw [h.of_pure]
      refine .int ⟨?_, ?_⟩ <;> omega
    · exact numberFits_of_realOf h

theorem numberFits_of_afterDigits {s : Significand} (hsize : s.value < UInt64.size)
    (h : (afterDigits positive s).Gives j) : NumberFits j := by
  obtain ⟨next?, -, h⟩ := h.of_bind
  cases next? with
  | none =>
      dsimp only at h
      split at h
      · exact numberFits_of_integerOf hsize h
      · exact numberFits_of_realOf h
  | some b =>
      dsimp only at h
      split at h
      · exact numberFits_of_fractionPart h
      · split at h
        · exact numberFits_of_exponentPart h
        · split at h
          · exact numberFits_of_integerOf hsize h
          · exact numberFits_of_realOf h

/-- Digits are collected only as long as the number fits. -/
theorem value_ofDigits_lt {start : Nat} (ds : List UInt8) (h : start < UInt64.size) :
    (Significand.ofDigits ds start).value < UInt64.size := by
  rw [Significand.ofDigits]
  refine List.foldlRecOn ds _ (motive := fun s : Significand => s.value < UInt64.size) h ?_
  intro s hs d _
  dsimp only
  split
  next hfit => exact hfit.2
  · exact hs

theorem numberFits_of_unsignedNumber (h : (unsignedNumber positive).Gives j) : NumberFits j := by
  have hzero : 0 < UInt64.size := by decide
  obtain ⟨next?, -, h⟩ := h.of_bind
  cases next? with
  | none => exact (not_gives_failHere h).elim
  | some b =>
      dsimp only at h
      split at h
      · obtain ⟨next?, -, h⟩ := h.of_bind
        cases next? with
        | none => exact numberFits_of_afterDigits hzero h
        | some d =>
            dsimp only at h
            split at h
            · exact (not_gives_failNext h).elim
            · exact numberFits_of_afterDigits hzero h
      · split at h
        · obtain ⟨ds, -, h⟩ := h.of_bind
          have hdigit : digitValue b < UInt64.size :=
            Nat.lt_of_le_of_lt (Nat.sub_le _ _) (Nat.lt_trans b.toNat_lt (by decide))
          exact numberFits_of_afterDigits (value_ofDigits_lt ds hdigit) h
        · exact (not_gives_failHere h).elim

theorem numberFits_of_number (h : number.Gives j) : NumberFits j := by
  obtain ⟨next?, -, h⟩ := h.of_bind
  cases next? with
  | none => exact (not_gives_failNext h).elim
  | some b =>
      dsimp only at h
      split at h
      · obtain ⟨-, -, h⟩ := h.of_bind
        exact numberFits_of_unsignedNumber h
      · exact numberFits_of_unsignedNumber h

/-! ### Values -/

/-- The values that may be given for a text that starts with no bracket. -/
structure ScalarFits (j : Json) : Prop where
  isScalar : j.IsScalar
  intFits : ∀ i, j = .int i → IntFits i

theorem scalarFits_of_literalFrom {b : UInt8} (h : (literalFrom b).Gives j) : ScalarFits j := by
  obtain ⟨-, -, h⟩ := h.of_bind
  split at h
  · obtain ⟨-, -, h⟩ := h.of_bind
    rw [h.of_pure]
    exact ⟨trivial, by rintro _ ⟨⟩⟩
  · split at h
    · obtain ⟨-, -, h⟩ := h.of_bind
      rw [h.of_pure]
      exact ⟨trivial, by rintro _ ⟨⟩⟩
    · obtain ⟨-, -, h⟩ := h.of_bind
      rw [h.of_pure]
      exact ⟨trivial, by rintro _ ⟨⟩⟩

theorem scalarFits_of_scalarFrom {b : UInt8} (h : (scalarFrom b).Gives j) : ScalarFits j := by
  rw [scalarFrom] at h
  split at h
  · obtain ⟨text, -, h⟩ := h.of_bind
    rw [h.of_pure]
    exact ⟨trivial, by rintro _ ⟨⟩⟩
  · split at h
    · cases numberFits_of_number h with
      | int hfits => exact ⟨trivial, by rintro _ ⟨⟩; exact hfits⟩
      | real bits => exact ⟨trivial, by rintro _ ⟨⟩⟩
    · exact scalarFits_of_literalFrom h

theorem gives_of_mem_itemsFrom {item : Reader α} {budget : Nat} {first : Bool}
    {done as : List α} (h : (itemsFrom item budget first done).Gives as)
    (hdone : ∀ a ∈ done, item.Gives a) : ∀ a ∈ as, item.Gives a := by
  induction budget generalizing first done with
  | zero => exact (not_gives_failNext h).elim
  | succ budget ih =>
      obtain ⟨more, -, h⟩ := h.of_bind
      split at h
      · obtain ⟨a, ha, h⟩ := h.of_bind
        exact ih h (List.forall_mem_cons.2 ⟨ha, hdone⟩)
      · rw [h.of_pure]
        exact fun a ha => hdone a (List.mem_reverse.1 ha)

theorem gives_of_mem_membersFrom {member : String → Reader α} {budget : Nat} {first : Bool}
    {done as : List α} (h : (membersFrom member budget first done).Gives as)
    (hdone : ∀ a ∈ done, ∃ name, (member name).Gives a) :
    ∀ a ∈ as, ∃ name, (member name).Gives a := by
  induction budget generalizing first done with
  | zero => exact (not_gives_failNext h).elim
  | succ budget ih =>
      obtain ⟨more, -, h⟩ := h.of_bind
      split at h
      · obtain ⟨name, -, h⟩ := h.of_bind
        obtain ⟨a, ha, h⟩ := h.of_bind
        exact ih h (List.forall_mem_cons.2 ⟨⟨name, ha⟩, hdone⟩)
      · rw [h.of_pure]
        exact fun a ha => hdone a (List.mem_reverse.1 ha)

/-- What a value consists of: it is a scalar, or its parts are given by the reader of parts. -/
theorem cases_of_valueWith {budget : Nat} {part? : Option (Reader Json)}
    (h : (valueWith budget part?).Gives j) :
    ScalarFits j ∨ ∃ part, part? = some part ∧
      ((∃ items, j = .arr items ∧ ∀ a ∈ items, part.Gives a) ∨
        ∃ members, j = .obj members ∧ ∀ m ∈ members, part.Gives m.2) := by
  obtain ⟨next?, -, h⟩ := h.of_bind
  cases next? with
  | none => exact (not_gives_failNext h).elim
  | some b =>
      dsimp only at h
      split at h
      · cases part? with
        | none => exact (not_gives_failNext h).elim
        | some part =>
            obtain ⟨-, -, h⟩ := h.of_bind
            obtain ⟨items, hitems, h⟩ := h.of_bind
            refine Or.inr ⟨part, rfl, Or.inl ⟨items, h.of_pure, ?_⟩⟩
            exact gives_of_mem_itemsFrom hitems.of_closedBy fun a ha => absurd ha List.not_mem_nil
      · split at h
        · cases part? with
          | none => exact (not_gives_failNext h).elim
          | some part =>
              obtain ⟨-, -, h⟩ := h.of_bind
              obtain ⟨members, hmembers, h⟩ := h.of_bind
              refine Or.inr ⟨part, rfl, Or.inr ⟨members, h.of_pure, fun m hm => ?_⟩⟩
              obtain ⟨name, hm⟩ := gives_of_mem_membersFrom hmembers.of_closedBy
                (fun a ha => absurd ha List.not_mem_nil) m hm
              obtain ⟨-, -, hm⟩ := hm.of_bind
              obtain ⟨value, hvalue, hm⟩ := hm.of_bind
              rw [hm.of_pure]
              exact hvalue
        · split at h
          · exact Or.inl (scalarFits_of_scalarFrom h)
          · exact (not_gives_failNext h).elim

theorem fits_of_gives_valueAt {budget depth : Nat} (h : (valueAt budget depth).Gives j) :
    j.Fits depth := by
  induction depth generalizing j with
  | zero =>
      rw [valueAt] at h
      rcases cases_of_valueWith h with hscalar | ⟨_, ⟨⟩, -⟩
      exact .scalar hscalar.isScalar hscalar.intFits
  | succ depth ih =>
      rw [valueAt] at h
      rcases cases_of_valueWith h with
        hscalar | ⟨_, ⟨⟩, ⟨items, rfl, hitems⟩ | ⟨members, rfl, hmembers⟩⟩
      · exact .scalar hscalar.isScalar hscalar.intFits
      · exact .arr fun j hj => ih (hitems j hj)
      · exact .obj fun m hm => ih (hmembers m hm)

end Reader

/-- The decoder gives the value for some part of a text, where `n` brackets may be opened. -/
def Gives {α : Type} (n : Nat) (read : Decoder α) (a : α) : Prop :=
  ∃ scope : Scope, scope.depth = n ∧ Reader.Gives (read scope) a

theorem gives_of_decodeBytes {α : Type} {read : Decoder α} {text : List UInt8} {a : α}
    (h : decodeBytes read text = .ok a) : Gives maxDepth read a := by
  rw [decodeBytes, readAll] at h
  split at h
  next s' hwhole =>
    obtain ⟨a', hread, hend⟩ := Reader.Gives.of_bind ⟨_, s', hwhole⟩
    obtain ⟨-, -, hpure⟩ := hend.of_bind
    cases h
    cases hpure.of_pure
    exact ⟨_, rfl, hread⟩
  · cases h

theorem gives_of_decode {α : Type} {read : Decoder α} {text : String} {a : α}
    (h : decode read text = .ok a) : Gives maxDepth read a :=
  gives_of_decodeBytes h

theorem fits_of_gives_value {n : Nat} {j : Json} (h : Gives n Reader.value j) : j.Fits n := by
  obtain ⟨scope, rfl, h⟩ := h
  exact Reader.fits_of_gives_valueAt h

/-! ### Putting into order -/

theorem mem_canonicalMembers {done members : List (String × Json)} {m : String × Json}
    (h : m ∈ canonicalMembers done members) :
    m ∈ done ∨ ∃ m' ∈ members, m = (m'.1, m'.2.canonical) := by
  induction members generalizing done with
  | nil => exact Or.inl h
  | cons first members ih =>
      obtain ⟨name, j⟩ := first
      rcases ih h with h | ⟨m', hm', rfl⟩
      · rcases mem_insertMember h with rfl | h
        · exact Or.inr ⟨(name, j), List.mem_cons_self, rfl⟩
        · exact Or.inl h
      · exact Or.inr ⟨m', List.mem_cons_of_mem _ hm', rfl⟩

theorem Fits.canonical {n : Nat} {j : Json} (h : j.Fits n) : j.canonical.Fits n := by
  induction h with
  | scalar hscalar hint =>
      rw [canonical_scalar hscalar]
      exact .scalar hscalar hint
  | arr _ ih =>
      rw [Json.canonical, canonicalItems_eq]
      refine .arr fun j hj => ?_
      obtain ⟨j, hmem, rfl⟩ := List.mem_map.1 hj
      exact ih j hmem
  | obj _ ih =>
      rw [Json.canonical]
      refine .obj fun m hm => ?_
      rcases mem_canonicalMembers hm with hm | ⟨m', hm', rfl⟩
      · exact absurd hm List.not_mem_nil
      · exact ih m' hm'

/-- What is given as a value is in order, and can be written and read again. -/
theorem fits_of_gives_readValue {n : Nat} {j : Json} (h : Gives n readValue j) :
    j.Fits n ∧ j.Ordered := by
  obtain ⟨scope, hdepth, h⟩ := h
  obtain ⟨j, rfl, hvalue⟩ := h.of_map
  exact ⟨(fits_of_gives_value ⟨scope, hdepth, hvalue⟩).canonical, ordered_canonical j⟩

end SealedLog.Json
