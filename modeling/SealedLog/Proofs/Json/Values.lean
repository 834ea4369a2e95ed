import SealedLog.Proofs.Json.Canonical
import SealedLog.Proofs.Json.Reading
import Mathlib.Algebra.Order.Ring.Int

/-!
# Reading back values of any kind

A value without numbers of double precision is read back as it was written, provided that its
integers fit into 64 bits and that not more brackets stand inside one another than may be opened:
`reads_value`. If its members are sorted as well then putting them into order, which is what
`readValue` does at the end, changes nothing: `reads_readValue`.
-/

namespace SealedLog.Json

open Layout

/-- No part of the value is a number of double precision. -/
inductive RealFree : Json → Prop
  | scalar {j : Json} (isScalar : j.IsScalar) (ne_real : ∀ bits, j ≠ .real bits) : RealFree j
  | arr {items : List Json} (realFree : ∀ j ∈ items, RealFree j) : RealFree (.arr items)
  | obj {members : List (String × Json)} (realFree : ∀ m ∈ members, RealFree m.2) :
      RealFree (.obj members)

theorem RealFree.of_mem_items {items : List Json} (h : RealFree (.arr items)) :
    ∀ j ∈ items, RealFree j := by
  cases h with
  | scalar h _ => exact h.elim
  | arr h => exact h

theorem RealFree.of_mem_members {members : List (String × Json)} (h : RealFree (.obj members)) :
    ∀ m ∈ members, RealFree m.2 := by
  cases h with
  | scalar h _ => exact h.elim
  | obj h => exact h

theorem RealFree.ne_real {j : Json} (h : j.RealFree) (bits : UInt64) : j ≠ .real bits := by
  rintro rfl
  cases h with
  | scalar _ hne => exact hne bits rfl

/-- The integers that a value may have. -/
def IntFits (i : Int) : Prop :=
  -2 ^ 63 ≤ i ∧ i < 2 ^ 64

/-- At most `n` brackets stand inside one another in the value, and its integers fit into 64
bits, signed or unsigned. -/
inductive Fits : Nat → Json → Prop
  | scalar {n : Nat} {j : Json} (isScalar : j.IsScalar) (intFits : ∀ i, j = .int i → IntFits i) :
      Fits n j
  | arr {n : Nat} {items : List Json} (fits : ∀ j ∈ items, Fits n j) : Fits (n + 1) (.arr items)
  | obj {n : Nat} {members : List (String × Json)} (fits : ∀ m ∈ members, Fits n m.2) :
      Fits (n + 1) (.obj members)

namespace Reader

variable {n budget : Nat} {part? : Option (Reader Json)} {b : UInt8} {blanks s : List UInt8}
  {scope : Scope} {j : Json}

/-! ### Scalars -/

theorem startsScalar_facts (hb : startsScalar b = true) :
    isSpace b = false ∧ b ≠ ascii ']' ∧ b ≠ ascii '[' ∧ b ≠ ascii '\x7b' := by
  refine ⟨?_, ?_, ?_, ?_⟩
  · by_contra hspace
    simp only [isSpace, Bool.not_eq_false, Bool.or_eq_true, beq_iff_eq] at hspace
    rcases hspace with ((rfl | rfl) | rfl) | rfl <;> exact absurd hb (by decide)
  · rintro rfl
    exact absurd hb (by decide)
  · rintro rfl
    exact absurd hb (by decide)
  · rintro rfl
    exact absurd hb (by decide)

theorem startsScalar_of_isDigit (hb : isDigit b = true) : startsScalar b = true := by
  rw [startsScalar, hb, Bool.or_true]

theorem valueWith_scalar (hblank : Blank blanks) (hb : startsScalar b = true) :
    valueWith budget part? (blanks ++ b :: s) = scalarFrom b (b :: s) := by
  obtain ⟨hspace, -, hsquare, hcurly⟩ := startsScalar_facts hb
  refine (bind_ok (peekPastSpace?_eq hblank hspace) _).trans ?_
  dsimp only
  rw [if_neg hsquare, if_neg hcurly, if_pos hb]

theorem value_scalar (hblank : Blank blanks) (hb : startsScalar b = true) :
    Reader.value scope (blanks ++ b :: s) = scalarFrom b (b :: s) := by
  rw [Reader.value]
  cases scope.depth with
  | zero => exact valueWith_scalar hblank hb
  | succ depth => exact valueWith_scalar hblank hb

theorem scalarFrom_number (hb : b = ascii '-' ∨ isDigit b = true) :
    scalarFrom b = number := by
  have hquote : b ≠ ascii '"' := by
    rintro rfl
    exact absurd hb (by decide)
  rw [scalarFrom, if_neg hquote, if_pos hb]

/-- The text of a scalar, by its first byte. -/
theorem exists_scalarFrom (hscalar : j.IsScalar) (hint : ∀ i, j = .int i → IntFits i)
    (hreal : j.RealFree) :
    ∃ b bs, bytesOf (scalarText j) = b :: bs ∧ startsScalar b = true ∧
      ∀ {rest : List UInt8}, Ends rest → scalarFrom b (b :: (bs ++ rest)) = .ok j rest := by
  cases j with
  | arr _ => exact hscalar.elim
  | obj _ => exact hscalar.elim
  | real bits => exact absurd rfl (hreal.ne_real bits)
  | null =>
      exact ⟨ascii 'n', "ull".toList.map ascii, by decide, by decide, fun _ => rfl⟩
  | bool v =>
      cases v with
      | false => exact ⟨ascii 'f', "alse".toList.map ascii, by decide, by decide, fun _ => rfl⟩
      | true => exact ⟨ascii 't', "rue".toList.map ascii, by decide, by decide, fun _ => rfl⟩
  | str text =>
      refine ⟨_, _, bytesOf_strText text, by decide, fun {rest} _ => ?_⟩
      have hquoted := quotedText_strText text rest
      rw [bytesOf_strText, List.cons_append] at hquoted
      exact bind_ok hquoted _
  | int i =>
      obtain ⟨hlow, hhigh⟩ := hint i rfl
      cases i with
      | ofNat value =>
          obtain ⟨d, ds, hbytes, hd⟩ := exists_bytesOf_nat value
          refine ⟨d, ds, hbytes, startsScalar_of_isDigit hd, fun {rest} hends => ?_⟩
          have hvalue : value < UInt64.size := Int.ofNat_lt.1 hhigh
          have hnumber := number_repr hvalue hends
          rwa [hbytes, List.cons_append, ← scalarFrom_number (Or.inr hd)] at hnumber
      | negSucc value =>
          refine ⟨_, _, bytesOf_negSucc value, by decide, fun {rest} hends => ?_⟩
          have hvalue : value < Nat.pow 2 63 := by
            change value < 9223372036854775808
            omega
          have hnumber := number_negSucc hvalue hends
          rwa [bytesOf_negSucc, List.cons_append, ← scalarFrom_number (Or.inl rfl)] at hnumber

/-! ### Brackets -/

/-- Takes a member from its colon on. -/
def memberOf (part : Reader Json) (name : String) : Reader (String × Json) := do
  colon
  return (name, ← part)

theorem value_square (hblank : Blank blanks) (hdepth : 0 < scope.depth) :
    Reader.value scope (blanks ++ ascii '[' :: s) =
      (Json.arr <$> (itemsFrom (Reader.value scope.inner) scope.inner.budget true []).closedBy
        endList) s := by
  obtain ⟨depth, hsucc⟩ := Nat.exists_eq_succ_of_ne_zero (Nat.ne_of_gt hdepth)
  rw [Reader.value, hsucc, valueAt]
  refine (bind_ok (peekPastSpace?_eq hblank (by decide)) _).trans ?_
  dsimp only
  rw [if_pos rfl, Reader.value, Scope.inner, hsucc]
  rfl

theorem value_curly (hblank : Blank blanks) (hdepth : 0 < scope.depth) :
    Reader.value scope (blanks ++ ascii '\x7b' :: s) =
      (Json.obj <$> (membersFrom (memberOf (Reader.value scope.inner)) scope.inner.budget true
        []).closedBy endObject) s := by
  obtain ⟨depth, hsucc⟩ := Nat.exists_eq_succ_of_ne_zero (Nat.ne_of_gt hdepth)
  rw [Reader.value, hsucc, valueAt]
  refine (bind_ok (peekPastSpace?_eq hblank (by decide)) _).trans ?_
  dsimp only
  rw [if_neg (by decide), if_pos rfl, Reader.value, Scope.inner, hsucc]
  rfl

/-- A member is put before those that came earlier. -/
def Collects (n : Nat) (part : Decoder Json) (done : List (String × Json)) (m : String × Json)
    (done' : List (String × Json)) : Prop :=
  Reads n part m.2 m.2 ∧ done' = m :: done

theorem memberLoop (part : Decoder Json) (hdepth : n ≤ scope.depth) :
    MemberLoop scope (membersFrom (memberOf (part scope))) (Collects n part) List.reverse where
  step := by
    rintro L depth budget first done _ m s rest ⟨hread, rfl⟩ hmember hends hbudget
    have hpart : memberOf (part scope) m.1 (ascii ':' :: (L.gap ++ L.spell depth m.2 rest)) =
        .ok m rest :=
      (bind_ok colon_eq _).trans
        (bind_ok (hread.read_eq L depth hends L.blank_gap hdepth hbudget) _)
    rw [membersFrom]
    refine (bind_ok hmember _).trans ?_
    rw [if_pos rfl]
    exact (bind_ok (quotedText_strText m.1 _) _).trans (bind_ok hpart _)
  stop hclose := bind_ok hclose _

end Reader

open Reader

variable {n : Nat} {j : Json}

/-- A value is read back as it was written. -/
theorem reads_value (hfits : j.Fits n) (hreal : j.RealFree) : Reads n Reader.value j j := by
  induction hfits with
  | @scalar n j hscalar hint =>
      obtain ⟨b, bs, hbytes, hstarts, hfrom⟩ := exists_scalarFrom hscalar hint hreal
      have hspell : ∀ (L : Layout) depth rest, L.spell depth j rest = b :: (bs ++ rest) := by
        intro L depth rest
        rw [← List.cons_append, ← hbytes]
        cases j with
        | arr _ => exact hscalar.elim
        | obj _ => exact hscalar.elim
        | _ => rfl
      obtain ⟨hspace, hsquare, -⟩ := startsScalar_facts hstarts
      refine ⟨fun L depth rest => ⟨b, bs ++ rest, hspell L depth rest, hspace, hsquare⟩, ?_⟩
      intro L depth rest blanks scope hends hblank _ _
      rw [hspell, value_scalar hblank hstarts]
      exact hfrom hends
  | @arr n items _ ih =>
      have hitems : List.Forall₂ (Reads n Reader.value) items items :=
        List.forall₂_same.2 fun j hj => ih j hj (hreal.of_mem_items j hj)
      refine ⟨(reads_list hitems).starts, fun L depth {rest blanks scope} hends hblank hdepth
        hbudget => ?_⟩
      change _ < scope.inner.budget at hbudget
      obtain ⟨s, hspell, hread⟩ := itemsFrom_spell hitems (Scope.le_depth_inner hdepth) hbudget
      rw [hspell, value_square hblank (by omega)]
      exact map_ok (closedBy_ok hread endList_eq) _
  | @obj n members _ ih =>
      have hmembers : ∀ m ∈ members, Reads n Reader.value m.2 m.2 := fun m hm =>
        ih m hm (hreal.of_mem_members m hm)
      refine ⟨fun L depth rest => ?_, fun L depth {rest blanks scope} hends hblank hdepth
        hbudget => ?_⟩
      · cases members with
        | nil => exact ⟨_, _, rfl, by decide, by decide⟩
        | cons m members => exact ⟨_, _, rfl, by decide, by decide⟩
      · change _ < scope.inner.budget at hbudget
        have hleads : Leads (Collects n Reader.value) [] members (members.reverse ++ []) :=
          leads_reverse (g := id) (fun m hm _ => ⟨hmembers m hm, rfl⟩) []
        obtain ⟨s, hspell, hread⟩ :=
          (memberLoop Reader.value (Scope.le_depth_inner hdepth)).run_spell hleads hbudget
        rw [List.append_nil, List.reverse_reverse] at hread
        rw [hspell, value_curly hblank (by omega)]
        exact map_ok (closedBy_ok hread endObject_eq) _

theorem reads_value_nat {value : Nat} (h : value < UInt64.size) :
    Reads 0 Reader.value (.nat value) (.nat value) := by
  change value < 18446744073709551616 at h
  refine reads_value (.scalar trivial ?_) (.scalar trivial nofun)
  rintro _ ⟨⟩
  exact ⟨by omega, by omega⟩

theorem reads_readValue (hfits : j.Fits n) (hreal : j.RealFree) (hordered : j.Ordered) :
    Reads n readValue j j := by
  have hread := (reads_value hfits hreal).map canonical
  rw [hordered.canonical_eq] at hread
  exact hread

end SealedLog.Json
