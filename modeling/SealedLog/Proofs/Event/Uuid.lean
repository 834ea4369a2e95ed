import SealedLog.Event.Uuid
import Mathlib.Algebra.Order.Ring.Nat

/-!
# Reading identifiers

An identifier is read back from the one form in which it is written, with hyphens between groups
of lowercase digits: `Uuid.read_text`.
-/

namespace SealedLog

namespace Hex

theorem value?_digitChar : ∀ k < 16, value? (Nat.digitChar k) = some k := by
  decide

theorem length_ofBytes (bs : List UInt8) : (ofBytes bs).length = 2 * bs.length := by
  induction bs with
  | nil => rfl
  | cons b bs ih =>
      rw [ofBytes, List.flatMap_cons, List.length_append, length_ofByte, ← ofBytes, ih,
        List.length_cons]
      omega

/-- The digits of bytes are read as these bytes. -/
theorem bytes?_ofBytes (bs : List UInt8) : bytes? (ofBytes bs) = some bs := by
  induction bs with
  | nil => rfl
  | cons b bs ih =>
      have hlt := b.toNat_lt
      have hhigh := value?_digitChar (b.toNat / 16) (by omega)
      have hlow := value?_digitChar (b.toNat % 16) (by omega)
      have hbyte : UInt8.ofNat (16 * (b.toNat / 16) + b.toNat % 16) = b := by
        rw [Nat.div_add_mod, UInt8.ofNat_toNat]
      change (do
        let h ← value? (Nat.digitChar (b.toNat / 16))
        let l ← value? (Nat.digitChar (b.toNat % 16))
        let bs ← bytes? (ofBytes bs)
        pure (UInt8.ofNat (16 * h + l) :: bs)) = _
      rw [hhigh, hlow, ih]
      exact congrArg (fun b => some (b :: bs)) hbyte

end Hex

namespace Uuid

theorem length_hyphenate (ns : List Nat) (ds : List Char) (h : ns.sum ≤ ds.length) :
    (hyphenate ns ds).length = ds.length + (ns.length - 1) := by
  induction ns generalizing ds with
  | nil => rfl
  | cons n ns ih =>
      cases ns with
      | nil => rfl
      | cons m ns =>
          rw [List.sum_cons] at h
          have hrest := ih (ds.drop n) (by rw [List.length_drop]; omega)
          simp only [hyphenate, List.length_append, List.length_cons, hrest, List.length_drop,
            List.length_take]
          omega

/-- Digits that are cut into groups are put together again. -/
theorem withoutHyphens?_hyphenate (ns : List Nat) (ds : List Char) (h : ds.length = ns.sum) :
    withoutHyphens? ns (hyphenate ns ds) = some ds := by
  induction ns generalizing ds with
  | nil =>
      obtain rfl := List.length_eq_zero_iff.1 h
      rfl
  | cons n ns ih =>
      cases ns with
      | nil =>
          rw [hyphenate, withoutHyphens?, if_pos (by simpa using h)]
      | cons m ns =>
          rw [List.sum_cons] at h
          have hrest := ih (ds.drop n) (by rw [List.length_drop]; omega)
          have htake : (ds.take n).length = n := List.length_take_of_le (by omega)
          have hfront : (ds.take n ++ '-' :: hyphenate (m :: ns) (ds.drop n)).take n = ds.take n :=
            List.take_left' htake
          have hback : (ds.take n ++ '-' :: hyphenate (m :: ns) (ds.drop n)).drop n =
              '-' :: hyphenate (m :: ns) (ds.drop n) :=
            List.drop_left' htake
          simp only [hyphenate, withoutHyphens?, hback, hfront, hrest, Option.map_some,
            List.take_append_drop]

/-- An identifier is read back as it was written. -/
theorem read_text (id : Uuid) : read id.text = .ok id := by
  have hdigits : (Hex.ofBytes id.bytes).length = 32 := by
    rw [Hex.length_ofBytes, id.length_bytes]
  have hlength : (hyphenate groupLengths (Hex.ofBytes id.bytes)).length = 36 := by
    rw [length_hyphenate _ _ (by rw [hdigits]; decide), hdigits]
    rfl
  have hparse : parse? (hyphenate groupLengths (Hex.ofBytes id.bytes)) = some id := by
    have hgroups := withoutHyphens?_hyphenate groupLengths (Hex.ofBytes id.bytes)
      (by rw [hdigits]; rfl)
    have hof : ofDigits? (Hex.ofBytes id.bytes) = some id := by
      simp only [ofDigits?, Hex.bytes?_ofBytes, Option.bind_eq_bind, Option.bind_some,
        id.length_bytes, dite_true]
    rw [parse?, if_neg (by rw [hlength]; decide)]
    simp only [hlength, if_true, Option.bind_eq_bind, Option.bind_some, hgroups, hof]
  rw [read, text, String.toList_ofList, hparse]

end Uuid

end SealedLog
