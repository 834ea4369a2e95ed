import SealedLog.Time.Calendar

/-!
# Moments that there are

A moment that comes out of a local time and an offset is one of a day that exists, and of a second
of that day; and only in the last second of a minute does the nanosecond go on past one billion,
since offsets are whole minutes. `Instant.Valid` is what moments have in common that way.
-/

namespace SealedLog

namespace Date

theorem daysIn_bounds (year : Int) (month : Nat) :
    28 ≤ daysIn year month ∧ daysIn year month ≤ 31 := by
  rw [daysIn]
  split
  · split <;> decide
  · split <;> decide

theorem daysIn_pos (year : Int) (month : Nat) : 1 ≤ daysIn year month :=
  Nat.le_trans (by decide) (daysIn_bounds year month).1

theorem exists?_iff {year : Int} {month day : Nat} : exists? ⟨year, month, day⟩ = true ↔
    firstYear ≤ year ∧ year ≤ lastYear ∧ 1 ≤ month ∧ month ≤ 12 ∧ 1 ≤ day ∧
      day ≤ daysIn year month := by
  simp only [exists?, Bool.and_eq_true, decide_eq_true_eq, and_assoc]

theorem exists?_of_next? {d d' : Date} (h : d.exists? = true) (hnext : d.next? = some d') :
    d'.exists? = true := by
  obtain ⟨year, month, day⟩ := d
  obtain ⟨hfirst, hlast, hmonth, hmonth', hday, hday'⟩ := exists?_iff.1 h
  simp only [next?] at hnext
  split at hnext
  · cases hnext
    exact exists?_iff.2 ⟨hfirst, hlast, hmonth, hmonth', by omega, by omega⟩
  · split at hnext
    · cases hnext
      exact exists?_iff.2 ⟨hfirst, hlast, by omega, by omega, Nat.le_refl 1, daysIn_pos _ _⟩
    · split at hnext
      · cases hnext
        exact exists?_iff.2 ⟨by omega, by omega, by omega, by omega, Nat.le_refl 1, daysIn_pos _ _⟩
      · cases hnext

theorem exists?_of_previous? {d d' : Date} (h : d.exists? = true)
    (hprevious : d.previous? = some d') : d'.exists? = true := by
  obtain ⟨year, month, day⟩ := d
  obtain ⟨hfirst, hlast, hmonth, hmonth', hday, hday'⟩ := exists?_iff.1 h
  have hdecember : 31 ≤ daysIn (year - 1) 12 := Nat.le_refl 31
  simp only [previous?] at hprevious
  split at hprevious
  · cases hprevious
    exact exists?_iff.2 ⟨hfirst, hlast, hmonth, hmonth', by omega, by omega⟩
  · split at hprevious
    · cases hprevious
      exact exists?_iff.2 ⟨hfirst, hlast, by omega, by omega, daysIn_pos _ _, Nat.le_refl _⟩
    · split at hprevious
      · cases hprevious
        exact exists?_iff.2 ⟨by omega, by omega, by omega, by omega, by omega, hdecember⟩
      · cases hprevious

end Date

namespace Instant

/-- A second and a nanosecond of some day, past one billion only in a leap second. -/
structure ValidTime (second nano : Nat) : Prop where
  second_lt : second < 86400
  nano_lt : nano < 2000000000
  leap : 1000000000 ≤ nano → second % 60 = 59

/-- A moment of a day that exists. -/
structure Valid (t : Instant) : Prop extends ValidTime t.second t.nano where
  date_exists : t.date.exists? = true

/-- The moment of a local time is valid, as long as the offset is one of whole minutes. -/
theorem valid_of_ofLocal? {date : Date} {second nano : Nat} {offset : Int} {t : Instant}
    (hdate : date.exists? = true) (htime : ValidTime second nano) (hoffset : offset.natAbs < 86400)
    (hminutes : offset % 60 = 0) (h : ofLocal? date second nano offset = some t) : t.Valid := by
  obtain ⟨hsecond, hnano, hleap⟩ := htime
  -- A shift by whole minutes keeps the second of the minute.
  have hshifted : ∀ second' : Int, 0 ≤ second' → second' < 86400 → second' % 60 = second % 60 →
      ValidTime second'.toNat nano :=
    fun second' _ _ hsame => ⟨by omega, hnano, fun hle => by have hlast := hleap hle; omega⟩
  simp only [ofLocal?] at h
  split at h
  · obtain ⟨date', hprevious, rfl⟩ := Option.map_eq_some_iff.1 h
    exact ⟨hshifted _ (by omega) (by omega) (by omega),
      Date.exists?_of_previous? hdate hprevious⟩
  · split at h
    · obtain ⟨date', hnext, rfl⟩ := Option.map_eq_some_iff.1 h
      exact ⟨hshifted _ (by omega) (by omega) (by omega), Date.exists?_of_next? hdate hnext⟩
    · cases h
      exact ⟨hshifted _ (by omega) (by omega) (by omega), hdate⟩

end Instant

end SealedLog
