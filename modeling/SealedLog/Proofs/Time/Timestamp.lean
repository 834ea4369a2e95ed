import SealedLog.Time.Timestamp
import SealedLog.Proofs.Time.Calendar
import Mathlib.Algebra.Order.Ring.Nat
import Mathlib.Tactic.SplitIfs

/-!
# Timestamps and moments

The text that is written of a moment is read back as that moment (`read_write`), as long as the
moment is one that there is; and only such moments come out of reading (`valid_of_read`).

A written number ends where something else than a digit stands, which is all that its reader needs
to know of what follows (`Stops`). For each part of a timestamp there is a lemma `run_…`, that its
reader takes from the text exactly what was written; for numbers, times and offsets there is another
one, that what is taken is within its bounds.
-/

namespace SealedLog

namespace Timestamp

/-- The text does not begin with a digit. -/
def Stops (cs : List Char) : Prop :=
  cs.takeWhile Char.isDigit = []

theorem stops_cons {c : Char} {cs : List Char} (hc : c.isDigit = false) : Stops (c :: cs) := by
  simp only [Stops, List.takeWhile_cons, hc]
  rfl

theorem Stops.take {cs : List Char} (h : Stops cs) (n : Nat) : Stops (cs.take n) := by
  cases cs with
  | nil => rwa [List.take_nil]
  | cons c cs =>
      cases n with
      | zero => rfl
      | succ n =>
          simp only [Stops, List.takeWhile_cons, List.take_succ_cons] at h ⊢
          split at h
          · cases h
          · next hc => rw [if_neg hc]

/-! ### Numbers in digits -/

theorem digitsValue_eq (ds : List Char) : digitsValue ds = Nat.ofDigitChars 10 ds 0 := rfl

theorem digitsValue_lt {ds : List Char} (h : ∀ d ∈ ds, d.isDigit) :
    digitsValue ds < 10 ^ ds.length := by
  simp only [digitsValue_eq]
  induction ds with
  | nil => exact Nat.one_pos
  | cons d ds ih =>
      have hds := ih fun d' hd' => h d' (List.mem_cons_of_mem d hd')
      have hd : d.toNat - '0'.toNat ≤ 9 := by
        have hdigit := h d List.mem_cons_self
        simp only [Char.isDigit, Bool.and_eq_true, decide_eq_true_eq] at hdigit
        have hle : d.toNat ≤ 57 := hdigit.2
        exact Nat.sub_le_iff_le_add.2 hle
      rw [Nat.ofDigitChars_cons, Nat.ofDigitChars_eq_ofDigitChars_zero, List.length_cons,
        Nat.pow_succ, Nat.mul_zero, Nat.zero_add]
      calc 10 ^ ds.length * (d.toNat - '0'.toNat) + Nat.ofDigitChars 10 ds 0
          < 10 ^ ds.length * (d.toNat - '0'.toNat) + 10 ^ ds.length := Nat.add_lt_add_left hds _
        _ = 10 ^ ds.length * (d.toNat - '0'.toNat + 1) := rfl
        _ ≤ 10 ^ ds.length * 10 := Nat.mul_le_mul_left _ (Nat.succ_le_succ hd)

theorem padded_ne_nil (width n : Nat) : padded width n ≠ [] := by
  rw [padded, Ne, List.append_eq_nil_iff]
  exact fun h => Nat.toDigits_ne_nil h.2

theorem isDigit_of_mem_padded {width n : Nat} {c : Char} (h : c ∈ padded width n) : c.isDigit := by
  rcases List.mem_append.1 h with h | h
  · rw [List.eq_of_mem_replicate h]
    rfl
  · exact Nat.isDigit_of_mem_toDigits (by decide) (by decide) h

theorem isDigit_of_padded_append {width n : Nat} {c : Char} {cs rest : List Char}
    (h : padded width n ++ rest = c :: cs) : c.isDigit := by
  cases hn : padded width n with
  | nil => exact absurd hn (padded_ne_nil width n)
  | cons d ds =>
      rw [hn] at h
      cases h
      exact isDigit_of_mem_padded (hn ▸ List.mem_cons_self)

theorem digitsValue_padded (width n : Nat) : digitsValue (padded width n) = n := by
  rw [digitsValue_eq, padded, Nat.ofDigitChars_append, Nat.ofDigitChars_replicate_zero,
    Nat.mul_zero, Nat.ofDigitChars_ten_toDigits]

theorem length_padded {width n : Nat} (hwidth : 0 < width) (h : n < 10 ^ width) :
    (padded width n).length = width := by
  have hle := (Nat.length_toDigits_le_iff (by decide) hwidth).2 h
  rw [padded, List.length_append, List.length_replicate]
  omega

/-! ### Running readers -/

section Run

variable {α β : Type} {r : Reader α} {f : α → Reader β} {cs rest : List Char}

theorem run_bind {a : α} (h : r.run cs = .ok (a, rest)) : (r >>= f).run cs = (f a).run rest := by
  rw [StateT.run_bind, h]
  rfl

theorem exists_of_run_bind {out : β × List Char} (h : (r >>= f).run cs = .ok out) :
    ∃ a rest, r.run cs = .ok (a, rest) ∧ (f a).run rest = .ok out := by
  rw [StateT.run_bind] at h
  cases hr : r.run cs with
  | error fault =>
      rw [hr] at h
      cases h
  | ok p =>
      rw [hr] at h
      exact ⟨p.1, p.2, rfl, h⟩

theorem run_get (cs : List Char) : (get : Reader (List Char)).run cs = .ok (cs, cs) := rfl

theorem run_set (cs rest : List Char) : (set rest : Reader PUnit).run cs = .ok ((), rest) := rfl

theorem run_modify (g : List Char → List Char) (cs : List Char) :
    (modify g : Reader PUnit).run cs = .ok ((), g cs) := rfl

theorem run_blanks (cs : List Char) : blanks.run cs = .ok ((), Text.skipBlanks cs) := rfl

theorem run_blanks_of_not {c : Char} (hc : Text.isBlank c = false) :
    blanks.run (c :: cs) = .ok ((), c :: cs) := by
  rw [run_blanks, Text.skipBlanks, List.dropWhile_cons_of_neg]
  rw [hc]
  exact Bool.false_ne_true

theorem run_mark (c : Char) (cs : List Char) : (mark c).run (c :: cs) = .ok ((), cs) := by
  change (if c = c then set cs else throw .invalidCharacter : Reader Unit).run (c :: cs) = _
  rw [if_pos rfl]
  rfl

theorem isBlank_of_isDigit {c : Char} (h : c.isDigit) : Text.isBlank c = false := by
  simp only [Char.isDigit, Bool.and_eq_true, decide_eq_true_eq] at h
  have hlow : 48 ≤ c.toNat := h.1
  have hhigh : c.toNat ≤ 57 := h.2
  simp only [Text.isBlank]
  generalize c.toNat = n at hlow hhigh
  simp only [Bool.or_eq_false_iff, Bool.and_eq_false_iff, decide_eq_false_iff_not,
    beq_eq_false_iff_ne]
  omega

theorem run_blanks_padded (width n : Nat) (rest : List Char) :
    blanks.run (padded width n ++ rest) = .ok ((), padded width n ++ rest) := by
  cases h : padded width n ++ rest with
  | nil => exact absurd (List.append_eq_nil_iff.1 h).1 (padded_ne_nil width n)
  | cons c cs => exact run_blanks_of_not (isBlank_of_isDigit (isDigit_of_padded_append h))

/-- All that the reader of a number can do. -/
theorem run_digits_eq {most? : Option Nat} {ds : List Char}
    (hds : (most?.elim cs cs.take).takeWhile Char.isDigit = ds) : (digits most?).run cs =
      if cs.isEmpty then .error .endOfText
      else if ds.isEmpty then .error .invalidCharacter
      else if Nat.pow 2 63 ≤ digitsValue ds then .error .outOfRange
      else .ok ((digitsValue ds, ds.length), cs.drop ds.length) := by
  subst hds
  change (if cs.isEmpty then _ else _ : Reader (Nat × Nat)).run cs = _
  split_ifs <;> rfl

/-- Digits are taken whole when no digit follows them, as far as they are few enough. -/
theorem run_digits {most? : Option Nat} {width n : Nat} (hn : n < Nat.pow 2 63)
    (hmost : ∀ most ∈ most?, (padded width n).length ≤ most) (hrest : Stops rest) :
    (digits most?).run (padded width n ++ rest) = .ok ((n, (padded width n).length), rest) := by
  have hdigits : ∀ rest, Stops rest →
      (padded width n ++ rest).takeWhile Char.isDigit = padded width n := fun rest h => by
    rw [List.takeWhile_append_of_pos fun _ => isDigit_of_mem_padded, h, List.append_nil]
  have htaken : (most?.elim (padded width n ++ rest) (padded width n ++ rest).take).takeWhile
      Char.isDigit = padded width n := by
    cases most? with
    | none => exact hdigits rest hrest
    | some most =>
        rw [Option.elim_some, List.take_append, List.take_of_length_le (hmost most rfl)]
        exact hdigits _ (hrest.take _)
  have hne := padded_ne_nil width n
  rw [run_digits_eq htaken, digitsValue_padded, if_neg, if_neg, if_neg (Nat.not_le_of_lt hn),
    List.drop_left]
  · rwa [List.isEmpty_iff]
  · rw [List.isEmpty_iff, List.append_eq_nil_iff]
    exact fun h => hne h.1

/-- A number in as many digits as it is written with. -/
theorem run_digits_of_le {most width n : Nat} (hwidth : 0 < width) (hle : width ≤ most)
    (hmost : most ≤ 9) (hn : n < 10 ^ width) (hrest : Stops rest) :
    (digits (some most)).run (padded width n ++ rest) = .ok ((n, width), rest) := by
  have hlength := length_padded hwidth hn
  have hsmall : n < Nat.pow 2 63 :=
    calc n < 10 ^ width := hn
      _ ≤ 10 ^ 9 := Nat.pow_le_pow_right (by decide) (Nat.le_trans hle hmost)
      _ ≤ Nat.pow 2 63 := by decide
  have hfew : ∀ m ∈ some most, (padded width n).length ≤ m := by
    rintro _ ⟨⟩
    rwa [hlength]
  rw [run_digits hsmall hfew hrest, hlength]

/-- A number that is taken is as small as the count of its digits says. -/
theorem lt_of_run_digits {most? : Option Nat} {n count : Nat}
    (h : (digits most?).run cs = .ok ((n, count), rest)) :
    n < 10 ^ count ∧ ∀ most ∈ most?, count ≤ most := by
  rw [run_digits_eq rfl] at h
  split_ifs at h
  cases h
  refine ⟨digitsValue_lt fun d hd => ?_, fun most hmost => ?_⟩
  · exact List.all_eq_true.1 (List.all_takeWhile) d hd
  · cases hmost
    exact Nat.le_trans (List.takeWhile_sublist _).length_le (List.length_take_le _ _)

theorem run_twoDigits {low high n : Nat} (hlow : low ≤ n) (hhigh : n ≤ high) (hn : n < 100)
    (hrest : Stops rest) : (twoDigits low high).run (padded 2 n ++ rest) = .ok (n, rest) := by
  have hdigits : (digits (some 2)).run (padded 2 n ++ rest) = .ok ((n, 2), rest) :=
    run_digits_of_le (by decide) (Nat.le_refl 2) (by decide) hn hrest
  rw [twoDigits, run_bind (run_blanks_padded 2 n rest), run_bind hdigits]
  change (if low ≤ n ∧ n ≤ high then _ else _ : Reader Nat).run rest = _
  rw [if_pos ⟨hlow, hhigh⟩]
  rfl

theorem le_of_run_twoDigits {low high n : Nat} (h : (twoDigits low high).run cs = .ok (n, rest)) :
    n ≤ high := by
  obtain ⟨_, cs', -, h⟩ := exists_of_run_bind h
  obtain ⟨⟨m, count⟩, cs'', -, h⟩ := exists_of_run_bind h
  change (if low ≤ m ∧ m ≤ high then _ else _ : Reader Nat).run cs'' = _ at h
  split_ifs at h with hm
  · cases h
    exact hm.2
  · cases h

/-! ### The parts of a timestamp, as they are written -/

theorem run_year {y : Int} (hfirst : Date.firstYear ≤ y) (hlast : y ≤ Date.lastYear)
    (hrest : Stops rest) : year.run (yearText y ++ rest) = .ok (y, rest) := by
  have hfirst' : -262143 ≤ y := hfirst
  have hlast' : y ≤ 262142 := hlast
  have hbounds : -2147483648 ≤ y ∧ y < 2147483648 := by omega
  have hsmall : y.natAbs < Nat.pow 2 63 := by
    change y.natAbs < 9223372036854775808
    omega
  -- A sign is followed by as many digits as there are.
  have hsigned : (digits none).run (padded 4 y.natAbs ++ rest) = _ :=
    run_digits hsmall nofun hrest
  rw [yearText]
  split_ifs with hfour hneg
  · have hunsigned : (digits (some 4)).run (padded 4 y.toNat ++ rest) = .ok ((y.toNat, 4), rest) :=
      run_digits_of_le (by decide) (Nat.le_refl 4) (by decide) (by omega) hrest
    rw [year, run_bind (run_blanks_padded 4 y.toNat rest), run_bind (run_get _)]
    split
    · next h => exact absurd (isDigit_of_padded_append h) (by decide)
    · next h => exact absurd (isDigit_of_padded_append h) (by decide)
    · simp only [run_bind hunsigned, pure_bind]
      rw [show (y.toNat : Int) = y by omega, if_pos hbounds]
      rfl
  · rw [List.cons_append, year, run_bind (run_blanks_of_not rfl), run_bind (run_get _)]
    simp only [run_bind (run_set _ _), run_bind hsigned, pure_bind]
    rw [show -(y.natAbs : Int) = y by omega, if_pos hbounds]
    rfl
  · rw [List.cons_append, year, run_bind (run_blanks_of_not rfl), run_bind (run_get _)]
    simp only [run_bind (run_set _ _), run_bind hsigned, pure_bind]
    rw [show (y.natAbs : Int) = y by omega, if_pos hbounds]
    rfl

theorem run_date {d : Date} (hd : d.exists? = true) (hrest : Stops rest) :
    date.run (yearText d.year ++ '-' :: (padded 2 d.month ++ '-' :: (padded 2 d.day ++ rest))) =
      .ok (d, rest) := by
  obtain ⟨y, m, n⟩ := d
  obtain ⟨hfirst, hlast, hm, hm', hn, hn'⟩ := Date.exists?_iff.1 hd
  have hn31 : n ≤ 31 := Nat.le_trans hn' (Date.daysIn_bounds y m).2
  have hmark : ∀ cs, Stops ('-' :: cs) := fun cs => stops_cons rfl
  rw [date, run_bind (run_year hfirst hlast (hmark _)), run_bind (run_blanks_of_not rfl),
    run_bind (run_mark _ _), run_bind (run_twoDigits hm hm' (by omega) (hmark _)),
    run_bind (run_blanks_of_not rfl), run_bind (run_mark _ _),
    run_bind (run_twoDigits hn hn31 (by omega) hrest)]
  rfl

theorem run_separator (cs : List Char) : separator.run ('T' :: cs) = .ok ((), cs) := rfl

theorem run_fraction {nano : Nat} (hnano : nano < 1000000000) {c : Char} (hc : c.isDigit = false)
    (hdot : c ≠ '.') : fraction.run (fractionText nano ++ c :: cs) = .ok (nano, c :: cs) := by
  have hstops : Stops (c :: cs) := stops_cons hc
  -- A fraction in `width` digits stands for that many units of its last digit.
  have hdigits : ∀ width n, 0 < width → width ≤ 9 → n < 10 ^ width →
      fraction.run ('.' :: (padded width n ++ c :: cs)) =
        .ok (n * Nat.pow 10 (9 - width), c :: cs) := fun width n hpos hle hn => by
    have hrun := run_digits_of_le hpos hle (Nat.le_refl 9) hn hstops
    rw [fraction, run_bind (run_get _)]
    simp only [run_bind (run_set _ _), run_bind hrun]
    rw [run_bind (run_modify _ _), List.dropWhile_cons_of_neg (by simp [hc])]
    rfl
  rw [fractionText]
  split_ifs with hzero hmilli hmicro
  · rw [List.nil_append, fraction, run_bind (run_get _), hzero]
    split
    · next h =>
        cases h
        exact absurd rfl hdot
    · rfl
  · rw [List.cons_append, hdigits 3 _ (by decide) (by decide) (by omega)]
    change Except.ok (nano / 1000000 * 1000000, _) = _
    rw [Nat.div_mul_cancel (Nat.dvd_of_mod_eq_zero hmilli)]
  · rw [List.cons_append, hdigits 6 _ (by decide) (by decide) (by omega)]
    change Except.ok (nano / 1000 * 1000, _) = _
    rw [Nat.div_mul_cancel (Nat.dvd_of_mod_eq_zero hmicro)]
  · rw [List.cons_append, hdigits 9 _ (by decide) (by decide) hnano]
    change Except.ok (nano * 1, _) = _
    rw [Nat.mul_one]

/-- The time of a moment, up to the letter that ends it. -/
theorem run_timeOfDay {t : Instant} (ht : t.Valid) :
    timeOfDay.run (padded 2 (t.second / 3600) ++ ':' :: (padded 2 (t.second / 60 % 60) ++
      ':' :: (padded 2 (t.second % 60 + t.nano / 1000000000) ++
        (fractionText (t.nano % 1000000000) ++ ['Z'])))) =
      .ok ((t.second, t.nano), ['Z']) := by
  obtain ⟨⟨hsecond, hnano, hleap⟩, -⟩ := ht
  have hmark : ∀ cs, Stops (':' :: cs) := fun cs => stops_cons rfl
  have hend : Stops (fractionText (t.nano % 1000000000) ++ ['Z']) := by
    rw [fractionText]
    split_ifs
    · exact stops_cons rfl
    · exact stops_cons rfl
    · exact stops_cons rfl
    · exact stops_cons rfl
  rw [timeOfDay, run_bind (run_twoDigits (Nat.zero_le _) (by omega) (by omega) (hmark _)),
    run_bind (run_blanks_of_not rfl), run_bind (run_mark _ _),
    run_bind (run_twoDigits (Nat.zero_le _) (by omega) (by omega) (hmark _)),
    run_bind (run_blanks_of_not rfl), run_bind (run_mark _ _),
    run_bind (run_twoDigits (Nat.zero_le _) (by omega) (by omega) hend),
    run_bind (run_fraction (Nat.mod_lt _ (by decide)) rfl (by decide)),
    run_bind (run_blanks_of_not rfl)]
  split_ifs with hsixty
  · refine congrArg (fun p => Except.ok (p, ['Z'])) (Prod.ext ?_ ?_)
    · simp only
      omega
    · simp only
      omega
  · refine congrArg (fun p => Except.ok (p, ['Z'])) (Prod.ext ?_ ?_)
    · simp only
      omega
    · simp only
      omega

theorem run_offset : offset.run ['Z'] = .ok (0, []) := rfl

theorem run_endOfText : endOfText.run [] = .ok ((), []) := rfl

/-! ### What the parts of a timestamp may be -/

theorem lt_of_run_fraction {nano : Nat} (h : fraction.run cs = .ok (nano, rest)) :
    nano < 1000000000 := by
  rw [fraction, run_bind (run_get _)] at h
  split at h
  · obtain ⟨_, _, -, h⟩ := exists_of_run_bind h
    obtain ⟨⟨n, count⟩, _, hn, h⟩ := exists_of_run_bind h
    obtain ⟨_, _, -, h⟩ := exists_of_run_bind h
    obtain ⟨hlt, hmost⟩ := lt_of_run_digits hn
    cases h
    calc n * 10 ^ (9 - count)
        < 10 ^ count * 10 ^ (9 - count) :=
          Nat.mul_lt_mul_of_pos_right hlt (Nat.pow_pos (by decide))
      _ = 10 ^ 9 := by rw [← Nat.pow_add, Nat.add_sub_cancel' (hmost 9 rfl)]
  · cases h
    decide

theorem validTime_of_run_timeOfDay {second nano : Nat}
    (h : timeOfDay.run cs = .ok ((second, nano), rest)) : Instant.ValidTime second nano := by
  obtain ⟨hour, _, hhour, h⟩ := exists_of_run_bind h
  obtain ⟨_, _, -, h⟩ := exists_of_run_bind h
  obtain ⟨_, _, -, h⟩ := exists_of_run_bind h
  obtain ⟨minute, _, hminute, h⟩ := exists_of_run_bind h
  obtain ⟨_, _, -, h⟩ := exists_of_run_bind h
  obtain ⟨_, _, -, h⟩ := exists_of_run_bind h
  obtain ⟨s, _, hs, h⟩ := exists_of_run_bind h
  obtain ⟨fraction, _, hfraction, h⟩ := exists_of_run_bind h
  obtain ⟨_, _, -, h⟩ := exists_of_run_bind h
  have hour_le := le_of_run_twoDigits hhour
  have minute_le := le_of_run_twoDigits hminute
  have second_le := le_of_run_twoDigits hs
  have fraction_lt := lt_of_run_fraction hfraction
  split_ifs at h with hsixty
  · cases h
    exact ⟨by omega, by omega, fun _ => by omega⟩
  · cases h
    exact ⟨by omega, by omega, fun hleap => by omega⟩

/-- Offsets are whole minutes. -/
theorem emod_of_run_offset {shift : Int} (h : offset.run cs = .ok (shift, rest)) :
    shift % 60 = 0 := by
  rw [offset, run_bind (run_get _)] at h
  split at h
  · cases h
  · split at h
    · cases h
      rfl
    · split at h
      · cases h
        rfl
      · split at h
        · obtain ⟨_, _, -, h⟩ := exists_of_run_bind h
          obtain ⟨hours, _, -, h⟩ := exists_of_run_bind h
          obtain ⟨_, _, -, h⟩ := exists_of_run_bind h
          obtain ⟨minutes, _, -, h⟩ := exists_of_run_bind h
          split_ifs at h
          · cases h
            omega
          · cases h
            omega
        · cases h

end Run

/-! ### Timestamps -/

theorem ofLocal?_zero {t : Instant} (ht : t.Valid) :
    Instant.ofLocal? t.date t.second t.nano 0 = some t := by
  have hsecond := ht.second_lt
  rw [Instant.ofLocal?, Int.sub_zero, if_neg (by omega), if_neg (by omega)]
  rfl

/-- What is written of a moment is read back as that moment. -/
theorem read_write {t : Instant} (ht : t.Valid) : read (write t) = .ok t := by
  have hdate : (!t.date.exists?) = false := by rw [ht.date_exists]; rfl
  have hrun : timestamp.run (write t).toList = .ok (t, []) := by
    simp only [write, String.toList_ofList, List.append_assoc, List.cons_append, List.nil_append]
    rw [timestamp, run_bind (run_date ht.date_exists (stops_cons rfl)),
      run_bind (run_separator _), run_bind (run_timeOfDay ht), run_bind run_offset,
      run_bind run_endOfText, ofLocal?_zero ht, hdate]
    rfl
  rw [read, hrun]
  rfl

/-- A moment that is read is one that there is. -/
theorem valid_of_read {text : String} {t : Instant} (h : read text = .ok t) : t.Valid := by
  rw [read] at h
  cases hrun : timestamp.run text.toList with
  | error fault =>
      rw [hrun] at h
      cases h
  | ok p =>
      rw [hrun] at h
      cases h
      obtain ⟨d, _, -, hrun⟩ := exists_of_run_bind hrun
      obtain ⟨_, _, -, hrun⟩ := exists_of_run_bind hrun
      obtain ⟨⟨second, nano⟩, _, htime, hrun⟩ := exists_of_run_bind hrun
      obtain ⟨shift, _, hshift, hrun⟩ := exists_of_run_bind hrun
      obtain ⟨_, _, -, hrun⟩ := exists_of_run_bind hrun
      split_ifs at hrun with hrange
      · cases hrun
      · rw [not_or, Bool.not_eq_true, Bool.not_eq_false'] at hrange
        split at hrun
        · next hlocal =>
            cases hrun
            exact Instant.valid_of_ofLocal? hrange.1 (validTime_of_run_timeOfDay htime)
              (Nat.lt_of_not_le hrange.2) (emod_of_run_offset hshift) hlocal
        · cases hrun

end Timestamp

end SealedLog
