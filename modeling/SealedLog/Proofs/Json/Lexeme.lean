import SealedLog.Json.Printer
import SealedLog.Json.Record
import Mathlib.Tactic.SplitIfs

/-!
# Reading back texts and numbers

What the printer writes for a text or an integer that fits into 64 bits, the reader takes back, up
to the byte that follows. For a text this is a matter of single characters: `textFrom_escapeChar`,
the bytes of one character as it is written take the machine from plain text to plain text and
add the bytes of the character itself. For a number the digits are collected one by one, and
what has been collected never exceeds the number that they stand for.
-/

namespace SealedLog.Json

/-- The bytes of a list of characters. -/
def utf8Of (cs : List Char) : List UInt8 :=
  cs.flatMap String.utf8EncodeChar

theorem bytesOf_eq (s : String) : bytesOf s = utf8Of s.toList := by
  rw [bytesOf, String.toUTF8_eq_toByteArray, ← String.ofList_toList (s := s),
    String.toByteArray_ofList, String.toList_ofList]
  simp [List.utf8Encode, utf8Of]

theorem bytesOf_ofList (cs : List Char) : bytesOf (String.ofList cs) = utf8Of cs := by
  rw [bytesOf_eq, String.toList_ofList]

theorem bytesOf_append (s t : String) : bytesOf (s ++ t) = bytesOf s ++ bytesOf t := by
  rw [bytesOf_eq, bytesOf_eq, bytesOf_eq, String.toList_append, utf8Of, List.flatMap_append]
  rfl

theorem bytesOf_strText (s : String) : bytesOf (strText s) =
    Reader.ascii '"' :: (utf8Of (s.toList.flatMap escapeChar) ++ [Reader.ascii '"']) := by
  rw [strText, bytesOf_append, bytesOf_append, bytesOf_ofList (s.toList.flatMap escapeChar)]
  rfl

/-- A character of ASCII is one byte. -/
theorem utf8EncodeChar_of_lt {c : Char} (h : c.toNat < 128) :
    String.utf8EncodeChar c = [Reader.ascii c] := by
  have hval : c.val.toNat ≤ 127 := Nat.le_of_lt_succ h
  simp only [String.utf8EncodeChar, if_pos hval]
  rfl

theorem le_ofNat {n : Nat} (h : 128 ≤ n) (hlt : n < 256) : 128 ≤ UInt8.ofNat n := by
  rw [UInt8.le_iff_toNat_le, UInt8.toNat_ofNat', Nat.mod_eq_of_lt hlt]
  exact h

/-- Of any other character no byte is one of ASCII. -/
theorem le_of_mem_utf8EncodeChar {c : Char} (h : 128 ≤ c.toNat) {b : UInt8}
    (hb : b ∈ String.utf8EncodeChar c) : 128 ≤ b := by
  have hval : ¬ c.val.toNat ≤ 127 := Nat.not_le_of_lt h
  have hlast : ∀ n, 128 ≤ UInt8.ofNat (n % 64 + 128) := fun n => le_ofNat (by omega) (by omega)
  simp only [String.utf8EncodeChar, if_neg hval] at hb
  split at hb
  · simp only [List.mem_cons, List.not_mem_nil, or_false] at hb
    rcases hb with rfl | rfl
    · exact le_ofNat (by omega) (by omega)
    · exact hlast _
  · split at hb
    · simp only [List.mem_cons, List.not_mem_nil, or_false] at hb
      rcases hb with rfl | rfl | rfl
      · exact le_ofNat (by omega) (by omega)
      · exact hlast _
      · exact hlast _
    · simp only [List.mem_cons, List.not_mem_nil, or_false] at hb
      rcases hb with rfl | rfl | rfl | rfl
      · exact le_ofNat (by omega) (by omega)
      · exact hlast _
      · exact hlast _
      · exact hlast _

namespace Reader

variable {taken s : List UInt8}

theorem textFrom_plain {b : UInt8} (hquote : b ≠ ascii '"') (hslash : b ≠ ascii '\\')
    (hcontrol : ¬ b < 32) :
    textFrom .plain taken (b :: s) = textFrom .plain (b :: taken) s := by
  simp only [textFrom, TextState.move, if_neg hquote, if_neg hslash, if_neg hcontrol]
  rfl

theorem textFrom_plains {bs : List UInt8}
    (h : ∀ b ∈ bs, b ≠ ascii '"' ∧ b ≠ ascii '\\' ∧ ¬ b < 32) :
    textFrom .plain taken (bs ++ s) = textFrom .plain (bs.reverse ++ taken) s := by
  induction bs generalizing taken with
  | nil => rfl
  | cons b bs ih =>
      obtain ⟨hquote, hslash, hcontrol⟩ := h b List.mem_cons_self
      rw [List.cons_append, textFrom_plain hquote hslash hcontrol,
        ih fun b' hb' => h b' (List.mem_cons_of_mem b hb'), List.reverse_cons, List.append_assoc]
      rfl

/-- An escape by a single letter. -/
theorem textFrom_escape {letter b : UInt8} (hletter : letter ≠ ascii 'u')
    (h : TextState.escapedByte? letter = some b) :
    textFrom .plain taken (ascii '\\' :: letter :: s) = textFrom .plain (b :: taken) s := by
  simp only [textFrom, TextState.move, if_neg hletter, h]
  rfl

/-- An escape by number, of a character that is not half of one. -/
theorem textFrom_hex {d₁ d₂ d₃ d₄ : UInt8} {n : Nat}
    (h : TextState.hexValue? [d₁, d₂, d₃, d₄] = some n) (hn : n < 0xd800) :
    textFrom .plain taken (ascii '\\' :: ascii 'u' :: d₁ :: d₂ :: d₃ :: d₄ :: s) =
      textFrom .plain ((TextState.utf8 n).reverse ++ taken) s := by
  have hlast : TextState.move d₄ (.hex [d₃, d₂, d₁]) = .go .plain (TextState.utf8 n) := by
    change TextState.afterHex [d₁, d₂, d₃, d₄] = _
    simp only [TextState.afterHex, h]
    rw [if_neg (by omega), if_neg (by omega)]
  calc textFrom .plain taken (ascii '\\' :: ascii 'u' :: d₁ :: d₂ :: d₃ :: d₄ :: s)
      = textFrom (.hex [d₃, d₂, d₁]) taken (d₄ :: s) := rfl
    _ = textFrom .plain ((TextState.utf8 n).reverse ++ taken) s := by
        rw [textFrom, hlast]

/-- How a control character is written by number, and what the reader makes of that. -/
theorem utf8Of_control : ∀ n < 32,
    utf8Of (['\\', 'u', '0', '0'] ++ Hex.ofByte (UInt8.ofNat n)) =
      [ascii '\\', ascii 'u', ascii '0', ascii '0', ascii (Nat.digitChar (n / 16)),
        ascii (Nat.digitChar (n % 16))] ∧
    TextState.hexValue? [ascii '0', ascii '0', ascii (Nat.digitChar (n / 16)),
      ascii (Nat.digitChar (n % 16))] = some n := by
  decide

theorem ascii_ne {c : Char} (h : c.toNat < 128) {d : Char} (hd : d.toNat < 128) (hne : c ≠ d) :
    ascii c ≠ ascii d := by
  intro heq
  have hnat := congrArg UInt8.toNat heq
  simp only [ascii, UInt8.toNat_ofNat'] at hnat
  exact hne (Char.toNat_inj.1 (by omega))

theorem textFrom_escapeChar (c : Char) :
    textFrom .plain taken (utf8Of (escapeChar c) ++ s) =
      textFrom .plain ((String.utf8EncodeChar c).reverse ++ taken) s := by
  rw [escapeChar]
  split_ifs with hquote hslash hline hreturn htab hback hfeed hcontrol
  · subst hquote
    exact textFrom_escape (by decide) rfl
  · subst hslash
    exact textFrom_escape (by decide) rfl
  · subst hline
    exact textFrom_escape (by decide) rfl
  · subst hreturn
    exact textFrom_escape (by decide) rfl
  · subst htab
    exact textFrom_escape (by decide) rfl
  · subst hback
    exact textFrom_escape (by decide) rfl
  · subst hfeed
    exact textFrom_escape (by decide) rfl
  · obtain ⟨hwritten, hvalue⟩ := utf8Of_control c.toNat hcontrol
    rw [hwritten]
    refine (textFrom_hex hvalue (by omega)).trans ?_
    rw [TextState.utf8, Char.ofNat_toNat]
    rfl
  · rw [utf8Of, List.flatMap_singleton]
    refine textFrom_plains fun b hb => ?_
    by_cases hascii : c.toNat < 128
    · rw [utf8EncodeChar_of_lt hascii, List.mem_singleton] at hb
      subst hb
      refine ⟨ascii_ne hascii (by decide) hquote, ascii_ne hascii (by decide) hslash, ?_⟩
      rw [ascii, UInt8.lt_iff_toNat_lt, UInt8.toNat_ofNat', Nat.mod_eq_of_lt (by omega)]
      exact hcontrol
    · have hle := le_of_mem_utf8EncodeChar (Nat.le_of_not_lt hascii) hb
      refine ⟨?_, ?_, ?_⟩
      · rintro rfl
        exact absurd hle (by decide)
      · rintro rfl
        exact absurd hle (by decide)
      · rw [UInt8.le_iff_toNat_le] at hle
        rw [UInt8.lt_iff_toNat_lt]
        change ¬ b.toNat < 32
        change 128 ≤ b.toNat at hle
        omega

theorem textFrom_escaped (cs : List Char) :
    textFrom .plain taken (utf8Of (cs.flatMap escapeChar) ++ s) =
      textFrom .plain ((utf8Of cs).reverse ++ taken) s := by
  induction cs generalizing taken with
  | nil => rfl
  | cons c cs ih =>
      have hsplit : utf8Of ((c :: cs).flatMap escapeChar) =
          utf8Of (escapeChar c) ++ utf8Of (cs.flatMap escapeChar) := by
        rw [List.flatMap_cons, utf8Of, List.flatMap_append]
        rfl
      rw [hsplit, List.append_assoc, textFrom_escapeChar, ih, utf8Of, utf8Of, List.flatMap_cons,
        List.reverse_append, List.append_assoc]

theorem decodeText?_utf8Of (text : String) : decodeText? (utf8Of text.toList) = some text := by
  rw [← bytesOf_eq, decodeText?, bytesOf, String.toUTF8_eq_toByteArray, Array.toArray_toList,
    String.fromUTF8?, dif_pos text.isValidUTF8]
  rfl

/-- A text as it is written is read back. -/
theorem quotedText_strText (text : String) (rest : List UInt8) :
    quotedText (bytesOf (strText text) ++ rest) = .ok text rest := by
  have hclose : textFrom .plain (utf8Of text.toList).reverse (ascii '"' :: rest) =
      .ok text rest := by
    have hmove : TextState.move (ascii '"') .plain = .close := rfl
    rw [textFrom, hmove]
    simp only [List.reverse_reverse, decodeText?_utf8Of]
  have hopen : quotedText (bytesOf (strText text) ++ rest) = textFrom .plain []
      (utf8Of (text.toList.flatMap escapeChar) ++ (ascii '"' :: rest)) := by
    rw [bytesOf_strText, List.cons_append, List.append_assoc]
    rfl
  rw [hopen, textFrom_escaped, List.append_nil, hclose]

/-! ### Numbers -/

/-- The number that digits stand for, behind the digits of `start`. -/
def valueOf (start : Nat) (ds : List UInt8) : Nat :=
  ds.foldl (fun n d => 10 * n + digitValue d) start

theorem le_valueOf (start : Nat) (ds : List UInt8) : start ≤ valueOf start ds := by
  induction ds generalizing start with
  | nil => exact Nat.le_refl _
  | cons d ds ih =>
      refine Nat.le_trans ?_ (ih (10 * start + digitValue d))
      omega

/-- Digits of a number that fits are all collected. -/
theorem ofDigits_eq {start : Nat} {ds : List UInt8} (h : valueOf start ds < UInt64.size) :
    Significand.ofDigits ds start = ⟨valueOf start ds, 0⟩ := by
  induction ds generalizing start with
  | nil => rfl
  | cons d ds ih =>
      have hfit : 10 * start + digitValue d < UInt64.size :=
        Nat.lt_of_le_of_lt (le_valueOf _ ds) h
      have hnext := ih h
      rw [Significand.ofDigits] at hnext ⊢
      rw [List.foldl_cons, if_pos ⟨rfl, hfit⟩, hnext]
      rfl

theorem digit_facts : ∀ k < 10,
    String.utf8EncodeChar (Nat.digitChar k) = [ascii (Nat.digitChar k)] ∧
    isDigit (ascii (Nat.digitChar k)) = true ∧ digitValue (ascii (Nat.digitChar k)) = k ∧
    (k ≠ 0 → ascii (Nat.digitChar k) ≠ ascii '0') := by
  decide

/-- The digits of a number that is not zero. -/
theorem utf8Of_toDigits {n : Nat} (hpos : 0 < n) :
    ∃ d ds, utf8Of (Nat.toDigits 10 n) = d :: ds ∧ d ≠ ascii '0' ∧ isDigit d = true ∧
      (∀ b ∈ ds, isDigit b = true) ∧ valueOf (digitValue d) ds = n := by
  induction n using Nat.strongRecOn with
  | ind n ih =>
      rw [Nat.toDigits_eq_if (by decide)]
      by_cases hlt : n < 10
      · obtain ⟨hbytes, hdigit, hvalue, hzero⟩ := digit_facts n hlt
        rw [if_pos hlt, utf8Of, List.flatMap_singleton, hbytes]
        exact ⟨_, [], rfl, hzero (by omega), hdigit, by simp, hvalue⟩
      · obtain ⟨hbytes, hdigit, hvalue, -⟩ := digit_facts (n % 10) (by omega)
        obtain ⟨d, ds, hfront, hne, hd, hds, hn⟩ := ih (n / 10) (by omega) (by omega)
        refine ⟨d, ds ++ [ascii (Nat.digitChar (n % 10))], ?_, hne, hd, ?_, ?_⟩
        · rw [if_neg hlt, utf8Of, List.flatMap_append, List.flatMap_singleton, hbytes]
          rw [utf8Of] at hfront
          rw [hfront]
          rfl
        · intro b hb
          rcases List.mem_append.1 hb with hb | hb
          · exact hds b hb
          · rw [List.mem_singleton.1 hb]
            exact hdigit
        · rw [valueOf, List.foldl_append]
          rw [valueOf] at hn
          rw [hn, List.foldl_cons, List.foldl_nil, hvalue]
          omega

/-- What may follow a value: the end of the text, a space, or a mark that is no part of it. -/
def Ends (rest : List UInt8) : Prop :=
  ∀ b, rest.head? = some b →
    isSpace b = true ∨ b = ascii ',' ∨ b = ascii ']' ∨ b = ascii '\x7d'

theorem Ends.not_continues (h : Ends s) {b : UInt8} (hb : s.head? = some b) :
    isDigit b = false ∧ b ≠ ascii '.' ∧ b ≠ ascii 'e' ∧ b ≠ ascii 'E' := by
  have hspace : ∀ b : UInt8, isSpace b = true →
      isDigit b = false ∧ b ≠ ascii '.' ∧ b ≠ ascii 'e' ∧ b ≠ ascii 'E' := by
    intro b hb
    simp only [isSpace, Bool.or_eq_true, beq_iff_eq] at hb
    rcases hb with ((rfl | rfl) | rfl) | rfl <;> decide
  rcases h b hb with hb | rfl | rfl | rfl
  · exact hspace b hb
  · decide
  · decide
  · decide

/-- The digits before what may follow a number are taken, and nothing else is. -/
theorem digits_append {ds : List UInt8} (hds : ∀ b ∈ ds, isDigit b = true) (h : Ends s) :
    digits (ds ++ s) = .ok ds s := by
  have hstop : s.takeWhile isDigit = [] ∧ s.dropWhile isDigit = s := by
    cases s with
    | nil => exact ⟨rfl, rfl⟩
    | cons b s =>
        have hb := (h.not_continues rfl).1
        exact ⟨List.takeWhile_cons_of_neg (by simp [hb]), List.dropWhile_cons_of_neg (by simp [hb])⟩
  rw [digits, List.takeWhile_append_of_pos hds, List.dropWhile_append_of_pos hds, hstop.1, hstop.2,
    List.append_nil]

/-- A number that has no fraction and no exponent. -/
theorem afterDigits_eq (h : Ends s) (positive : Bool) (n : Nat) :
    afterDigits positive ⟨n, 0⟩ s = integerOf positive n s := by
  cases hs : s.head? with
  | none => simp [afterDigits, peek?, bind, EStateM.bind, hs]
  | some b =>
      obtain ⟨-, hpoint, he, hE⟩ := h.not_continues hs
      simp [afterDigits, peek?, bind, EStateM.bind, hs, hpoint, he, hE]

theorem unsignedNumber_toDigits (positive : Bool) {n : Nat} (hn : n < UInt64.size)
    {rest : List UInt8} (h : Ends rest) :
    unsignedNumber positive (utf8Of (Nat.toDigits 10 n) ++ rest) = integerOf positive n rest := by
  rcases Nat.eq_zero_or_pos n with rfl | hpos
  · have hzero : utf8Of (Nat.toDigits 10 0) = [ascii '0'] := by decide
    rw [hzero, List.singleton_append]
    cases hs : rest.head? with
    | none =>
        simp [unsignedNumber, next?, peek?, bind, EStateM.bind, hs, afterDigits_eq h]
    | some b =>
        simp [unsignedNumber, next?, peek?, bind, EStateM.bind, hs, afterDigits_eq h,
          (h.not_continues hs).1]
  · obtain ⟨d, ds, hbytes, hne, hd, hds, hvalue⟩ := utf8Of_toDigits hpos
    rw [hbytes, List.cons_append]
    simp [unsignedNumber, next?, bind, EStateM.bind, hne, hd, digits_append hds h,
      ofDigits_eq (hvalue ▸ hn), hvalue, afterDigits_eq h]

theorem bytesOf_repr (n : Nat) : bytesOf (scalarText (.nat n)) = utf8Of (Nat.toDigits 10 n) := by
  have htext : scalarText (.nat n) = String.ofList (Nat.toDigits 10 n) := rfl
  rw [htext, bytesOf_ofList]

/-- The first byte of the text of a natural number is a digit. -/
theorem exists_bytesOf_nat (value : Nat) :
    ∃ d ds, bytesOf (scalarText (.nat value)) = d :: ds ∧ isDigit d = true := by
  rw [bytesOf_repr]
  rcases Nat.eq_zero_or_pos value with rfl | hpos
  · exact ⟨ascii '0', [], by decide, by decide⟩
  · obtain ⟨d, ds, hbytes, -, hd, -⟩ := utf8Of_toDigits hpos
    exact ⟨d, ds, hbytes, hd⟩

/-- A natural number as it is written is read back. -/
theorem number_repr {n : Nat} (hn : n < UInt64.size) {rest : List UInt8} (h : Ends rest) :
    number (bytesOf (scalarText (.nat n)) ++ rest) = .ok (.int n) rest := by
  have hunsigned := unsignedNumber_toDigits true hn h
  obtain ⟨d, ds, hbytes, hd⟩ := exists_bytesOf_nat n
  have hminus : d ≠ ascii '-' := by
    rintro rfl
    exact absurd hd (by decide)
  rw [← bytesOf_repr, hbytes, List.cons_append] at hunsigned
  rw [hbytes, List.cons_append]
  simp [number, peek?, bind, EStateM.bind, hminus, hunsigned, integerOf, pure, EStateM.pure]

theorem bytesOf_negSucc (n : Nat) : bytesOf (scalarText (.int (Int.negSucc n))) =
    ascii '-' :: utf8Of (Nat.toDigits 10 (n + 1)) := by
  have htext : scalarText (.int (Int.negSucc n)) =
      String.singleton '-' ++ String.ofList (Nat.toDigits 10 (n + 1)) := rfl
  rw [htext, bytesOf_append, bytesOf_ofList]
  rfl

/-- A negative number as it is written is read back. -/
theorem number_negSucc {n : Nat} (hn : n < Nat.pow 2 63) {rest : List UInt8} (h : Ends rest) :
    number (bytesOf (scalarText (.int (Int.negSucc n))) ++ rest) =
      .ok (.int (Int.negSucc n)) rest := by
  have hsize : n + 1 < UInt64.size := Nat.lt_of_le_of_lt hn (by decide)
  have hunsigned := unsignedNumber_toDigits false hsize h
  have hrange : 0 < n + 1 ∧ n + 1 ≤ Nat.pow 2 63 := ⟨Nat.succ_pos n, hn⟩
  rw [bytesOf_negSucc, List.cons_append]
  calc number (ascii '-' :: (utf8Of (Nat.toDigits 10 (n + 1)) ++ rest))
      = unsignedNumber false (utf8Of (Nat.toDigits 10 (n + 1)) ++ rest) := rfl
    _ = .ok (.int (Int.negSucc n)) rest := by
        rw [hunsigned, integerOf, if_neg Bool.false_ne_true, if_pos hrange]
        rfl

end Reader

end SealedLog.Json
