import SealedLog.Proofs.Json.Layout
import Mathlib.Data.List.Forall2

/-!
# Reading back what was written

`Reads n read j a` says that a reader takes the text of the value `j`, in any layout, as `a`,
where `n` brackets more may be opened. This is shown for the readers of texts, numbers, lists
and records, each from the readers of its parts, so that a decoder put together from them reads
what the printer writes of the value that goes with it: `Reads.decodeBytes_eq`.

The loops over items and members run on a budget, which has to be greater than the number of
bytes that are left. It is the same for all loops of a text, since none of them gets more than
the whole of it. The members of an object are gone over in several ways, for the fields of a
record, for a union and for a value of any kind: `MemberLoop` is what these loops have in common.
-/

namespace SealedLog.Json

open Layout

/-- The scope inside one more bracket. -/
def Scope.inner (scope : Scope) : Scope :=
  ⟨scope.depth - 1, scope.budget⟩

theorem Scope.le_depth_inner {scope : Scope} {n : Nat} (h : n + 1 ≤ scope.depth) :
    n ≤ scope.inner.depth :=
  Nat.le_sub_of_add_le h

namespace Reader

variable {α β : Type} {blanks s s' s'' : List UInt8} {b : UInt8} {a : α}

/-! ### Single steps -/

theorem bind_ok {read : Reader α} (h : read s = .ok a s') (f : α → Reader β) :
    (read >>= f) s = f a s' := by
  simp only [bind, EStateM.bind, h]

theorem decoder_bind_ok {read : Decoder α} {scope : Scope} (h : read scope s = .ok a s')
    (f : α → Decoder β) : (read >>= f) scope s = f a scope s' := by
  simp only [bind, ReaderT.bind, EStateM.bind, h]

theorem lift_bind_ok {read : Reader α} {scope : Scope} (h : read s = .ok a s')
    (f : α → Decoder β) : ((liftM read : Decoder α) >>= f) scope s = f a scope s' :=
  decoder_bind_ok h f

theorem map_ok {read : Reader α} (h : read s = .ok a s') (f : α → β) :
    (f <$> read) s = .ok (f a) s' := by
  change EStateM.map f read s = _
  simp only [EStateM.map, h]

theorem placed_ok {read : Reader α} (h : read s = .ok a s') : placed read s = .ok a s' := by
  simp only [placed, h]

theorem closedBy_ok {read : Reader α} {close : Reader Unit} (hread : read s = .ok a s')
    (hclose : close s' = .ok () s'') : read.closedBy close s = .ok a s'' := by
  simp only [closedBy, hread, hclose]

theorem skip_cons : skip (b :: s) = .ok () s := rfl

theorem peekPastSpace?_eq (hblank : Blank blanks) (hb : isSpace b = false) :
    peekPastSpace? (blanks ++ b :: s) = .ok (some b) (b :: s) := by
  have hdrop : (blanks ++ b :: s).dropWhile isSpace = b :: s := by
    rw [List.dropWhile_append_of_pos hblank, List.dropWhile_cons_of_neg (by simp [hb])]
  simp only [peekPastSpace?, hdrop, List.head?_cons]

theorem peekPastSpace?_cons (hb : isSpace b = false) :
    peekPastSpace? (b :: s) = .ok (some b) (b :: s) :=
  peekPastSpace?_eq blank_nil hb

theorem hasItem_close (hblank : Blank blanks) (first : Bool) :
    hasItem first (blanks ++ ascii ']' :: s) = .ok false (ascii ']' :: s) :=
  bind_ok (peekPastSpace?_eq hblank (by decide)) _

theorem hasItem_first (hblank : Blank blanks) (hb : isSpace b = false) (hne : b ≠ ascii ']') :
    hasItem true (blanks ++ b :: s) = .ok true (b :: s) := by
  refine (bind_ok (peekPastSpace?_eq hblank hb) _).trans ?_
  dsimp only
  rw [if_neg hne]
  rfl

theorem hasItem_next (hblank : Blank blanks) (hb : isSpace b = false) (hne : b ≠ ascii ']') :
    hasItem false (ascii ',' :: (blanks ++ b :: s)) = .ok true (b :: s) := by
  refine (bind_ok (peekPastSpace?_cons (by decide)) _).trans ?_
  dsimp only
  rw [if_neg (by decide), if_neg Bool.false_ne_true, if_pos rfl]
  refine (bind_ok skip_cons _).trans
    ((bind_ok (peekPastSpace?_eq hblank hb) _).trans ?_)
  dsimp only
  rw [if_neg hne]
  rfl

theorem hasMember_close (hblank : Blank blanks) (first : Bool) :
    hasMember first (blanks ++ ascii '\x7d' :: s) = .ok false (ascii '\x7d' :: s) :=
  bind_ok (peekPastSpace?_eq hblank (by decide)) _

theorem hasMember_first (hblank : Blank blanks) (name : String) :
    hasMember true (blanks ++ (bytesOf (strText name) ++ s)) =
      .ok true (bytesOf (strText name) ++ s) := by
  rw [bytesOf_strText, List.cons_append]
  exact bind_ok (peekPastSpace?_eq hblank (by decide)) _

theorem hasMember_next (hblank : Blank blanks) (name : String) :
    hasMember false (ascii ',' :: (blanks ++ (bytesOf (strText name) ++ s))) =
      .ok true (bytesOf (strText name) ++ s) := by
  rw [bytesOf_strText, List.cons_append]
  refine (bind_ok (peekPastSpace?_cons (by decide)) _).trans ?_
  dsimp only
  rw [if_neg (by decide), if_neg Bool.false_ne_true, if_pos rfl]
  exact (bind_ok skip_cons _).trans
    (bind_ok (peekPastSpace?_eq hblank (by decide)) _)

theorem colon_eq : colon (ascii ':' :: s) = .ok () s :=
  bind_ok (peekPastSpace?_cons (by decide)) _

theorem endList_eq : endList (ascii ']' :: s) = .ok () s :=
  bind_ok (peekPastSpace?_cons (by decide)) _

theorem endObject_eq : endObject (ascii '\x7d' :: s) = .ok () s :=
  bind_ok (peekPastSpace?_cons (by decide)) _

theorem isSpace_of_isDigit (hb : isDigit b = true) : isSpace b = false := by
  by_contra hspace
  simp only [isSpace, Bool.not_eq_false, Bool.or_eq_true, beq_iff_eq] at hspace
  rcases hspace with ((rfl | rfl) | rfl) | rfl <;> exact absurd hb (by decide)

/-! ### The kinds of value, by their first byte -/

variable {n limit : Nat} {expected : String} {scope : Scope} {item : Decoder α}

theorem textAs_quote {make : String → Except Cause α} (hblank : Blank blanks) :
    textAs expected make scope (blanks ++ ascii '"' :: s) =
      (placed do
        let text ← quotedText
        ofExcept (make text)) (ascii '"' :: s) :=
  lift_bind_ok (peekPastSpace?_eq hblank (by decide)) _

theorem natBelow_digit (hblank : Blank blanks) (hb : isDigit b = true) :
    natBelow limit expected scope (blanks ++ b :: s) =
      (placed do
        let j ← number
        ofExcept (natOf limit expected j)) (b :: s) := by
  refine (lift_bind_ok (peekPastSpace?_eq hblank (isSpace_of_isDigit hb)) _).trans ?_
  dsimp only
  rw [if_pos (Or.inr hb)]
  rfl

theorem nested_eq (read : Decoder α) (h : 0 < scope.depth) :
    nested read scope = read scope.inner := by
  obtain ⟨depth, hdepth⟩ := Nat.exists_eq_succ_of_ne_zero (Nat.ne_of_gt h)
  simp only [nested, Scope.inner, hdepth, Nat.succ_eq_add_one, Nat.add_sub_cancel]

theorem list_bracket (hblank : Blank blanks) (hdepth : 0 < scope.depth) :
    Reader.list item scope (blanks ++ ascii '[' :: s) =
      ((itemsFrom (item scope.inner) scope.inner.budget true []).closedBy
        endList) s := by
  refine (lift_bind_ok (peekPastSpace?_eq hblank (by decide)) _).trans ?_
  dsimp only
  rw [if_pos rfl, nested_eq _ hdepth]
  rfl

end Reader

open Reader

/-- The reader takes the text of `j` as `a`, where `n` brackets may be opened. -/
structure Reads {α : Type} (n : Nat) (read : Decoder α) (j : Json) (a : α) : Prop where
  starts : ∀ (L : Layout) (depth : Nat) (rest : List UInt8),
    ∃ b s, L.spell depth j rest = b :: s ∧ isSpace b = false ∧ b ≠ ascii ']'
  read_eq : ∀ (L : Layout) (depth : Nat) {rest blanks : List UInt8} {scope : Scope},
    Ends rest → Blank blanks → n ≤ scope.depth →
      (L.spell depth j rest).length < scope.budget →
        read scope (blanks ++ L.spell depth j rest) = .ok a rest

section Reads

variable {α β : Type} {n m : Nat} {read : Decoder α} {j : Json} {a : α}

theorem Reads.mono (h : Reads n read j a) (hle : n ≤ m) : Reads m read j a where
  starts := h.starts
  read_eq L depth _ _ _ hends hblank hdepth hbudget :=
    h.read_eq L depth hends hblank (Nat.le_trans hle hdepth) hbudget

theorem Reads.map (h : Reads n read j a) (f : α → β) : Reads n (f <$> read) j (f a) where
  starts := h.starts
  read_eq L depth _ _ _ hends hblank hdepth hbudget :=
    map_ok (h.read_eq L depth hends hblank hdepth hbudget) f

theorem reads_textAs {make : String → Except Cause α} {text : String} (expected : String)
    (hmake : make text = .ok a) : Reads 0 (textAs expected make) (.str text) a where
  starts L depth rest := by
    simp only [spell, scalarText, bytesOf_strText, List.cons_append]
    exact ⟨_, _, rfl, by decide, by decide⟩
  read_eq L depth rest blanks scope _ hblank _ _ := by
    have hquoted := quotedText_strText text rest
    simp only [spell, scalarText]
    rw [bytesOf_strText, List.cons_append] at hquoted ⊢
    rw [textAs_quote hblank]
    refine placed_ok ((bind_ok hquoted _).trans ?_)
    rw [hmake]
    rfl

theorem reads_text (text : String) : Reads 0 Reader.text (.str text) text :=
  reads_textAs "a string" rfl

theorem natOf_nat {limit value : Nat} {expected : String} (h : value < limit) :
    natOf limit expected (.nat value) = .ok value := by
  rw [Json.nat, natOf, if_pos ⟨Int.natCast_nonneg value, Int.ofNat_lt.2 h⟩, Int.toNat_natCast]

theorem reads_natBelow {limit : Nat} {value : Nat} (hlimit : limit ≤ UInt64.size)
    (hvalue : value < limit) (expected : String) :
    Reads 0 (natBelow limit expected) (.nat value) value where
  starts L depth rest := by
    obtain ⟨d, ds, hbytes, hd⟩ := exists_bytesOf_nat value
    refine ⟨d, ds ++ rest, ?_, isSpace_of_isDigit hd, ?_⟩
    · rw [← List.cons_append, ← hbytes]
      rfl
    · rintro rfl
      exact absurd hd (by decide)
  read_eq L depth rest blanks scope hends hblank _ _ := by
    obtain ⟨d, ds, hbytes, hd⟩ := exists_bytesOf_nat value
    have hnumber := number_repr (Nat.lt_of_lt_of_le hvalue hlimit) hends
    change natBelow limit expected scope (blanks ++ (bytesOf (scalarText (.nat value)) ++ rest)) = _
    rw [hbytes, List.cons_append] at hnumber ⊢
    rw [natBelow_digit hblank hd]
    refine placed_ok ((bind_ok hnumber _).trans ?_)
    change ofExcept (natOf limit expected (.nat value)) rest = _
    rw [natOf_nat hvalue]
    rfl

/-! ### Lists -/

variable {item : Decoder α} {js : List Json} {as : List α} {L : Layout} {depth budget : Nat}
  {scope : Scope} {blanks rest : List UInt8}

theorem ends_close (hblank : Blank blanks) {b : UInt8} (hb : b = ascii ']' ∨ b = ascii '\x7d') :
    Ends (blanks ++ b :: rest) := by
  intro c hc
  cases blanks with
  | nil =>
      cases hc
      rcases hb with rfl | rfl
      · exact Or.inr (Or.inr (Or.inl rfl))
      · exact Or.inr (Or.inr (Or.inr rfl))
  | cons d blanks =>
      cases hc
      exact Or.inl (hblank c List.mem_cons_self)

theorem ends_spellItems (h : Ends rest) : Ends (L.spellItems depth js rest) := by
  cases js with
  | nil => exact h
  | cons j js =>
      intro b hb
      rw [spellItems] at hb
      cases hb
      exact Or.inr (Or.inl rfl)

/-- The items after the first. -/
theorem itemsFrom_spellItems (h : List.Forall₂ (Reads n item) js as) (hdepth : n ≤ scope.depth)
    (hblank : Blank blanks) (hle : budget ≤ scope.budget)
    (hbudget : (L.spellItems depth js (blanks ++ ascii ']' :: rest)).length < budget)
    (done : List α) :
    itemsFrom (item scope) budget false done
        (L.spellItems depth js (blanks ++ ascii ']' :: rest)) =
      .ok (done.reverse ++ as) (ascii ']' :: rest) := by
  obtain ⟨budget, rfl⟩ := Nat.exists_eq_succ_of_ne_zero (Nat.ne_zero_of_lt hbudget)
  induction h generalizing budget done with
  | nil =>
      rw [spellItems, itemsFrom, List.append_nil]
      exact bind_ok (hasItem_close hblank false) _
  | @cons j a js as hitem hitems ih =>
      have hends : Ends (L.spellItems depth js (blanks ++ ascii ']' :: rest)) :=
        ends_spellItems (ends_close hblank (Or.inl rfl))
      obtain ⟨b, s, hspell, hspace, hne⟩ :=
        hitem.starts L depth (L.spellItems depth js (blanks ++ ascii ']' :: rest))
      rw [spellItems, List.length_cons, List.length_append] at hbudget
      have hsuffix := (suffix_spell L depth j
        (L.spellItems depth js (blanks ++ ascii ']' :: rest))).length_le
      have hread := hitem.read_eq L depth hends blank_nil hdepth
        (Nat.lt_of_lt_of_le (by omega) hle)
      obtain ⟨budget, rfl⟩ := Nat.exists_eq_succ_of_ne_zero (show budget ≠ 0 by omega)
      have hnext := ih (a :: done) budget (by omega) (by omega)
      rw [List.nil_append, hspell] at hread
      have hdone : done.reverse ++ a :: as = (a :: done).reverse ++ as := by
        rw [List.reverse_cons, List.append_assoc, List.singleton_append]
      rw [spellItems, hspell, itemsFrom, hdone, ← hnext]
      refine (bind_ok (hasItem_next (L.blank_line depth) hspace hne) _).trans ?_
      exact bind_ok hread _

/-- All items of an array. -/
theorem itemsFrom_spell (h : List.Forall₂ (Reads n item) js as) (hdepth : n ≤ scope.depth)
    (hbudget : (L.spell depth (.arr js) rest).length < scope.budget) :
    ∃ s, L.spell depth (.arr js) rest = ascii '[' :: s ∧
      itemsFrom (item scope) scope.budget true [] s = .ok as (ascii ']' :: rest) := by
  obtain ⟨budget, hsucc⟩ := Nat.exists_eq_succ_of_ne_zero (Nat.ne_zero_of_lt hbudget)
  rw [hsucc]
  cases h with
  | nil => exact ⟨_, rfl, bind_ok (hasItem_close blank_nil true) _⟩
  | @cons j a js as hitem hitems =>
      have hends : Ends (L.spellItems (depth + 1) js (L.line depth ++ ascii ']' :: rest)) :=
        ends_spellItems (ends_close (L.blank_line depth) (Or.inl rfl))
      obtain ⟨b, s, hspell, hspace, hne⟩ := hitem.starts L (depth + 1)
        (L.spellItems (depth + 1) js (L.line depth ++ ascii ']' :: rest))
      rw [spell, List.length_cons, List.length_append] at hbudget
      have hsuffix := (suffix_spell L (depth + 1) j
        (L.spellItems (depth + 1) js (L.line depth ++ ascii ']' :: rest))).length_le
      have hbelow : budget ≤ scope.budget := by omega
      have hread := hitem.read_eq L (depth + 1) hends blank_nil hdepth (by omega)
      have hmore := itemsFrom_spellItems hitems hdepth (L.blank_line depth) hbelow
        (Nat.lt_of_le_of_lt hsuffix (by omega)) [a]
      rw [List.nil_append, hspell] at hread
      refine ⟨_, by rw [spell], ?_⟩
      rw [hspell]
      exact (bind_ok (hasItem_first (L.blank_line _) hspace hne) _).trans
        ((bind_ok hread _).trans hmore)

theorem reads_list (h : List.Forall₂ (Reads n item) js as) :
    Reads (n + 1) (Reader.list item) (.arr js) as where
  starts L depth rest := by
    cases js with
    | nil => exact ⟨_, _, rfl, by decide, by decide⟩
    | cons j js => exact ⟨_, _, rfl, by decide, by decide⟩
  read_eq L depth rest blanks scope hends hblank hdepth hbudget := by
    change _ < scope.inner.budget at hbudget
    obtain ⟨s, hspell, hitems⟩ := itemsFrom_spell h (Scope.le_depth_inner hdepth) hbudget
    rw [hspell, list_bracket hblank (by omega)]
    exact closedBy_ok hitems endList_eq

end Reads

/-! ### Members -/

section Members

variable {σ ρ : Type} {budget depth : Nat} {L : Layout} {scope : Scope}
  {ms : List (String × Json)} {blanks rest : List UInt8} {loop : Nat → Bool → σ → Reader ρ}
  {takes : σ → String × Json → σ → Prop} {finish : σ → ρ} {st st' : σ}

/-- A loop over the members of an object, with what it has gathered as its state: a member takes
it from one state to the next, and at the brace it makes its result of the last one. -/
structure MemberLoop (scope : Scope) (loop : Nat → Bool → σ → Reader ρ)
    (takes : σ → String × Json → σ → Prop) (finish : σ → ρ) : Prop where
  step : ∀ {L : Layout} {depth budget : Nat} {first : Bool} {st st' : σ} {m : String × Json}
    {s rest : List UInt8}, takes st m st' →
      hasMember first s =
        .ok true (bytesOf (strText m.1) ++ ascii ':' :: (L.gap ++ L.spell depth m.2 rest)) →
      Ends rest → (L.spell depth m.2 rest).length < scope.budget →
        loop (budget + 1) first st s = loop budget false st' rest
  stop : ∀ {budget : Nat} {first : Bool} {st : σ} {s s' : List UInt8},
    hasMember first s = .ok false s' → loop (budget + 1) first st s = .ok (finish st) s'

/-- The members, one after the other, take a loop from one state to another. -/
inductive Leads (takes : σ → String × Json → σ → Prop) : σ → List (String × Json) → σ → Prop
  | nil {st : σ} : Leads takes st [] st
  | cons {st st' st'' : σ} {m : String × Json} {ms : List (String × Json)} (hfirst : takes st m st')
      (hrest : Leads takes st' ms st'') : Leads takes st (m :: ms) st''

/-- A loop that puts each member before those that came earlier. -/
theorem leads_reverse {g : List (String × Json) → σ}
    (h : ∀ m ∈ ms, ∀ done, takes (g done) m (g (m :: done))) (done : List (String × Json)) :
    Leads takes (g done) ms (g (ms.reverse ++ done)) := by
  induction ms generalizing done with
  | nil => exact .nil
  | cons m ms ih =>
      have hrest := ih (fun m hm => h m (List.mem_cons_of_mem _ hm)) (m :: done)
      rw [List.reverse_cons, List.append_assoc, List.singleton_append]
      exact .cons (h m List.mem_cons_self done) hrest

theorem ends_spellMembers (h : Ends rest) : Ends (L.spellMembers depth ms rest) := by
  cases ms with
  | nil => exact h
  | cons m ms =>
      intro b hb
      rw [spellMembers] at hb
      cases hb
      exact Or.inr (Or.inl rfl)

/-- The members after the first. -/
theorem MemberLoop.run_spellMembers (hloop : MemberLoop scope loop takes finish)
    (h : Leads takes st ms st') (hblank : Blank blanks) (hle : budget ≤ scope.budget)
    (hbudget : (L.spellMembers depth ms (blanks ++ ascii '\x7d' :: rest)).length < budget) :
    loop budget false st (L.spellMembers depth ms (blanks ++ ascii '\x7d' :: rest)) =
      .ok (finish st') (ascii '\x7d' :: rest) := by
  obtain ⟨budget, rfl⟩ := Nat.exists_eq_succ_of_ne_zero (Nat.ne_zero_of_lt hbudget)
  induction h generalizing budget with
  | nil =>
      rw [spellMembers]
      exact hloop.stop (hasMember_close hblank false)
  | @cons st st₁ st' m ms hfirst _ ih =>
      have hends : Ends (L.spellMembers depth ms (blanks ++ ascii '\x7d' :: rest)) :=
        ends_spellMembers (ends_close hblank (Or.inr rfl))
      rw [spellMembers, List.length_cons, List.length_append, List.length_append,
        List.length_cons, List.length_append] at hbudget
      have hsuffix := (suffix_spell L depth m.2
        (L.spellMembers depth ms (blanks ++ ascii '\x7d' :: rest))).length_le
      have hmember := hasMember_next (s := ascii ':' :: (L.gap ++ L.spell depth m.2
        (L.spellMembers depth ms (blanks ++ ascii '\x7d' :: rest)))) (L.blank_line depth) m.1
      rw [spellMembers, hloop.step hfirst hmember hends (Nat.lt_of_lt_of_le (by omega) hle)]
      obtain ⟨budget, rfl⟩ := Nat.exists_eq_succ_of_ne_zero (show budget ≠ 0 by omega)
      exact ih budget (by omega) (by omega)

/-- All members of an object. -/
theorem MemberLoop.run_spell (hloop : MemberLoop scope loop takes finish)
    (h : Leads takes st ms st') (hbudget : (L.spell depth (.obj ms) rest).length < scope.budget) :
    ∃ s, L.spell depth (.obj ms) rest = ascii '\x7b' :: s ∧
      loop scope.budget true st s = .ok (finish st') (ascii '\x7d' :: rest) := by
  obtain ⟨budget, hsucc⟩ := Nat.exists_eq_succ_of_ne_zero (Nat.ne_zero_of_lt hbudget)
  rw [hsucc]
  cases h with
  | nil => exact ⟨_, rfl, hloop.stop (hasMember_close blank_nil true)⟩
  | @cons _ st₁ _ m ms hfirst hrest =>
      have hends : Ends (L.spellMembers (depth + 1) ms (L.line depth ++ ascii '\x7d' :: rest)) :=
        ends_spellMembers (ends_close (L.blank_line depth) (Or.inr rfl))
      have hsuffix := (suffix_spell L (depth + 1) m.2
        (L.spellMembers (depth + 1) ms (L.line depth ++ ascii '\x7d' :: rest))).length_le
      have hmember := hasMember_first (s := ascii ':' :: (L.gap ++ L.spell (depth + 1) m.2
        (L.spellMembers (depth + 1) ms (L.line depth ++ ascii '\x7d' :: rest))))
        (L.blank_line (depth + 1)) m.1
      rw [spell, List.length_cons, List.length_append, List.length_append, List.length_cons,
        List.length_append] at hbudget
      refine ⟨_, by rw [spell], ?_⟩
      rw [hloop.step hfirst hmember hends (by omega)]
      exact hloop.run_spellMembers hrest (L.blank_line depth) (by omega)
        (Nat.lt_of_le_of_lt hsuffix (by omega))

end Members

/-! ### Records -/

namespace Fields

variable {R : Type → Type} {γ : Type}

def names : {γ : Type} → Fields R γ → List String
  | _, .nil => []
  | _, .cons f rest => f.name :: rest.names

/-- The draft that has the first `k` fields of a tuple. -/
def fill : {γ : Type} → (fs : Fields R γ) → γ → (k : Nat) → fs.Draft
  | _, .nil, _, _ => ()
  | _, .cons _ rest, _, 0 => (none, rest.blank)
  | _, .cons _ rest, (a, tuple), k + 1 => (some a, rest.fill tuple k)

theorem fill_zero (fs : Fields R γ) (tuple : γ) : fs.fill tuple 0 = fs.blank := by
  cases fs with
  | nil => rfl
  | cons f rest => rfl

theorem finish_fill (fs : Fields R γ) (tuple : γ) :
    fs.finish (fs.fill tuple fs.size) = .ok tuple := by
  induction fs with
  | nil => rfl
  | cons f rest ih =>
      obtain ⟨a, tuple⟩ := tuple
      have hrest := ih tuple
      change (fun tuple => (a, tuple)) <$> rest.finish (rest.fill tuple rest.size) = _
      rw [hrest]
      rfl

/-- The members are the fields in their order, and are read as the parts of the tuple. -/
inductive Reads (n : Nat) : {γ : Type} → Fields Decoder γ → List (String × Json) → γ → Prop where
  | nil : Reads n .nil [] ()
  | cons {α β : Type} {f : Field Decoder α} {rest : Fields Decoder β} {j : Json} {a : α}
      {ms : List (String × Json)} {tuple : β} (hfield : Json.Reads n f.read j a)
      (hrest : Reads n rest ms tuple) : Reads n (.cons f rest) ((f.name, j) :: ms) (a, tuple)

variable {n k : Nat} {fs : Fields Decoder γ} {ms : List (String × Json)} {tuple : γ}
  {name : String} {j : Json} {scope : Scope}

theorem Reads.length_eq (h : fs.Reads n ms tuple) : ms.length = fs.size := by
  induction h with
  | nil => rfl
  | cons _ _ ih => rw [List.length_cons, ih, size]

theorem Reads.mem_names (h : fs.Reads n ms tuple) (hk : ms[k]? = some (name, j)) :
    name ∈ fs.names := by
  induction h generalizing k with
  | nil => simp at hk
  | cons _ _ ih =>
      cases k with
      | zero =>
          cases hk
          exact List.mem_cons_self
      | succ k => exact List.mem_cons_of_mem _ (ih hk)

/-- The member that comes after `k` others fills the next field. -/
theorem Reads.offer_fill (h : fs.Reads n ms tuple) (hnames : fs.names.Nodup)
    (hk : ms[k]? = some (name, j)) :
    ∃ next, fs.offer name (fs.fill tuple k) = .read next ∧
      Json.Reads n next j (fs.fill tuple (k + 1)) := by
  induction h generalizing k with
  | nil => simp at hk
  | @cons α β f rest j' a ms tuple hfield hrest ih =>
      cases k with
      | zero =>
          cases hk
          refine ⟨(fun a => (some a, rest.blank)) <$> f.read, ?_, ?_⟩
          · simp only [fill, offer, if_true]
          · rw [fill, fill_zero]
            exact hfield.map fun a => (some a, rest.blank)
      | succ k =>
          have hother : name ≠ f.name := by
            rintro rfl
            exact (List.nodup_cons.1 hnames).1 (hrest.mem_names hk)
          obtain ⟨next, hoffer, hnext⟩ := ih (List.nodup_cons.1 hnames).2 hk
          refine ⟨(fun draft => (some a, draft)) <$> next, ?_, ?_⟩
          · simp only [fill, offer, if_neg hother, hoffer]
          · exact hnext.map fun draft => (some a, draft)

/-- A member fills a field that is still free. -/
def Takes (n : Nat) (fs : Fields Decoder γ) (draft : fs.Draft) (m : String × Json)
    (draft' : fs.Draft) : Prop :=
  ∃ next, fs.offer m.1 draft = .read next ∧ Json.Reads n next m.2 draft'

/-- The fields after the first `k`. -/
theorem Reads.leads (h : fs.Reads n ms tuple) (hnames : fs.names.Nodup) (hk : k ≤ ms.length) :
    Leads (fs.Takes n) (fs.fill tuple k) (ms.drop k) (fs.fill tuple fs.size) := by
  induction hmore : ms.drop k generalizing k with
  | nil =>
      obtain rfl : k = fs.size := by
        rw [← h.length_eq]
        exact Nat.le_antisymm hk (List.drop_eq_nil_iff.1 hmore)
      exact .nil
  | cons m more ih =>
      have hat : ms[k]? = some m := by rw [← List.head?_drop, hmore, List.head?_cons]
      have hdrop : ms.drop (k + 1) = more := by rw [← List.tail_drop, hmore, List.tail_cons]
      exact .cons (h.offer_fill hnames hat) (ih (List.getElem?_eq_some_iff.1 hat).1 hdrop)

theorem memberLoop (fs : Fields Decoder γ) (hdepth : n ≤ scope.depth) :
    MemberLoop scope (fun budget first draft => fs.takeMembers budget first draft scope)
      (fs.Takes n) id where
  step := by
    rintro L depth budget first draft draft' m s rest ⟨next, hoffer, hnext⟩ hmember hends hbudget
    rw [takeMembers]
    refine (lift_bind_ok hmember _).trans ?_
    rw [if_pos rfl]
    refine (lift_bind_ok (quotedText_strText m.1 _) _).trans ?_
    simp only [hoffer]
    refine (lift_bind_ok colon_eq _).trans ?_
    exact decoder_bind_ok (hnext.read_eq L depth hends L.blank_gap hdepth hbudget) _
  stop hclose := by
    rw [takeMembers]
    exact lift_bind_ok hclose _

end Fields

theorem Reader.record_brace {α γ : Type} {name : String} {fs : Fields Decoder γ} {make : γ → α}
    {scope : Scope} {blanks s : List UInt8} (hblank : Blank blanks) (hdepth : 0 < scope.depth) :
    record name fs make scope (blanks ++ ascii '\x7b' :: s) =
      (make <$> (fs.takeObject scope.inner).closedBy endObject) s := by
  refine (lift_bind_ok (peekPastSpace?_eq hblank (by decide)) _).trans ?_
  dsimp only
  rw [if_neg (by decide), if_pos rfl, nested_eq _ hdepth]
  rfl

theorem reads_record {α γ : Type} {n : Nat} {fs : Fields Decoder γ} {ms : List (String × Json)}
    {tuple : γ} (h : fs.Reads n ms tuple) (hnames : fs.names.Nodup) (name : String)
    (make : γ → α) : Reads (n + 1) (record name fs make) (.obj ms) (make tuple) where
  starts L depth rest := by
    cases ms with
    | nil => exact ⟨_, _, rfl, by decide, by decide⟩
    | cons m ms => exact ⟨_, _, rfl, by decide, by decide⟩
  read_eq L depth rest blanks scope hends hblank hdepth hbudget := by
    change _ < scope.inner.budget at hbudget
    have hleads := h.leads hnames (Nat.zero_le _)
    rw [Fields.fill_zero, List.drop_zero] at hleads
    obtain ⟨s, hspell, htake⟩ :=
      (fs.memberLoop (Scope.le_depth_inner hdepth)).run_spell hleads hbudget
    have hobject : fs.takeObject scope.inner s =
        .ok tuple (ascii '\x7d' :: rest) := by
      have hscope : (read : Decoder Scope) scope.inner s = .ok scope.inner s := rfl
      refine (decoder_bind_ok hscope _).trans ((decoder_bind_ok htake _).trans ?_)
      change ofExcept (fs.finish (fs.fill tuple fs.size)) _ = _
      rw [Fields.finish_fill]
      rfl
    rw [hspell, record_brace hblank (by omega)]
    exact map_ok (closedBy_ok hobject endObject_eq) make

/-! ### Whole texts -/

section Whole

variable {α : Type} {n : Nat} {read : Decoder α} {j : Json} {a : α}

/-- A whole text that is that of a value in some layout. -/
theorem Reads.decodeBytes_eq (h : Reads n read j a) (hn : n ≤ maxDepth) (L : Layout) :
    decodeBytes read (L.spell 0 j []) = .ok a := by
  have hends : Ends [] := fun b hb => by cases hb
  have hread : read ⟨maxDepth, (L.spell 0 j []).length + 1⟩ (L.spell 0 j []) = .ok a [] :=
    h.read_eq L 0 hends blank_nil hn (Nat.lt_succ_self _)
  have hall : readAll read (L.spell 0 j []) = .ok a := by
    rw [readAll]
    simp only [bind, EStateM.bind, hread]
    rfl
  rw [decodeBytes, hall]
  rfl

theorem Reads.decode_pretty (h : Reads n read j a) (hn : n ≤ maxDepth) :
    decode read j.pretty = .ok a := by
  rw [decode, bytesOf_pretty]
  exact h.decodeBytes_eq hn indented

theorem Reads.decode_compact (h : Reads n read j a) (hn : n ≤ maxDepth) :
    decode read j.compact = .ok a := by
  rw [decode, bytesOf_compact]
  exact h.decodeBytes_eq hn tight

end Whole

end SealedLog.Json
