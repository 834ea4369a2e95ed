import SealedLog.Proofs.Json.Tuples

/-!
# Reading unions

What a tagged union gives is made by one of its alternatives, from the members of an object or
from the items of an array (`exists_makes_of_gives_read`). What is written with the tag before
the other members is read back as that alternative makes it of them: `reads_union`.
-/

namespace SealedLog.Json

open Layout Reader

variable {α : Type} {a : α}

/-- The alternative makes the value of some members, or of some items. -/
def Variant.Makes (v : Variant α) (a : α) : Prop :=
  (∃ members, v.ofMembers members = .ok a) ∨ ∃ items, v.ofItems items = .ok a

theorem Variant.eq_of_makes_unit {name : String} {a' : α} (h : (unit name a').Makes a) :
    a = a' := by
  rcases h with ⟨members, h⟩ | ⟨items, h⟩
  · cases h
    rfl
  · simp only [unit] at h
    split at h
    · cases h
      rfl
    · cases h

theorem Variant.given_of_makes_ofFields {γ : Type} {name title : String}
    {fs : Fields Inspector γ} {make : γ → α} (h : (ofFields name title fs make).Makes a) :
    ∃ tuple, a = make tuple ∧ fs.Given inspecting tuple := by
  rcases h with ⟨members, h⟩ | ⟨items, h⟩
  · change Except.map make (fs.ofMembers members) = _ at h
    cases hmembers : fs.ofMembers members with
    | error _ =>
        rw [hmembers] at h
        cases h
    | ok tuple =>
        rw [hmembers] at h
        cases h
        exact ⟨tuple, rfl, Fields.given_of_ofMembers hmembers⟩
  · simp only [ofFields] at h
    cases hitems : fs.ofItems ("struct variant " ++ title ++ " with " ++ fs.elements) 0 items with
    | error _ =>
        simp only [bind, Except.bind, hitems] at h
        cases h
    | ok pair =>
        obtain ⟨tuple, left⟩ := pair
        simp only [bind, Except.bind, hitems] at h
        split at h
        · cases h
          exact ⟨tuple, rfl, Fields.given_of_ofItems hitems⟩
        · cases h

theorem Fields.ofMembers_field {name : String} {read : Inspector α} {j : Json}
    (h : read j = .ok a) :
    (Fields.cons (field name read) .nil).ofMembers [(name, j)] = .ok (a, ()) := by
  have hcollect : (Fields.cons (field name read) .nil).collect [(name, j)]
      (Fields.cons (field name read) .nil).blank = .ok (some a, ()) := by
    simp only [collect, offer, field, if_true, blank]
    change (do collect _ [] (← Except.map _ (read j))) = _
    rw [h]
    rfl
  rw [ofMembers, hcollect]
  rfl

theorem Variant.ofMembers_ofFields {γ : Type} {fs : Fields Inspector γ} {tuple : γ}
    {members : List (String × Json)} (h : fs.ofMembers members = .ok tuple) (name title : String)
    (make : γ → α) : (ofFields name title fs make).ofMembers members = .ok (make tuple) := by
  change Except.map make (fs.ofMembers members) = _
  rw [h]
  rfl

namespace Union

variable {u : Union α} {v : Variant α} {n : Nat} {scope : Scope}

theorem mem_of_gives_takeTag (h : Json.Gives n u.takeTag v) : v ∈ u.variants := by
  obtain ⟨name, h⟩ := exists_of_gives_textAs h
  rw [variantOf] at h
  split at h
  next hfind =>
    cases h
    exact List.mem_of_find?_eq_some hfind
  · cases h

theorem mem_of_gives_takeMembers {budget : Nat} {first : Bool} {tag? : Option (Variant α)}
    {done : List (String × Json)} {result : Option (Variant α) × List (String × Json)}
    (h : Reader.Gives (u.takeMembers budget first tag? done scope) result)
    (htag : ∀ v ∈ tag?, v ∈ u.variants) : ∀ v ∈ result.1, v ∈ u.variants := by
  induction budget generalizing first tag? done with
  | zero => exact (Reader.not_gives_failNext h).elim
  | succ budget ih =>
      obtain ⟨more, -, h⟩ := of_decoder_bind h
      cases more with
      | false =>
          rw [Reader.Gives.of_pure h]
          exact htag
      | true =>
          obtain ⟨name, -, h⟩ := of_decoder_bind h
          by_cases hname : name = u.tag
          · simp only [if_pos hname] at h
            cases tag? with
            | some _ => exact (Reader.not_gives_failUnplaced h).elim
            | none =>
                obtain ⟨-, -, h⟩ := of_decoder_bind h
                obtain ⟨v, hv, h⟩ := of_decoder_bind h
                refine ih h ?_
                rintro _ ⟨⟩
                exact mem_of_gives_takeTag ⟨scope, rfl, hv⟩
          · simp only [if_neg hname] at h
            obtain ⟨-, -, h⟩ := of_decoder_bind h
            obtain ⟨j, -, h⟩ := of_decoder_bind h
            exact ih h htag

theorem mem_of_gives_takeObject {members : List (String × Json)}
    (h : Reader.Gives (u.takeObject scope) (v, members)) : v ∈ u.variants := by
  obtain ⟨_, -, h⟩ := of_decoder_bind h
  obtain ⟨⟨tag?, done⟩, htake, h⟩ := of_decoder_bind h
  have hmem := mem_of_gives_takeMembers htake (by rintro _ ⟨⟩)
  cases tag? with
  | none => exact (Reader.not_gives_failUnplaced h).elim
  | some v' =>
      cases Reader.Gives.of_pure h
      exact hmem v rfl

theorem mem_of_gives_takeList {items : List Json}
    (h : Reader.Gives (u.takeList scope) (v, items)) : v ∈ u.variants := by
  obtain ⟨more, -, h⟩ := of_decoder_bind h
  cases more with
  | false => exact (Reader.not_gives_failUnplaced h).elim
  | true =>
      obtain ⟨v', hv, h⟩ := of_decoder_bind h
      obtain ⟨_, -, h⟩ := of_decoder_bind h
      obtain ⟨_, -, h⟩ := of_decoder_bind h
      cases Reader.Gives.of_pure h
      exact mem_of_gives_takeTag ⟨scope, rfl, hv⟩

/-- What a union gives is made by one of its alternatives. -/
theorem exists_makes_of_gives_read (h : Json.Gives n u.read a) : ∃ v ∈ u.variants, v.Makes a := by
  obtain ⟨scope, rfl, h⟩ := h
  obtain ⟨next?, -, h⟩ := of_decoder_bind h
  cases next? with
  | none => exact (Reader.not_gives_mismatch _ h).elim
  | some b =>
      dsimp only at h
      split at h
      · obtain ⟨_, -, inner, -, h⟩ := gives_of_nested ⟨scope, rfl, h⟩
        obtain ⟨-, -, h⟩ := Reader.Gives.of_bind h
        obtain ⟨⟨v, items⟩, htake, h⟩ := Reader.Gives.of_bind h
        exact ⟨v, mem_of_gives_takeList htake.of_closedBy, Or.inr ⟨items, h.of_ofExcept⟩⟩
      · split at h
        · obtain ⟨_, -, inner, -, h⟩ := gives_of_nested ⟨scope, rfl, h⟩
          obtain ⟨-, -, h⟩ := Reader.Gives.of_bind h
          obtain ⟨⟨v, members⟩, htake, h⟩ := Reader.Gives.of_bind h
          exact ⟨v, mem_of_gives_takeObject htake.of_closedBy, Or.inl ⟨members, h.of_ofExcept⟩⟩
        · exact (Reader.not_gives_mismatch _ h).elim

/-! ### Reading back -/

variable {blanks s : List UInt8} {ms : List (String × Json)}

theorem reads_takeTag (hv : u.variantOf v.name = .ok v) : Reads 0 u.takeTag (.str v.name) v :=
  reads_textAs "variant identifier" hv

/-- What has been taken of an object: the tag, if it has come, and the other members, the last one
first. -/
abbrev Taken (α : Type) :=
  Option (Variant α) × List (String × Json)

/-- The tag is looked up, and any other member is put before those that came earlier. -/
inductive Takes (n : Nat) (u : Union α) : Taken α → String × Json → Taken α → Prop
  | tag {done : List (String × Json)} {j : Json} {v : Variant α} (hread : Reads n u.takeTag j v) :
      Takes n u (none, done) (u.tag, j) (some v, done)
  | other {tag? : Option (Variant α)} {done : List (String × Json)} {m : String × Json}
      (hname : m.1 ≠ u.tag) (hread : Reads n Reader.value m.2 m.2) :
      Takes n u (tag?, done) m (tag?, m :: done)

theorem memberLoop (u : Union α) (hdepth : n ≤ scope.depth) :
    MemberLoop scope (fun budget first st => u.takeMembers budget first st.1 st.2 scope)
      (u.Takes n) id where
  step := by
    rintro L depth budget first st st' m s rest htakes hmember hends hbudget
    cases htakes with
    | tag hread =>
        rw [takeMembers]
        refine (lift_bind_ok hmember _).trans ?_
        rw [if_pos rfl]
        refine (lift_bind_ok (quotedText_strText u.tag _) _).trans ?_
        rw [if_pos rfl]
        refine (lift_bind_ok colon_eq _).trans ?_
        exact decoder_bind_ok (hread.read_eq L depth hends L.blank_gap hdepth hbudget) _
    | other hname hread =>
        refine (lift_bind_ok hmember _).trans ?_
        rw [if_pos rfl]
        refine (lift_bind_ok (quotedText_strText m.1 _) _).trans ?_
        rw [if_neg hname]
        refine (lift_bind_ok colon_eq _).trans ?_
        exact decoder_bind_ok (hread.read_eq L depth hends L.blank_gap hdepth hbudget) _
  stop hclose := lift_bind_ok hclose _

theorem read_brace (hblank : Blank blanks) (hdepth : 0 < scope.depth) :
    u.read scope (blanks ++ ascii '\x7b' :: s) =
      ((u.takeObject scope.inner).closedBy endObject >>= fun (v, members) =>
        ofExcept (v.ofMembers members)) s := by
  refine (lift_bind_ok (peekPastSpace?_eq hblank (by decide)) _).trans ?_
  dsimp only
  rw [if_neg (by decide), if_pos rfl, nested_eq _ hdepth]
  rfl

/-- An alternative that is written with its tag first is read back. -/
theorem reads_union (hv : u.variantOf v.name = .ok v)
    (hms : ∀ m ∈ ms, m.1 ≠ u.tag ∧ Reads n Reader.value m.2 m.2) (ha : v.ofMembers ms = .ok a) :
    Reads (n + 1) u.read (.obj ((u.tag, .str v.name) :: ms)) a where
  starts L depth rest := ⟨_, _, rfl, by decide, by decide⟩
  read_eq L depth rest blanks scope hends hblank hdepth hbudget := by
    change _ < scope.inner.budget at hbudget
    have htag : Reads n u.takeTag (.str v.name) v := (reads_takeTag hv).mono (Nat.zero_le n)
    have hothers : Leads (u.Takes n) (some v, []) ms (some v, ms.reverse ++ []) :=
      leads_reverse (g := fun done => (some v, done))
        (fun m hm _ => .other (hms m hm).1 (hms m hm).2) []
    have hleads := Leads.cons (.tag htag) hothers
    obtain ⟨s, hspell, htake⟩ :=
      (u.memberLoop (Scope.le_depth_inner hdepth)).run_spell hleads hbudget
    have hobject : u.takeObject scope.inner s = .ok (v, ms) (ascii '\x7d' :: rest) := by
      refine (decoder_bind_ok htake _).trans ?_
      change EStateM.Result.ok (v, (ms.reverse ++ []).reverse) _ = _
      rw [List.append_nil, List.reverse_reverse]
    rw [hspell, read_brace hblank (by omega)]
    refine (bind_ok (closedBy_ok hobject endObject_eq) _).trans ?_
    change ofExcept (v.ofMembers ms) rest = _
    rw [ha]
    rfl

end Union

end SealedLog.Json
