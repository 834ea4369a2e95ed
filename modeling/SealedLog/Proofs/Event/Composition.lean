import SealedLog.Proofs.Event.Redaction

/-!
# Redactors one after the other

A value that went through one redactor and then through another is the value that comes out of a
third one just if the third masks the fields that the first or the second masks: a field masked
twice has the mask once, and of what stands below a masked field nothing is left for the other to
look for. So neither the order of the two matters nor that of the calls which a redactor was made
of.

Main statement: `redact_redact_of_union`.
-/

namespace SealedLog

namespace Redactor

/-- The redactor of the fields `everywhere` that is given the fields of each call, in the order of
the calls, for the operation of that call. -/
def ofCalls (everywhere : List String) (calls : List (String × List String)) : Redactor :=
  calls.foldl (fun r (operation, fields) => r.withOperation operation fields)
    (.ofFields everywhere)

section Masked

variable {operation name : String} {fields : List String}

theorem masked_ofFields_iff : (ofFields fields).Masked operation name ↔ name ∈ fields := by
  simp [Masked, ofFields]

/-- One call adds its fields, and it adds them in its own operation only. -/
theorem masked_withOperation_iff {r : Redactor} {operation' : String} :
    (r.withOperation operation' fields).Masked operation name ↔
      r.Masked operation name ∨ (operation = operation' ∧ name ∈ fields) := by
  simp only [Masked, withOperation, List.mem_append, List.mem_singleton, Prod.mk.injEq]
  constructor
  · rintro (hname | ⟨_, hmem | ⟨rfl, rfl⟩, hname⟩)
    · exact Or.inl (Or.inl hname)
    · exact Or.inl (Or.inr ⟨_, hmem, hname⟩)
    · exact Or.inr ⟨rfl, hname⟩
  · rintro ((hname | ⟨_, hmem, hname⟩) | ⟨rfl, hname⟩)
    · exact Or.inl hname
    · exact Or.inr ⟨_, Or.inl hmem, hname⟩
    · exact Or.inr ⟨fields, Or.inr ⟨rfl, rfl⟩, hname⟩

theorem masked_foldl_withOperation_iff (calls : List (String × List String)) (r : Redactor) :
    (calls.foldl (fun r (operation, fields) => r.withOperation operation fields) r).Masked
        operation name ↔
      r.Masked operation name ∨ ∃ fields, (operation, fields) ∈ calls ∧ name ∈ fields := by
  induction calls generalizing r with
  | nil => simp
  | cons call calls ih =>
      obtain ⟨operation', fields⟩ := call
      rw [List.foldl_cons, ih, masked_withOperation_iff, or_assoc]
      refine or_congr_right ?_
      constructor
      · rintro (⟨rfl, hname⟩ | ⟨fields', hmem, hname⟩)
        · exact ⟨fields, List.mem_cons_self, hname⟩
        · exact ⟨fields', List.mem_cons_of_mem _ hmem, hname⟩
      · rintro ⟨fields', hmem, hname⟩
        rcases List.mem_cons.1 hmem with heq | hmem
        · obtain ⟨rfl, rfl⟩ := Prod.mk.inj heq
          exact Or.inl ⟨rfl, hname⟩
        · exact Or.inr ⟨fields', hmem, hname⟩

theorem masked_ofCalls_iff {calls : List (String × List String)} :
    (ofCalls fields calls).Masked operation name ↔
      name ∈ fields ∨ ∃ fields', (operation, fields') ∈ calls ∧ name ∈ fields' := by
  rw [ofCalls, masked_foldl_withOperation_iff, masked_ofFields_iff]

end Masked

section Redact

variable {a b c : Redactor} {operation : String}

/-- The third redactor masks what the first or the second masks. -/
def Joins (operation : String) (a b c : Redactor) : Prop :=
  ∀ name, c.Masked operation name ↔ a.Masked operation name ∨ b.Masked operation name

theorem redactMember_redactMember (hjoins : Joins operation a b c) {name : String} {value : Json}
    (hvalue : a.redact operation (b.redact operation value) = c.redact operation value) :
    a.redactMember operation (b.redactMember operation (name, value)) =
      c.redactMember operation (name, value) := by
  by_cases hb : b.Masked operation name
  · rw [redactMember_of_masked hb, redactMember_of_masked ((hjoins name).2 (Or.inr hb))]
    by_cases ha : a.Masked operation name
    · rw [redactMember_of_masked ha]
    · -- the mask is a text, in which no field stands
      rw [redactMember_of_not_masked ha]
      rfl
  · rw [redactMember_of_not_masked hb]
    by_cases ha : a.Masked operation name
    · rw [redactMember_of_masked ha, redactMember_of_masked ((hjoins name).2 (Or.inl ha))]
    · have hc : ¬ c.Masked operation name := fun hc => ((hjoins name).1 hc).elim ha hb
      rw [redactMember_of_not_masked ha, redactMember_of_not_masked hc, hvalue]

theorem Joins.redact_redact (hjoins : Joins operation a b c) (j : Json) :
    a.redact operation (b.redact operation j) = c.redact operation j := by
  induction j using Json.induct with
  | scalar j hj => rw [redact_scalar hj, redact_scalar hj, redact_scalar hj]
  | arr items ih =>
      simp only [redact, redactItems_eq, List.map_map, Json.arr.injEq]
      exact List.map_congr_left ih
  | obj members ih =>
      simp only [redact, redactMembers_eq, List.map_map, Json.obj.injEq]
      exact List.map_congr_left fun m hm => redactMember_redactMember hjoins (ih m hm)

theorem redact_singleton (r : Redactor) (m : String × Json) :
    r.redact operation (.obj [m]) = .obj [r.redactMember operation m] := by
  rw [redact, redactMembers_eq, List.map_singleton]

/-- A field with no value in it comes out with a mask just if it is masked. -/
theorem redactMember_null_eq_iff {r : Redactor} {name : String} :
    r.redactMember operation (name, .null) = (name, mask) ↔ r.Masked operation name := by
  refine ⟨fun heq => ?_, redactMember_of_masked⟩
  by_contra hmasked
  rw [redactMember_of_not_masked hmasked] at heq
  cases congrArg Prod.snd heq

/-- Redactors that redact a single field alike mask it alike. -/
theorem joins_of_redact_redact
    (hredact : ∀ j, a.redact operation (b.redact operation j) = c.redact operation j) :
    Joins operation a b c := by
  intro name
  have hmember : a.redactMember operation (b.redactMember operation (name, .null)) =
      c.redactMember operation (name, .null) := by
    have hsingle := hredact (.obj [(name, .null)])
    rw [redact_singleton, redact_singleton, redact_singleton] at hsingle
    simpa using hsingle
  rw [← redactMember_null_eq_iff (r := c), ← hmember]
  by_cases hb : b.Masked operation name
  · have hmask : a.redactMember operation (name, mask) = (name, mask) := by
      by_cases ha : a.Masked operation name
      · exact redactMember_of_masked ha
      · exact redactMember_of_not_masked ha
    rw [redactMember_of_masked hb, hmask]
    exact iff_of_true rfl (Or.inr hb)
  · rw [redactMember_of_not_masked hb]
    exact redactMember_null_eq_iff.trans (or_iff_left hb).symm

theorem joins_self (operation : String) (a : Redactor) : Joins operation a a a :=
  fun _ => or_self_iff.symm

theorem Joins.symm (hjoins : Joins operation a b c) : Joins operation b a c :=
  fun name => (hjoins name).trans or_comm

theorem redact_redact_eq_iff :
    (∀ j, a.redact operation (b.redact operation j) = c.redact operation j) ↔
      Joins operation a b c :=
  ⟨joins_of_redact_redact, Joins.redact_redact⟩

/-- What a redactor does is a matter of the fields that it masks. -/
theorem redact_congr (hmasked : ∀ name, a.Masked operation name ↔ b.Masked operation name)
    (j : Json) : a.redact operation j = b.redact operation j := by
  have hjoins : Joins operation b b a := fun name => (hmasked name).trans or_self_iff.symm
  rw [← hjoins.redact_redact, (joins_self operation b).redact_redact]

theorem joins_ofCalls {f g u : List String} {cs ds es : List (String × List String)}
    (hfields : ∀ name, name ∈ u ↔ name ∈ f ∨ name ∈ g)
    (hcalls : ∀ call, call ∈ es ↔ call ∈ cs ∨ call ∈ ds) (operation : String) :
    Joins operation (ofCalls f cs) (ofCalls g ds) (ofCalls u es) := by
  intro name
  simp only [masked_ofCalls_iff, hfields, hcalls, or_and_right, exists_or]
  exact or_or_or_comm

end Redact

/-- Two redactors, one after the other and in either order, redact every value to what a redactor
does that has the fields of both for every operation and all the calls of both, whatever their
order. A second time a redactor changes nothing, and the order of its calls does not matter. No
redactor does as the two do but those that mask, in the operation, the fields that either was
given for it and no others. -/
theorem redact_redact_of_union {f g u : List String} {cs ds es : List (String × List String)}
    (hfields : ∀ name, name ∈ u ↔ name ∈ f ∨ name ∈ g)
    (hcalls : ∀ call, call ∈ es ↔ call ∈ cs ∨ call ∈ ds) (operation : String) :
    (∀ j, (ofCalls f cs).redact operation ((ofCalls g ds).redact operation j) =
        (ofCalls u es).redact operation j ∧
      (ofCalls g ds).redact operation ((ofCalls f cs).redact operation j) =
        (ofCalls u es).redact operation j ∧
      (ofCalls f cs).redact operation ((ofCalls f cs).redact operation j) =
        (ofCalls f cs).redact operation j ∧
      ∀ cs', cs'.Perm cs →
        (ofCalls f cs').redact operation j = (ofCalls f cs).redact operation j) ∧
    ∀ r : Redactor,
      (∀ j, (ofCalls f cs).redact operation ((ofCalls g ds).redact operation j) =
        r.redact operation j) ↔
      ∀ name, r.masks operation name = true ↔ (name ∈ f ∨ name ∈ g) ∨
        ∃ fields, ((operation, fields) ∈ cs ∨ (operation, fields) ∈ ds) ∧ name ∈ fields := by
  have hjoins := joins_ofCalls hfields hcalls operation
  constructor
  · intro j
    refine ⟨hjoins.redact_redact j, hjoins.symm.redact_redact j,
      (joins_self operation (ofCalls f cs)).redact_redact j, fun cs' hperm => ?_⟩
    refine redact_congr (fun name => ?_) j
    simp only [masked_ofCalls_iff, hperm.mem_iff]
  · intro r
    rw [redact_redact_eq_iff]
    refine forall_congr' fun name => ?_
    rw [masks_iff, ← hjoins name, masked_ofCalls_iff, hfields]
    simp only [hcalls]

/-- Calls for one operation, of which the second repeats a field of the first. -/
def pinCalls : List (String × List String) :=
  [("login", ["pin"]), ("login", ["password", "pin"])]

/-- Calls for two operations. -/
def authCalls : List (String × List String) :=
  [("logout", ["user"]), ("login", ["auth"])]

/-- Parameters with a token inside of what else is masked as a whole. -/
def sessionParams : Json :=
  .obj [("auth", .obj [("token", .str "abc"), ("user", .str "bob")]),
    ("list", .arr [.obj [("password", .str "x"), ("pin", .int 1), ("user", .str "bob")]])]

/-- The fields of the one redactor stand below those of the other and beside them. -/
theorem redact_redact_sessionParams :
    (∀ name, name ∈ ["password", "token"] ↔ name ∈ ["token"] ∨ name ∈ ["password"]) ∧
    (∀ call, call ∈ authCalls ++ pinCalls.reverse ↔ call ∈ pinCalls ∨ call ∈ authCalls) ∧
    (ofCalls ["token"] pinCalls).redact "login"
        ((ofCalls ["password"] authCalls).redact "login" sessionParams) =
      (ofCalls ["password", "token"] (authCalls ++ pinCalls.reverse)).redact "login"
        sessionParams ∧
    (ofCalls ["password", "token"] (authCalls ++ pinCalls.reverse)).redact "login" sessionParams =
      .obj [("auth", mask),
        ("list", .arr [.obj [("password", mask), ("pin", mask), ("user", .str "bob")]])] := by
  have hfields : ∀ name, name ∈ ["password", "token"] ↔
      name ∈ ["token"] ∨ name ∈ ["password"] := by
    simp [or_comm]
  have hcalls : ∀ call, call ∈ authCalls ++ pinCalls.reverse ↔
      call ∈ pinCalls ∨ call ∈ authCalls := by
    simp [or_comm]
  exact ⟨hfields, hcalls,
    ((redact_redact_of_union hfields hcalls "login").1 sessionParams).1, rfl⟩

end Redactor

end SealedLog
