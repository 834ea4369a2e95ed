import SealedLog.Proofs.Json.Canonical
import SealedLog.Service.Recording
import SealedLog.Service.Request

/-!
# What redaction hides

Two values are alike for an operation if they differ in nothing but the values of masked fields:
`Alike`. A redactor maps two values to the same if and only if they are alike. So it hides the
values of masked fields, at any depth, and nothing else, and two requests that differ only there
come to the same events, rows and trees.

Main statement: `redact_noninterference`.
-/

namespace SealedLog

open Json

/-- A member of that name and value stands in the value, at some depth. -/
inductive Json.Within (name : String) (value : Json) : Json → Prop
  | here {members : List (String × Json)} (mem : (name, value) ∈ members) :
      Within name value (.obj members)
  | item {items : List Json} {j : Json} (mem : j ∈ items) (within : Within name value j) :
      Within name value (.arr items)
  | member {members : List (String × Json)} {m : String × Json} (mem : m ∈ members)
      (within : Within name value m.2) : Within name value (.obj members)

namespace Redactor

/-- The values of the field are masked in the operation. -/
def Masked (r : Redactor) (operation field : String) : Prop :=
  field ∈ r.everywhere ∨ ∃ fields, (operation, fields) ∈ r.perOperation ∧ field ∈ fields

/-- The values are the same but for those of masked fields. -/
inductive Alike (r : Redactor) (operation : String) : Json → Json → Prop
  | scalar {j : Json} (isScalar : j.IsScalar) : Alike r operation j j
  | arr {ps qs : List Json} (length_eq : ps.length = qs.length)
      (alike : ∀ (i : Nat) p q, ps[i]? = some p → qs[i]? = some q → Alike r operation p q) :
      Alike r operation (.arr ps) (.arr qs)
  | obj {ps qs : List (String × Json)}
      (names : ∀ name, name ∈ ps.map Prod.fst ↔ name ∈ qs.map Prod.fst)
      (alike : ∀ name p q, (name, p) ∈ ps → (name, q) ∈ qs → ¬ r.Masked operation name →
        Alike r operation p q) :
      Alike r operation (.obj ps) (.obj qs)

variable {r : Redactor} {operation name : String} {p q value : Json}

theorem masks_iff : r.masks operation name = true ↔ r.Masked operation name := by
  rw [masks, Bool.or_eq_true, List.contains_iff_mem, List.any_eq_true, Masked]
  refine or_congr_right ?_
  constructor
  · rintro ⟨⟨o, fields⟩, hmem, hfield⟩
    rw [Bool.and_eq_true, beq_iff_eq, List.contains_iff_mem] at hfield
    obtain ⟨rfl, hfield⟩ := hfield
    exact ⟨fields, hmem, hfield⟩
  · rintro ⟨fields, hmem, hfield⟩
    exact ⟨(operation, fields), hmem, by simpa using hfield⟩

theorem redact_scalar (h : p.IsScalar) : r.redact operation p = p := by
  cases p with
  | arr _ => exact h.elim
  | obj _ => exact h.elim
  | _ => rfl

theorem redactItems_eq (items : List Json) :
    r.redactItems operation items = items.map (r.redact operation) := by
  induction items with
  | nil => rfl
  | cons j items ih => rw [redactItems, ih, List.map_cons]

/-- What becomes of one member. -/
def redactMember (r : Redactor) (operation : String) (m : String × Json) : String × Json :=
  (m.1, if r.masks operation m.1 then mask else r.redact operation m.2)

theorem redactMembers_eq (members : List (String × Json)) :
    r.redactMembers operation members = members.map (r.redactMember operation) := by
  induction members with
  | nil => rfl
  | cons m members ih =>
      rw [redactMembers, ih, List.map_cons]
      rfl

theorem redactMember_of_masked (h : r.Masked operation name) :
    r.redactMember operation (name, value) = (name, mask) := by
  rw [redactMember, if_pos (masks_iff.2 h)]

theorem redactMember_of_not_masked (h : ¬ r.Masked operation name) :
    r.redactMember operation (name, value) = (name, r.redact operation value) := by
  rw [redactMember, if_neg (mt masks_iff.1 h)]

/-- Values that are alike are redacted to the same. -/
theorem Alike.redact_eq (h : r.Alike operation p q) (hp : p.Ordered) (hq : q.Ordered) :
    r.redact operation p = r.redact operation q := by
  induction h with
  | scalar _ => rfl
  | @arr ps qs length_eq _ ih =>
      rw [redact, redact, redactItems_eq, redactItems_eq]
      refine congrArg Json.arr (List.ext_getElem (by simpa using length_eq) fun i hi hi' => ?_)
      rw [List.length_map] at hi hi'
      rw [List.getElem_map, List.getElem_map]
      exact ih i _ _ (List.getElem?_eq_getElem hi) (List.getElem?_eq_getElem hi')
        (hp.of_mem_items _ (List.getElem_mem hi)) (hq.of_mem_items _ (List.getElem_mem hi'))
  | @obj ps qs names _ ih =>
      have hnames := hp.sorted_members.map_fst_eq hq.sorted_members names
      rw [redact, redact, redactMembers_eq, redactMembers_eq]
      refine congrArg Json.obj (List.ext_getElem ?_ fun i hi hi' => ?_)
      · simpa using congrArg List.length hnames
      · rw [List.length_map] at hi hi'
        have hmem := List.getElem_mem hi
        have hmem' := List.getElem_mem hi'
        have hname : ps[i].1 = qs[i].1 := by
          have hat := congrArg (·[i]?) hnames
          simpa [hi, hi'] using hat
        rw [List.getElem_map, List.getElem_map]
        generalize ps[i] = m at hmem hname
        generalize qs[i] = m' at hmem' hname
        obtain ⟨name, p⟩ := m
        obtain ⟨_, q⟩ := m'
        obtain rfl : name = _ := hname
        by_cases hmasked : r.Masked operation name
        · rw [redactMember_of_masked hmasked, redactMember_of_masked hmasked]
        · rw [redactMember_of_not_masked hmasked, redactMember_of_not_masked hmasked,
            ih name p q hmem hmem' hmasked (hp.of_mem_members _ hmem) (hq.of_mem_members _ hmem')]

/-- Values that are redacted to the same are alike. -/
theorem alike_of_redact_eq (hq : q.Ordered) (h : r.redact operation p = r.redact operation q) :
    r.Alike operation p q := by
  induction p using Json.induct generalizing q with
  | scalar p hp =>
      rw [redact_scalar hp] at h
      subst h
      cases q with
      | arr _ => exact hp.elim
      | obj _ => exact hp.elim
      | _ => exact .scalar trivial
  | arr ps ih =>
      cases q with
      | arr qs =>
          rw [redact, redact, redactItems_eq, redactItems_eq, Json.arr.injEq] at h
          refine .arr (by simpa using congrArg List.length h) fun i p q hp hq' => ?_
          have hat := congrArg (·[i]?) h
          simp only [List.getElem?_map, hp, hq', Option.map_some, Option.some.injEq] at hat
          exact ih p (List.mem_of_getElem? hp) (hq.of_mem_items q (List.mem_of_getElem? hq')) hat
      | _ => cases h
  | obj ps ih =>
      cases q with
      | obj qs =>
          rw [redact, redact, redactMembers_eq, redactMembers_eq, Json.obj.injEq] at h
          refine .obj (fun name => ?_) fun name p q hp hq' hmasked => ?_
          · have hnames := congrArg (List.map Prod.fst) h
            rw [List.map_map, List.map_map] at hnames
            change ps.map Prod.fst = qs.map Prod.fst at hnames
            rw [hnames]
          · have hmem := List.mem_map_of_mem (f := r.redactMember operation) hp
            rw [h, List.mem_map] at hmem
            obtain ⟨⟨name', q'⟩, hmem, heq⟩ := hmem
            obtain rfl : name' = name := congrArg Prod.fst heq
            obtain rfl := hq.sorted_members.eq_of_mem hmem hq'
            rw [redactMember_of_not_masked hmasked, redactMember_of_not_masked hmasked,
              Prod.mk.injEq] at heq
            exact ih _ hp (hq.of_mem_members _ hq') heq.2.symm
      | _ => cases h

/-- Wherever a masked field stands in a redacted value, it has the mask for its value. -/
theorem eq_mask_of_within (hwithin : Within name value (r.redact operation p))
    (hmasked : r.Masked operation name) : value = mask := by
  induction p using Json.induct with
  | scalar p hp =>
      rw [redact_scalar hp] at hwithin
      cases hwithin <;> exact hp.elim
  | arr ps ih =>
      rw [redact, redactItems_eq] at hwithin
      cases hwithin with
      | item hmem hwithin =>
          obtain ⟨p, hp, rfl⟩ := List.mem_map.1 hmem
          exact ih p hp hwithin
  | obj ps ih =>
      rw [redact, redactMembers_eq] at hwithin
      cases hwithin with
      | here hmem =>
          obtain ⟨⟨name', p⟩, -, heq⟩ := List.mem_map.1 hmem
          obtain rfl : name' = name := congrArg Prod.fst heq
          rw [redactMember_of_masked hmasked] at heq
          exact (congrArg Prod.snd heq).symm
      | member hmem hwithin =>
          obtain ⟨⟨name', p⟩, hp, rfl⟩ := List.mem_map.1 hmem
          by_cases hmasked' : r.Masked operation name'
          · rw [redactMember_of_masked hmasked'] at hwithin
            cases hwithin
          · rw [redactMember_of_not_masked hmasked'] at hwithin
            exact ih _ hp hwithin

/-- Two values come out of redaction the same if and only if they are alike, and what comes out
has the mask wherever a masked field stands. So events made of alike parameters have the same
payload, and a service that is asked to record either comes to the same state. -/
theorem redact_noninterference (r : Redactor) (operation : String) {p q : Json} (hp : p.Ordered)
    (hq : q.Ordered) :
    (r.redact operation p = r.redact operation q ↔ r.Alike operation p q) ∧
    (∀ name value, Within name value (r.redact operation p) → r.Masked operation name →
      value = mask) ∧
    (r.Alike operation p q →
      (∀ id caller status startedAt durationMs,
        (Event.make id caller operation p status startedAt durationMs r).payload =
          (Event.make id caller operation q status startedAt durationMs r).payload) ∧
      ∀ {σ : Type} [SnapshotStore σ] (s : Service.State σ Uuid) (mishaps : Service.Mishaps)
        (request : Service.RecordRequest) (id : Uuid) (time : Instant) (now : Nat),
        request.operation = operation →
        s.post mishaps now id ({ request with params := p }.event id time r).payload =
          s.post mishaps now id ({ request with params := q }.event id time r).payload) := by
  refine ⟨⟨alike_of_redact_eq hq, fun h => h.redact_eq hp hq⟩,
    fun name value => eq_mask_of_within, fun h => ?_⟩
  have hparams := h.redact_eq hp hq
  refine ⟨fun id caller status startedAt durationMs => ?_, ?_⟩
  · rw [Event.make, Event.make, hparams]
  · rintro σ _ s mishaps request id time now rfl
    rw [Service.RecordRequest.event, Service.RecordRequest.event, Event.make, Event.make, hparams]

/-- Parameters with a password in an array. -/
def loginParams (password : Json) : Json :=
  .obj [("auth", .arr [.obj [("password", password)]]), ("user", .str "bob")]

theorem ordered_loginParams {password : Json} (h : password.Ordered) :
    (loginParams password).Ordered := by
  have hauth : (Json.arr [.obj [("password", password)]]).Ordered := by
    refine .arr fun j hj => ?_
    rw [List.mem_singleton.1 hj]
    refine .obj (List.pairwise_singleton _ _) fun m hm => ?_
    rw [List.mem_singleton.1 hm]
    exact h
  refine .obj ?_ fun m hm => ?_
  · exact List.pairwise_pair.2 (show "auth" < "user" by decide)
  · rcases List.mem_pair.1 hm with rfl | rfl
    · exact hauth
    · exact .scalar trivial

/-- Nothing that stands below a masked field, whatever its kind, makes a difference. -/
theorem payload_loginParams :
    (loginParams (.str "hunter2")).Ordered ∧ (loginParams (.obj [])).Ordered ∧
    ∀ id, (Event.make id "bob" "login" (loginParams (.str "hunter2")) .success .epoch 12
        (.ofFields ["password"])).payload =
      (Event.make id "bob" "login" (loginParams (.obj [])) .success .epoch 12
        (.ofFields ["password"])).payload := by
  have hstr := ordered_loginParams (.scalar (j := .str "hunter2") trivial)
  have hobj : (loginParams (.obj [])).Ordered :=
    ordered_loginParams (.obj .nil fun m hm => absurd hm List.not_mem_nil)
  obtain ⟨hiff, -, hmade⟩ := redact_noninterference (.ofFields ["password"]) "login" hstr hobj
  exact ⟨hstr, hobj, fun id => (hmade (hiff.1 rfl)).1 id "bob" .success .epoch 12⟩

end Redactor

end SealedLog
