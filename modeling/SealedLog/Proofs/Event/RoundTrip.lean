import SealedLog.Event.Basic
import SealedLog.Proofs.Event.Uuid
import SealedLog.Proofs.Json.Unions
import SealedLog.Proofs.Time.Timestamp

/-!
# Writing events and reading them again

Many texts are read as one event: fields may come in any order and as an array, fields that
nobody knows are skipped, and identifiers, times and texts can be spelled in several ways. What
they all give is bounded in the same way (`Event.Sound`), and of a sound event without numbers of
double precision the payload is a text that is read as that event: `Event.read_payload`.

Main statement: `Event.read_payload_of_read`.
-/

namespace SealedLog

open Json

namespace EventStatus

/-- The code of a failure has 16 bits. -/
def Word16 (status : EventStatus) : Prop :=
  ∀ code, status = failure code → code < UInt16.size

theorem word16_of_gives {n : Nat} {status : EventStatus} (h : Gives n union.read status) :
    status.Word16 := by
  obtain ⟨v, hv, hmakes⟩ := Union.exists_makes_of_gives_read h
  simp only [union, List.mem_cons, List.not_mem_nil, or_false] at hv
  rcases hv with rfl | rfl
  · rw [Variant.eq_of_makes_unit hmakes]
    rintro _ ⟨⟩
  · obtain ⟨⟨code, ⟨⟩⟩, rfl, hcode, -⟩ := Variant.given_of_makes_ofFields hmakes
    obtain ⟨j, hcode⟩ := Fields.gives_of_given_field hcode
    rintro _ ⟨⟩
    exact lt_of_natOf hcode

theorem reads_union_toJson {status : EventStatus} (h : status.Word16) :
    Reads 1 union.read status.toJson status := by
  cases status with
  | success =>
      exact Union.reads_union (v := .unit "success" success) rfl (List.forall_mem_nil _) rfl
  | failure code =>
      have hcode := h code rfl
      have hread : Reads 0 Reader.value (.nat code) (.nat code) :=
        reads_value_nat (Nat.lt_trans hcode (by decide))
      have hof : Inspector.word16 (.nat code) = .ok code := natOf_nat hcode
      have hne : "code" ≠ union.tag := by decide
      exact Union.reads_union (v := union.variants[1]) rfl
        (List.forall_mem_singleton.2 ⟨hne, hread⟩)
        (Variant.ofMembers_ofFields (Fields.ofMembers_field hof) _ _ _)

end EventStatus

namespace Event

/-- What an event has that was read from a text. -/
structure Sound (e : Event) : Prop where
  /-- Around the parameters stands the bracket of the event itself. -/
  params_fit : e.params.Fits (maxDepth - 1)
  params_ordered : e.params.Ordered
  status_word16 : e.status.Word16
  startedAt_valid : e.startedAt.Valid
  durationMs_lt : e.durationMs < UInt64.size

variable {s : String} {e : Event}

theorem valid_of_gives_takeInstant {n : Nat} {t : Instant} (h : Gives n takeInstant t) :
    t.Valid := by
  obtain ⟨text, h⟩ := exists_of_gives_textAs h
  cases hread : Timestamp.read text with
  | error fault =>
      rw [hread] at h
      cases h
  | ok t' =>
      rw [hread] at h
      cases h
      exact Timestamp.valid_of_read hread

theorem sound_of_read (h : read s = .ok e) : e.Sound := by
  obtain ⟨m, tuple, hm, rfl, hgiven⟩ := given_of_gives_record (gives_of_decode h)
  obtain rfl : m = maxDepth - 1 := by omega
  obtain ⟨id, caller, operation, params, status, startedAt, durationMs, ⟨⟩⟩ := tuple
  obtain ⟨-, -, -, hparams, hstatus, hstarted, hduration, -⟩ := hgiven
  obtain ⟨hfits, hordered⟩ := fits_of_gives_readValue (Fields.gives_of_given_field hparams)
  exact {
    params_fit := hfits
    params_ordered := hordered
    status_word16 := EventStatus.word16_of_gives (Fields.gives_of_given_field hstatus)
    startedAt_valid := valid_of_gives_takeInstant (Fields.gives_of_given_field hstarted)
    durationMs_lt := lt_of_gives_natBelow (Fields.gives_of_given_field hduration) }

theorem reads_takeId (id : Uuid) : Reads 0 takeId (.str id.text) id :=
  reads_textAs _ (by rw [id.read_text]; rfl)

theorem reads_takeInstant {t : Instant} (h : t.Valid) :
    Reads 0 takeInstant (.str (Timestamp.write t)) t :=
  reads_textAs _ (by rw [Timestamp.read_write h]; rfl)

theorem reads_decoder (h : e.Sound) (hreal : e.params.RealFree) :
    Reads maxDepth decoder e.toJson e := by
  have hfields : fields.Reads (maxDepth - 1) [
      ("id", .str e.id.text),
      ("caller", .str e.caller),
      ("operation", .str e.operation),
      ("params", e.params),
      ("status", e.status.toJson),
      ("started_at", .str (Timestamp.write e.startedAt)),
      ("duration_ms", .nat e.durationMs)]
      (e.id, e.caller, e.operation, e.params, e.status, e.startedAt, e.durationMs, ()) :=
    .cons ((reads_takeId e.id).mono (Nat.zero_le _)) <|
    .cons ((reads_text e.caller).mono (Nat.zero_le _)) <|
    .cons ((reads_text e.operation).mono (Nat.zero_le _)) <|
    .cons (reads_readValue h.params_fit hreal h.params_ordered) <|
    .cons ((EventStatus.reads_union_toJson h.status_word16).mono (by decide)) <|
    .cons ((reads_takeInstant h.startedAt_valid).mono (Nat.zero_le _)) <|
    .cons ((reads_natBelow (Nat.le_refl _) h.durationMs_lt "u64").mono (Nat.zero_le _)) .nil
  exact reads_record hfields (by decide) "AuditEvent" _

/-- The payload of a sound event is read as that event. -/
theorem read_payload (h : e.Sound) (hreal : e.params.RealFree) : read e.payload = .ok e :=
  (reads_decoder h hreal).decode_compact (Nat.le_refl _)

/-- Whatever text an event was read from, its payload is read as the same event, which has that
same payload, provided that no number of double precision stands among the parameters. -/
theorem read_payload_of_read (h : read s = .ok e) (hreal : e.params.RealFree) :
    read e.payload = .ok e ∧ (read e.payload).map payload = .ok e.payload := by
  have hread := read_payload (sound_of_read h) hreal
  refine ⟨hread, ?_⟩
  rw [hread]
  rfl

/-- A transfer that went wrong in a leap second, spelled in another way than it is written. -/
def transferText : String :=
  "\x7b\"duration_ms\": 12, \"seen\": [1e3], \"id\": \"6FA459EAEE8A3CA4894EDB77E160355E\"," ++
  "\"caller\": \"bo\\u0062\", \"operation\": \"transfer\"," ++
  "\"params\": \x7b\"to\": [\"carol\", null], \"amount\": 1, \"amount\": -5\x7d," ++
  "\"status\": \x7b\"code\": 404, \"outcome\": \"failure\"\x7d," ++
  "\"started_at\": \"2016-12-31 18:59:60.25-05:00\"\x7d"

def transfer : Event where
  id := ⟨[0x6f, 0xa4, 0x59, 0xea, 0xee, 0x8a, 0x3c, 0xa4, 0x89, 0x4e, 0xdb, 0x77, 0xe1, 0x60,
    0x35, 0x5e], rfl⟩
  caller := "bob"
  operation := "transfer"
  params := .obj [("amount", .int (-5)), ("to", .arr [.str "carol", .null])]
  status := .failure 404
  startedAt := ⟨⟨2016, 12, 31⟩, 86399, 1250000000⟩
  durationMs := 12

theorem realFree_transfer : transfer.params.RealFree := by
  have hcarol : (Json.str "carol").RealFree := .scalar trivial nofun
  have hnull : Json.null.RealFree := .scalar trivial nofun
  have hto : (Json.arr [.str "carol", .null]).RealFree :=
    .arr (List.forall_mem_cons.2 ⟨hcarol, List.forall_mem_singleton.2 hnull⟩)
  have hamount : (Json.int (-5)).RealFree := .scalar trivial nofun
  exact .obj (List.forall_mem_cons.2 ⟨hamount, List.forall_mem_singleton.2 hto⟩)

set_option maxRecDepth 8000 in
theorem read_payload_transfer :
    read transferText = .ok transfer ∧ transfer.params.RealFree ∧
    read transfer.payload = .ok transfer ∧
    (read transfer.payload).map payload = .ok transfer.payload := by
  have hread : read transferText = .ok transfer := by rfl
  exact ⟨hread, realFree_transfer, read_payload_of_read hread realFree_transfer⟩

end Event

end SealedLog
