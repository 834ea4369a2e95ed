import SealedLog.Event.Redaction
import SealedLog.Event.Uuid
import SealedLog.Json.Printer
import SealedLog.Json.Union
import SealedLog.Time.Timestamp

/-!
# Events

An event is one call of an operation: who called it, with which parameters, how it went,
and when. The log keeps events as texts, their payloads, and does not look into them;
the text of an event is its fields as one JSON object without spaces, the parameters
with their members sorted by name.

`Event.read` accepts many texts for one event, `Event.payload` writes one of them.
-/

namespace SealedLog

inductive EventStatus where
  | success
  | failure (code : Nat)
deriving DecidableEq, Repr

namespace EventStatus

def union : Json.Union EventStatus where
  tag := "outcome"
  title := "internally tagged enum EventStatus"
  variants := [
    .unit "success" success,
    .ofFields "failure" "EventStatus::Failure"
      (.cons (Json.field "code" Json.Inspector.word16) .nil) fun (code, ()) => failure code]

def toJson : EventStatus → Json
  | success => .obj [("outcome", .str "success")]
  | failure code => .obj [("outcome", .str "failure"), ("code", .nat code)]

end EventStatus

/-- One call of an operation. -/
structure Event where
  id : Uuid
  caller : String
  operation : String
  params : Json
  status : EventStatus
  startedAt : Instant
  durationMs : Nat
deriving Repr

namespace Event

/-- An event whose parameters have passed a redactor. -/
def make (id : Uuid) (caller operation : String) (params : Json) (status : EventStatus)
    (startedAt : Instant) (durationMs : Nat) (redactor : Redactor) : Event :=
  ⟨id, caller, operation, redactor.redact operation params, status, startedAt, durationMs⟩

def equal (a b : Event) : Bool :=
  a.id == b.id && a.caller == b.caller && a.operation == b.operation &&
    a.params == b.params && a.status == b.status && a.startedAt == b.startedAt &&
    a.durationMs == b.durationMs

instance : BEq Event := ⟨equal⟩

def takeId : Json.Decoder Uuid :=
  Json.Reader.textAs "a formatted UUID string" fun text =>
    (Uuid.read text).mapError fun e => .malformed ("UUID parsing failed: " ++ e.message)

def takeInstant : Json.Decoder Instant :=
  Json.Reader.textAs "an RFC 3339 formatted date and time string" fun text =>
    (Timestamp.read text).mapError fun e => .malformed e.message

def fields : Json.Fields Json.Decoder
    (Uuid × String × String × Json × EventStatus × Instant × Nat × Unit) :=
  .cons (Json.field "id" takeId) <|
  .cons (Json.field "caller" Json.Reader.text) <|
  .cons (Json.field "operation" Json.Reader.text) <|
  .cons (Json.field "params" Json.readValue) <|
  .cons (Json.field "status" EventStatus.union.read) <|
  .cons (Json.field "started_at" takeInstant) <|
  .cons (Json.field "duration_ms" Json.Reader.word64) .nil

def decoder : Json.Decoder Event :=
  Json.Reader.record "AuditEvent" fields
    fun (id, caller, operation, params, status, startedAt, durationMs, ()) =>
      ⟨id, caller, operation, params, status, startedAt, durationMs⟩

def read (payload : String) : Except String Event :=
  Json.decode decoder payload

def toJson (e : Event) : Json :=
  .obj [
    ("id", .str e.id.text),
    ("caller", .str e.caller),
    ("operation", .str e.operation),
    ("params", e.params),
    ("status", e.status.toJson),
    ("started_at", .str (Timestamp.write e.startedAt)),
    ("duration_ms", .nat e.durationMs)]

/-- The text of an event as the log keeps it. -/
def payload (e : Event) : String :=
  e.toJson.compact

end Event

end SealedLog
