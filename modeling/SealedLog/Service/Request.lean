import SealedLog.Event.Basic

/-!
# Requests

The bodies of the requests that carry one. A request to record an event has the fields
of an event without the identifier; parameters, start and duration may be left out.
-/

namespace SealedLog.Service

structure RecordRequest where
  caller : String
  operation : String
  params : Json
  status : EventStatus
  /-- The start of the call, if the caller knows it. -/
  startedAt? : Option Instant
  durationMs : Nat
deriving Repr

namespace RecordRequest

def fields : Json.Fields Json.Decoder
    (String × String × Json × EventStatus × Option Instant × Nat × Unit) :=
  .cons (Json.field "caller" Json.Reader.text) <|
  .cons (Json.field "operation" Json.Reader.text) <|
  .cons ⟨"params", Json.readValue, some .null, true⟩ <|
  .cons (Json.field "status" EventStatus.union.read) <|
  .cons ⟨"started_at", Json.Reader.orNull Event.takeInstant, some none, false⟩ <|
  .cons ⟨"duration_ms", Json.Reader.word64, some 0, true⟩ .nil

def decoder : Json.Decoder RecordRequest :=
  Json.Reader.record "RecordEventRequest" fields
    fun (caller, operation, params, status, startedAt?, durationMs, ()) =>
      ⟨caller, operation, params, status, startedAt?, durationMs⟩

/-- The event that the request asks to record, given the identifier it gets and the time
of the request. -/
def event (r : RecordRequest) (id : Uuid) (now : Instant) (redactor : Redactor) : Event :=
  .make id r.caller r.operation r.params r.status (r.startedAt?.getD now) r.durationMs redactor

end RecordRequest

structure VerifyRequest where
  data : String
deriving DecidableEq, Repr

namespace VerifyRequest

def fields : Json.Fields Json.Decoder (String × Unit) :=
  .cons (Json.field "data" Json.Reader.text) .nil

def decoder : Json.Decoder VerifyRequest :=
  Json.Reader.record "VerifyRequest" fields fun (data, ()) => ⟨data⟩

end VerifyRequest

end SealedLog.Service
