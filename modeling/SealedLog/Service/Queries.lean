import SealedLog.Chain.Text
import SealedLog.Service.Recording
import SealedLog.Service.Request

/-!
# Requests and answers

The answers of the service as JSON, and the requests that only look: whether an event is
in the current tree, the state of the log in numbers, the stored snapshots, and the
audit of these. The last two fail if the store cannot be loaded.
-/

namespace SealedLog.Service

namespace Acknowledgement

def toJson (a : Acknowledgement Uuid) : Json :=
  .obj ([
    ("event_id", Json.str a.event.text),
    ("seq", .nat a.seq),
    ("receipt", a.receipt.toJson)] ++
    a.warning?.toList.map fun warning => ("warning", .str warning))

end Acknowledgement

namespace Answer

/-- The answer as it goes to the caller. -/
def reply : Answer Uuid → Reply
  | a@(acknowledged ack) => ⟨a.status, ack.toJson⟩
  | failed reply => reply

end Answer

namespace State

variable {σ ι : Type} [SnapshotStore σ]

def verify (s : State σ ι) (data : String) : Reply :=
  let detail := s.log.check data
  ⟨200, .obj [("included", .bool detail.isVerified), ("detail", detail.toJson)]⟩

def root (s : State σ ι) : Reply :=
  ⟨200, s.log.checkpoint.toJson⟩

/-- An answer made of the stored snapshots. -/
def fromSnapshots (s : State σ ι) (make : List Snapshot → Json) : Reply :=
  match SnapshotStore.load s.store with
  | .error e => .unavailable e.message
  | .ok snapshots => ⟨200, make snapshots⟩

def snapshots (s : State σ ι) : Reply :=
  s.fromSnapshots fun all => .arr (all.map Snapshot.toJson)

def chain (s : State σ ι) : Reply :=
  s.fromSnapshots fun all => (Chain.audit all).toJson

/-- Takes a request to record through all its steps, given the identifier that its event
gets and the time. -/
def postEvent (s : State σ Uuid) (mishaps : Mishaps) (redactor : Redactor)
    (request : RecordRequest) (id : Uuid) (now : Instant) (seconds : Nat) :
    State σ Uuid × Reply :=
  let event := request.event id now redactor
  match s.post mishaps seconds id event.payload with
  | (s, .answered a) => (s, a.reply)
  | (s, _) => (s, .internalError "request not completed")

end State

end SealedLog.Service
