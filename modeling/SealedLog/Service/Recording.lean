import SealedLog.Log.Recovery
import SealedLog.Log.Record
import SealedLog.Log.Text
import SealedLog.Service.Journal
import SealedLog.Service.Settlement

/-!
# Recording an event through the service

A request to record goes through a few steps, and between any two of them other requests
may be served: the fence is looked at, the lock on the log is waited for, the row is
inserted, the event is recorded, and, if it was refused, the row is removed. `Progress`
is where a request stands and `advance` takes it one step further in a state of the
service that all requests share. What can go wrong on the way is chosen by `Mishaps`;
failing snapshot writes are a matter of the store.

The lock is held from before the row is inserted until the request is answered, so that
the rows come in the order of the events in the tree. If a refused event's row cannot be
removed the fence is set: from then on new requests are turned away, until the log has
been rebuilt from the journal.

`post` takes a request through all steps with no other request in between.
-/

namespace SealedLog.Service

/-- The state that all requests share. -/
structure State (σ ι : Type) where
  log : Log
  store : σ
  journal : Journal ι
  /-- Whether the journal holds an event that the tree refused. -/
  fenced : Bool
  /-- Whether a request holds the lock on the log. -/
  locked : Bool

/-- Which statements of a request the database refuses, and which numbers it passes over. -/
structure Mishaps where
  insertRefused : Bool
  deleteRefused : Bool
  /-- The numbers spent without a row by the time the row of the request is inserted or
  refused, one for a refused row among them if that costs a number. -/
  skipped : Nat
deriving DecidableEq, Repr

/-- The answer to a request to record, when the event is in the tree. -/
structure Acknowledgement (ι : Type) where
  event : ι
  seq : Nat
  receipt : Receipt
  /-- Says why the tree could not be written, if it could not. -/
  warning? : Option String

/-- How a request to record was answered. -/
inductive Answer (ι : Type) where
  | acknowledged (a : Acknowledgement ι)
  | failed (reply : Reply)

namespace Answer

variable {ι : Type}

/-- The status code: 201 for an event that is in the store, 202 for one that is in the
tree only. -/
def status : Answer ι → Nat
  | acknowledged a => if a.warning?.isSome then 202 else 201
  | failed reply => reply.status

end Answer

/-- Where a request to record the event `event` with the text `payload` stands. -/
inductive Progress (ι : Type) where
  /-- The fence has not been looked at. -/
  | arrived
  | waitingForLock
  | aboutToInsert
  | aboutToRecord (seq : Nat)
  | aboutToDelete (reply : Reply)
  | answered (a : Answer ι)

/-- What a request that was turned away is told. -/
def fencedMessage : String :=
  "journal holds an unrecorded event; restart to replay it"

namespace State

variable {σ ι : Type} [SnapshotStore σ] [BEq ι]

/-- Releases the lock and answers. -/
def answer (s : State σ ι) (a : Answer ι) : State σ ι × Progress ι :=
  ({ s with locked := false }, .answered a)

/-- Records the event in the log and settles it. -/
def recordAndSettle (s : State σ ι) (now : Nat) (event : ι) (payload : String) (seq : Nat) :
    State σ ι × Progress ι :=
  match s.log.record s.store now payload with
  | (outcome, log, store) =>
    let s := { s with log, store }
    match settle outcome with
    | .accepted receipt => s.answer (.acknowledged ⟨event, seq, receipt, none⟩)
    | .pending receipt warning => s.answer (.acknowledged ⟨event, seq, receipt, some warning⟩)
    | .recordedWithoutReceipt reply => s.answer (.failed reply)
    | .refused reply => (s, .aboutToDelete reply)

/-- Takes a request one step further; none if it has to wait for the lock, or has been
answered. -/
def advance (s : State σ ι) (mishaps : Mishaps) (now : Nat) (event : ι) (payload : String) :
    Progress ι → Option (State σ ι × Progress ι)
  | .arrived =>
    if s.fenced then some (s, .answered (.failed (.unavailable fencedMessage)))
    else some (s, .waitingForLock)
  | .waitingForLock =>
    if s.locked then none else some ({ s with locked := true }, .aboutToInsert)
  | .aboutToInsert =>
    let journal := s.journal.skip mishaps.skipped
    if mishaps.insertRefused then
      some ({ s with journal }.answer (.failed (.unavailable (Refusal.message ⟨.insert⟩))))
    else
      let (journal, seq) := journal.insert event payload
      some ({ s with journal }, .aboutToRecord seq)
  | .aboutToRecord seq => some (s.recordAndSettle now event payload seq)
  | .aboutToDelete reply =>
    if mishaps.deleteRefused then some ({ s with fenced := true }.answer (.failed reply))
    else some ({ s with journal := s.journal.delete event }.answer (.failed reply))
  | .answered _ => none

/-- Takes a request at most `steps` steps further. -/
def advanceBy (mishaps : Mishaps) (now : Nat) (event : ι) (payload : String) :
    (steps : Nat) → State σ ι → Progress ι → State σ ι × Progress ι
  | 0, s, p => (s, p)
  | steps + 1, s, p =>
    match s.advance mishaps now event payload p with
    | none => (s, p)
    | some (s, p) => advanceBy mishaps now event payload steps s p

/-- Takes a request through all its steps. -/
def post (s : State σ ι) (mishaps : Mishaps) (now : Nat) (event : ι) (payload : String) :
    State σ ι × Progress ι :=
  advanceBy mishaps now event payload 5 s .arrived

/-- The service as it starts: the log is rebuilt from the rows of the journal. -/
def restart (journal : Journal ι) (store : σ) (config : LogConfig) (now : Nat) :
    Except LogError (State σ ι) × σ :=
  match Log.recover store config now journal.payloads with
  | (.error e, store) => (.error e, store)
  | (.ok log, store) => (.ok ⟨log, store, journal, false, false⟩, store)

end State

end SealedLog.Service
