import SealedLog.Json.Value
import SealedLog.Log.Basic

/-!
# What becomes of a journaled event

Once the log has been asked to record an event whose row is in the journal, the row has
to stay or to go. `settle` reads that off the outcome. The row stays when the event is
in the tree, which the caller is told either way; it has to go when the event was
refused. An event that is in the tree without a receipt keeps its row too, but the
caller gets an error.
-/

namespace SealedLog.Service

/-- An answer to a request: the status code and the body. -/
structure Reply where
  status : Nat
  body : Json
deriving Repr

namespace Reply

def failure (status : Nat) (message : String) : Reply :=
  ⟨status, .obj [("error", .str message)]⟩

def unavailable (message : String) : Reply :=
  failure 503 message

def internalError (message : String) : Reply :=
  failure 500 message

end Reply

/-- What became of a journaled event. -/
inductive Settlement where
  | accepted (receipt : Receipt)
  /-- In the tree; writing the tree is pending. -/
  | pending (receipt : Receipt) (warning : String)
  /-- Not in the tree. -/
  | refused (reply : Reply)
  /-- In the tree, but nothing tells where. -/
  | recordedWithoutReceipt (reply : Reply)

/-- The settlement of an event by the outcome of recording it. -/
def settle : Except LogError Receipt → Settlement
  | .ok receipt => .accepted receipt
  | .error (.persistence true (some receipt) source) =>
    .pending receipt ("snapshot write pending: " ++ source.message)
  | .error e@(.persistence true none _) =>
    .recordedWithoutReceipt (.internalError e.message)
  | .error e@(.persistence false _ _) => .refused (.unavailable e.message)
  | .error e => .refused (.internalError e.message)

end SealedLog.Service
