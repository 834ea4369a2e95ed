/-!
# The journal

The journal is a table in a database. The service writes the payload of every event to
it before the log gets to see the event, so that the log can be rebuilt from it. Rows
are numbered as they are inserted, and removed by the identifier of their event. The
numbers come from a counter that does not go back: the number of a row that was refused
may be spent, and that of a row that was removed is.

A statement may be refused by the database, and then the rows are as before. Whether it
is refused, and which numbers are passed over, is up to the caller here.
-/

namespace SealedLog.Service

inductive Statement where
  | insert
  | delete
  | select
deriving DecidableEq, Repr

structure Refusal where
  statement : Statement
deriving DecidableEq, Repr

namespace Refusal

def message (r : Refusal) : String :=
  "error returned from database: " ++
    match r.statement with
    | .insert => "insert refused"
    | .delete => "delete refused"
    | .select => "select refused"

end Refusal

/-- A row of the journal; `event` identifies the event. -/
structure Row (ι : Type) where
  seq : Nat
  event : ι
  payload : String
deriving DecidableEq, Repr

/-- The rows in the order of their numbers, and the number that is due next. -/
structure Journal (ι : Type) where
  rows : List (Row ι)
  nextSeq : Nat
deriving DecidableEq, Repr

namespace Journal

variable {ι : Type}

def empty : Journal ι := ⟨[], 1⟩

/-- Spends numbers without a row. -/
def skip (j : Journal ι) (count : Nat) : Journal ι :=
  { j with nextSeq := j.nextSeq + count }

def insert (j : Journal ι) (event : ι) (payload : String) : Journal ι × Nat :=
  (⟨j.rows ++ [⟨j.nextSeq, event, payload⟩], j.nextSeq + 1⟩, j.nextSeq)

/-- Removes the rows of an event. -/
def delete [BEq ι] (j : Journal ι) (event : ι) : Journal ι :=
  { j with rows := j.rows.filter (·.event != event) }

def payloads (j : Journal ι) : List String :=
  j.rows.map Row.payload

end Journal

end SealedLog.Service
