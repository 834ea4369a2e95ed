import SealedLog.Log.Basic

/-!
# Recording events

`record` takes one event. It writes up to three times: it retries a write that failed
earlier, it writes the next tree with nothing but the old root in it if the current
tree had to be sealed, and it writes the tree that the event went into. If one of the
first two writes fails the event is refused and the log is as before the call, the
sealing undone; if the last one fails the event stays in the tree and the write is
pending. So an event is in the log exactly when the outcome says so.

All operations take the time of the call, which goes into the snapshots they write.
-/

namespace SealedLog.Log

variable {σ : Type} [SnapshotStore σ]

/-- Writes the current tree in place of its last snapshot. -/
def persist (log : Log) (store : σ) (now : Nat) : Except StoreError Unit × Log × σ :=
  let snapshot := log.snapshot now
  match SnapshotStore.replace store log.persistedRoot? snapshot with
  | (.ok (), store) =>
    (.ok (), { log with persistedRoot? := some snapshot.rootHash, pendingWrite := false }, store)
  | (.error e, store) => (.error e, { log with pendingWrite := true }, store)

/-- Writes the current tree if an earlier write of it failed. -/
def retry (log : Log) (store : σ) (now : Nat) : Except StoreError Unit × Log × σ :=
  if log.pendingWrite then log.persist store now else (.ok (), log, store)

/-- As `retry`, with the failure in the words of the log: all events are in the tree. -/
def flush (log : Log) (store : σ) (now : Nat) : Except LogError Unit × Log × σ :=
  match log.retry store now with
  | (.ok (), log, store) => (.ok (), log, store)
  | (.error e, log, store) => (.error (.persistence true none e), log, store)

/-- Seals the current tree if it is full and writes the next one. If that cannot be
written the sealed tree is put back. -/
def rollOver (log : Log) (store : σ) (now : Nat) :
    Except LogError (Option SealedTree) × Log × σ :=
  if log.tree.isFull then
    match log.sealTree with
    | .error e => (.error (.ofStructural e), log, store)
    | .ok (next, sealedTree) =>
      match next.persist store now with
      | (.ok (), next, store) => (.ok (some sealedTree), next, store)
      | (.error e, next, store) =>
        (.error (.notRecorded e), next.undoSeal log.tree log.persistedRoot?, store)
  else (.ok none, log, store)

/-- Puts an event into the current tree and writes that. -/
def appendEvent (log : Log) (store : σ) (now : Nat) (payload : String)
    (sealedTree? : Option SealedTree) : Except LogError Receipt × Log × σ :=
  match log.tree.append payload with
  | .error e => (.error (.ofStructural e), log, store)
  | .ok tree =>
    let log := { log with tree }
    let receipt : Receipt := ⟨tree.rootHash, log.treeIndex, tree.lastLeafIndex, sealedTree?⟩
    match log.persist store now with
    | (.ok (), log, store) => (.ok receipt, log, store)
    | (.error e, log, store) => (.error (.persistence true (some receipt) e), log, store)

def record (log : Log) (store : σ) (now : Nat) (payload : String) :
    Except LogError Receipt × Log × σ :=
  match log.retry store now with
  | (.error e, log, store) => (.error (.notRecorded e), log, store)
  | (.ok (), log, store) =>
    match log.rollOver store now with
    | (.error e, log, store) => (.error e, log, store)
    | (.ok sealedTree?, log, store) => log.appendEvent store now payload sealedTree?

end SealedLog.Log
