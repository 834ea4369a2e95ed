import SealedLog.Log.Basic

/-!
# Recovery from a journal

`recover` builds a log by replaying the events of a journal and compares it, tree by
tree, with the snapshots found in the store. A snapshot is legitimate if its root is
one that the replay went through while it was at the tree of that index: the replay
collects these roots in `produced`. Legitimate snapshots that are out of date, and
missing ones, are written anew; any other snapshot is an inconsistency and ends the
recovery.

The comparison of a tree takes place when the replay leaves it, and so do the writes
for it: an inconsistency of a later tree is found after the earlier ones have been
written. `Replay` is the state between two events.
-/

namespace SealedLog.Log

variable {σ : Type} [SnapshotStore σ]

/-- The index and the root of a snapshot found in the store. -/
structure Found where
  treeIndex : Nat
  root : Hash
deriving DecidableEq, Repr

/-- The state of a recovery between two events. -/
structure Replay (σ : Type) where
  log : Log
  store : σ
  /-- The snapshots found in the store that have not been compared yet. -/
  waiting : List Found
  /-- The roots that the current tree has had so far. -/
  produced : List Hash

/-- Writes a snapshot in place of each of the given roots in turn. -/
def replaceEach (store : σ) (snapshot : Snapshot) :
    List (Option Hash) → Except (LogError × σ) σ
  | [] => .ok store
  | old? :: rest =>
    match SnapshotStore.replace store old? snapshot with
    | (.ok (), store) => replaceEach store snapshot rest
    | (.error e, store) => .error (.notRecorded e, store)

/-- The roots in place of which the snapshot of a replayed tree is to be written, given
those found for its index: none if there is nothing to bring up to date. -/
def outdated (found : List Hash) (current : Hash) : List (Option Hash) :=
  if found.isEmpty then [none] else (found.filter (· != current)).map some

/-- The detail of an inconsistency: a root that the replay did not go through. -/
def unproducedDetail (root : Hash) : String :=
  "persisted root " ++ root ++ " was never produced by replay"

/-- The detail of an inconsistency: snapshots of a tree that the replay did not reach. -/
def surplusDetail (count : Nat) : String :=
  toString count ++ " snapshot(s) beyond the replayed chain"

/-- Compares a replayed tree with what was found for its index and brings the store up
to date. Gives back the store and what is still to be compared. -/
def reconcile (store : σ) (waiting : List Found) (produced : List Hash)
    (snapshot : Snapshot) : Except (LogError × σ) (σ × List Found) :=
  let (here, later) := waiting.partition (·.treeIndex == snapshot.treeIndex)
  let found := here.map Found.root
  match found.find? fun root => !produced.contains root with
  | some root =>
    .error (.recoveryInconsistency snapshot.treeIndex (unproducedDetail root), store)
  | none => do
    let store ← replaceEach store snapshot (outdated found snapshot.rootHash)
    return (store, later)

/-- Leaves the current tree if it is full: compares it and starts the next one. -/
def Replay.rollOver (r : Replay σ) (now : Nat) : Except (LogError × σ) (Replay σ) :=
  if r.log.tree.isFull then
    match r.log.sealTree with
    | .error e => .error (.ofStructural e, r.store)
    | .ok (next, _) => do
      let (store, waiting) ← reconcile r.store r.waiting r.produced (r.log.snapshot now)
      return ⟨next, store, waiting, [next.rootHash]⟩
  else .ok r

def Replay.step (now : Nat) (r : Replay σ) (payload : String) :
    Except (LogError × σ) (Replay σ) := do
  let r ← r.rollOver now
  match r.log.tree.append payload with
  | .error e => .error (.ofStructural e, r.store)
  | .ok tree =>
    return { r with log := { r.log with tree }, produced := tree.rootHash :: r.produced }

/-- The inconsistency of the lowest index that is still to be compared, if any is. -/
def surplus? (waiting : List Found) : Option LogError :=
  (waiting.map Found.treeIndex).min?.map fun index =>
    .recoveryInconsistency index (surplusDetail (waiting.countP (·.treeIndex == index)))

/-- Compares the last tree and makes sure that no snapshot is left over. -/
def Replay.finish (now : Nat) (r : Replay σ) : Except (LogError × σ) (Log × σ) := do
  let snapshot := r.log.snapshot now
  let (store, waiting) ← reconcile r.store r.waiting r.produced snapshot
  match surplus? waiting with
  | some e => .error (e, store)
  | none =>
    match r.log.tree.checkStructure with
    | .error e => .error (.ofStructural e, store)
    | .ok () => return ({ r.log with persistedRoot? := some snapshot.rootHash }, store)

/-- The state before the first event, given the snapshots found in the store. -/
def Replay.start (store : σ) (config : LogConfig) (found : List Snapshot) : Replay σ :=
  let log := blank config
  ⟨log, store, found.map fun s => ⟨s.treeIndex, s.rootHash⟩, [log.rootHash]⟩

/-- Rebuilds a log from the events of its journal, in their order, and brings the store
up to date. The store is given back whatever the outcome. -/
def recover (store : σ) (config : LogConfig) (now : Nat) (events : List String) :
    Except LogError Log × σ :=
  match SnapshotStore.load store with
  | .error e => (.error (.notRecorded e), store)
  | .ok found =>
    match (events.foldlM (Replay.step now) (.start store config found)) >>= Replay.finish now with
    | .error (e, store) => (.error e, store)
    | .ok (log, store) => (.ok log, store)

/-- Starts a log on an empty store and writes the empty first tree. On a store that holds
snapshots it succeeds only if they are those of an empty log. -/
def start (store : σ) (config : LogConfig) (now : Nat) : Except LogError Log × σ :=
  recover store config now []

end SealedLog.Log
