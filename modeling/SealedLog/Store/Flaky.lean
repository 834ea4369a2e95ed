import SealedLog.Store.Basic

/-!
# A store that fails to a plan

`Flaky σ` is a store of `σ` behind a gate. A plan says for each write, by its number,
whether the gate lets it through to the store inside or refuses it; a refused write
leaves the store inside as it was. Loading can be refused too.

Since the plan is an arbitrary function, every pattern of failures of every run of a
log is one value of this type. A run that is cut off after its `n`-th write leaves the
same contents behind as one whose plan refuses all writes from then on.
-/

namespace SealedLog

structure Flaky (σ : Type) where
  inner : σ
  /-- The number of writes asked for so far, which is the number of the next one. -/
  calls : Nat
  /-- The number of writes that the gate let through, whatever came of them. -/
  passed : Nat
  /-- Why the write of a number is refused; `none` for one that is let through. -/
  refusal? : Nat → Option StoreError
  /-- Why loading is refused, if it is. -/
  loadRefusal? : Option StoreError

namespace Flaky

variable {σ : Type}

/-- A store whose gate is open. -/
def ofInner (inner : σ) : Flaky σ :=
  ⟨inner, 0, 0, fun _ => none, none⟩

/-- The reason given by a gate that was shut on purpose. -/
def offline : StoreError :=
  .unavailable "document store offline"

/-- Lets the next `n` writes through and refuses all after them. -/
def failAfter (store : Flaky σ) (n : Nat) : Flaky σ :=
  let limit := store.calls + n
  { store with refusal? := fun call => if call < limit then none else some offline }

def failLoad (store : Flaky σ) : Flaky σ :=
  { store with loadRefusal? := some offline }

/-- Opens the gate again. -/
def heal (store : Flaky σ) : Flaky σ :=
  { store with refusal? := fun _ => none, loadRefusal? := none }

instance [SnapshotStore σ] : SnapshotStore (Flaky σ) where
  replace store old? s :=
    match store.refusal? store.calls with
    | some e => (.error e, { store with calls := store.calls + 1 })
    | none =>
      let (result, inner) := SnapshotStore.replace store.inner old? s
      (result, { store with inner, calls := store.calls + 1, passed := store.passed + 1 })
  load store :=
    match store.loadRefusal? with
    | some e => .error e
    | none => SnapshotStore.load store.inner

end Flaky

end SealedLog
