import SealedLog.Store.File
import SealedLog.Store.Flaky

/-!
# What a log may expect of its store

A store need not be a shelf, and it may fail whenever it likes. What a log relies on is that
it behaves like a shelf when it does not fail and keeps what it holds when it does. A
`LawfulStore` says what it holds, `contents`, and keeps to this; it may list that in any order.
The shelf itself, a flaky store over a lawful one and the store in a file are lawful.

What a store goes through in the course of several writes is said in two ways. `Writes P` is
the relation of two states of a store that are some writes apart, after each of which the
store held what satisfies `P`; a `Watched` store remembers all states it was in.
-/

namespace SealedLog

/-- A store that holds what a shelf would hold after the writes that did not fail. -/
class LawfulStore (σ : Type) [SnapshotStore σ] where
  contents : σ → List Snapshot
  replace_ok : ∀ {store store' : σ} {old? : Option Hash} {s : Snapshot},
    SnapshotStore.replace store old? s = (.ok (), store') →
      contents store' = (Shelf.replace ⟨contents store⟩ old? s).snapshots
  replace_error : ∀ {store store' : σ} {old? : Option Hash} {s : Snapshot} {e : StoreError},
    SnapshotStore.replace store old? s = (.error e, store') → contents store' = contents store
  load_ok : ∀ {store : σ} {listed : List Snapshot},
    SnapshotStore.load store = .ok listed → listed.Perm (contents store)

export LawfulStore (contents)

instance : LawfulStore Shelf where
  contents := Shelf.snapshots
  replace_ok h := by
    cases h
    rfl
  replace_error h := by cases h
  load_ok h := by
    cases h
    exact .refl _

instance {σ : Type} [SnapshotStore σ] [LawfulStore σ] : LawfulStore (Flaky σ) where
  contents store := contents store.inner
  replace_ok {store store' old? s} h := by
    simp only [SnapshotStore.replace] at h
    split at h
    · cases h
    · cases hinner : SnapshotStore.replace store.inner old? s with
      | mk result inner =>
          rw [hinner] at h
          cases h
          exact LawfulStore.replace_ok hinner
  replace_error {store store' old? s e} h := by
    simp only [SnapshotStore.replace] at h
    split at h
    · cases h
      rfl
    · cases hinner : SnapshotStore.replace store.inner old? s with
      | mk result inner =>
          rw [hinner] at h
          cases h
          exact LawfulStore.replace_error hinner
  load_ok {store listed} h := by
    simp only [SnapshotStore.load] at h
    split at h
    · cases h
    · exact LawfulStore.load_ok h

instance : LawfulStore FileStore where
  contents store := store.shelf.snapshots
  replace_ok {store store' old? s} h := by
    simp only [SnapshotStore.replace, FileStore.replaceWith] at h
    split at h
    · cases h
    · cases h
      rfl
  replace_error {store store' old? s e} h := by
    simp only [SnapshotStore.replace, FileStore.replaceWith] at h
    split at h
    · cases h
      rfl
    · cases h
  load_ok h := by
    cases h
    exact .refl _

section Reliable

variable {σ : Type} [SnapshotStore σ]

/-- The store does not fail, now or after any number of writes. -/
def Reliable (store : σ) : Prop :=
  ∃ R : σ → Prop, R store ∧
    (∀ store, R store → ∃ listed, SnapshotStore.load store = .ok listed) ∧
    ∀ (store : σ) (old? : Option Hash) (s : Snapshot), R store →
      (SnapshotStore.replace store old? s).1 = .ok () ∧
        R (SnapshotStore.replace store old? s).2

theorem Reliable.exists_load {store : σ} (h : Reliable store) :
    ∃ listed, SnapshotStore.load store = .ok listed := by
  obtain ⟨R, hR, hload, -⟩ := h
  exact hload store hR

theorem not_reliable_of_load {store : σ} {e : StoreError}
    (h : SnapshotStore.load store = .error e) : ¬ Reliable store := fun hreliable => by
  obtain ⟨listed, hload⟩ := hreliable.exists_load
  rw [h] at hload
  cases hload

theorem Reliable.replace {store : σ} (h : Reliable store) (old? : Option Hash) (s : Snapshot) :
    (SnapshotStore.replace store old? s).1 = .ok () ∧
      Reliable (SnapshotStore.replace store old? s).2 := by
  obtain ⟨R, hR, hload, hreplace⟩ := h
  obtain ⟨hok, hnext⟩ := hreplace store old? s hR
  exact ⟨hok, R, hnext, hload, hreplace⟩

theorem not_reliable_of_replace {store store' : σ} {old? : Option Hash} {s : Snapshot}
    {e : StoreError} (h : SnapshotStore.replace store old? s = (.error e, store')) :
    ¬ Reliable store := fun hreliable => by
  have hok := (hreliable.replace old? s).1
  rw [h] at hok
  cases hok

theorem reliable_shelf (shelf : Shelf) : Reliable shelf :=
  ⟨fun _ => True, trivial, fun shelf _ => ⟨shelf.snapshots, rfl⟩, fun _ _ _ _ => ⟨rfl, trivial⟩⟩

/-- A flaky store over a reliable one is reliable once its gate is open for good. -/
theorem Reliable.heal {store : Flaky σ} (h : Reliable store.inner) : Reliable store.heal := by
  refine ⟨fun store => Reliable store.inner ∧ (∀ call, store.refusal? call = none) ∧
    store.loadRefusal? = none, ⟨h, fun _ => rfl, rfl⟩, ?_, ?_⟩
  · rintro store ⟨hinner, -, hload⟩
    simp only [SnapshotStore.load, hload]
    exact hinner.exists_load
  · rintro store old? s ⟨hinner, hopen, hload⟩
    obtain ⟨hok, hnext⟩ := hinner.replace old? s
    have hreplace : SnapshotStore.replace store old? s =
        ((SnapshotStore.replace store.inner old? s).1,
          { store with
            inner := (SnapshotStore.replace store.inner old? s).2
            calls := store.calls + 1
            passed := store.passed + 1 }) := by
      simp only [SnapshotStore.replace, hopen]
    rw [hreplace]
    exact ⟨hok, hnext, hopen, hload⟩

end Reliable

section Writes

variable {σ : Type} [SnapshotStore σ] [LawfulStore σ]

/-- A write either changes what the store holds as it would a shelf, or it fails and changes
nothing. -/
theorem replace_cases (store : σ) (old? : Option Hash) (s : Snapshot) :
    (∃ store', SnapshotStore.replace store old? s = (.ok (), store') ∧
      contents store' = (Shelf.replace ⟨contents store⟩ old? s).snapshots) ∨
    ∃ e store', SnapshotStore.replace store old? s = (.error e, store') ∧
      contents store' = contents store := by
  cases h : SnapshotStore.replace store old? s with
  | mk result store' =>
      cases result with
      | ok _ => exact Or.inl ⟨store', rfl, LawfulStore.replace_ok h⟩
      | error e => exact Or.inr ⟨e, store', rfl, LawfulStore.replace_error h⟩

/-- The second state comes from the first by writes, after each of which the store holds
what satisfies `P`. -/
inductive Writes (P : List Snapshot → Prop) : σ → σ → Prop
  | refl (store : σ) : Writes P store store
  | write {store store' : σ} (h : Writes P store store') (old? : Option Hash) (s : Snapshot)
      (hP : P (contents (SnapshotStore.replace store' old? s).2)) :
      Writes P store (SnapshotStore.replace store' old? s).2

theorem Writes.of_replace {P : List Snapshot → Prop} {store store' : σ} {old? : Option Hash}
    {s : Snapshot} {result : Except StoreError Unit}
    (h : SnapshotStore.replace store old? s = (result, store')) (hP : P (contents store')) :
    Writes P store store' := by
  have hstore : store' = (SnapshotStore.replace store old? s).2 := by rw [h]
  subst hstore
  exact .write (.refl store) old? s hP

theorem Writes.trans {P : List Snapshot → Prop} {store₁ store₂ store₃ : σ}
    (h : Writes P store₁ store₂) (h' : Writes P store₂ store₃) : Writes P store₁ store₃ := by
  induction h' with
  | refl => exact h
  | write h' old? s hP ih => exact .write ih old? s hP

theorem Writes.mono {P Q : List Snapshot → Prop} {store store' : σ}
    (h : Writes P store store') (hPQ : ∀ l, P l → Q l) : Writes Q store store' := by
  induction h with
  | refl => exact .refl _
  | write h old? s hP ih => exact .write ih old? s (hPQ _ hP)

/-- What held before the writes or satisfies `P` satisfies it after them. -/
theorem Writes.contents {P : List Snapshot → Prop} {store store' : σ}
    (h : Writes P store store') (hP : P (contents store)) : P (contents store') := by
  cases h with
  | refl => exact hP
  | write h old? s hP => exact hP

theorem Writes.reliable {P : List Snapshot → Prop} {store store' : σ}
    (h : Writes P store store') (hrel : Reliable store) : Reliable store' := by
  induction h with
  | refl => exact hrel
  | write h old? s hP ih => exact (ih.replace old? s).2

@[simp] theorem Flaky.contents_heal (store : Flaky σ) :
    contents store.heal = contents store := rfl

end Writes

/-- A store with the states it had after each write so far. -/
structure Watched (σ : Type) where
  inner : σ
  seen : List σ

namespace Watched

variable {σ : Type}

def ofInner (inner : σ) : Watched σ :=
  ⟨inner, []⟩

variable [SnapshotStore σ]

instance : SnapshotStore (Watched σ) where
  replace store old? s :=
    let (result, inner) := SnapshotStore.replace store.inner old? s
    (result, ⟨inner, store.seen ++ [inner]⟩)
  load store := SnapshotStore.load store.inner

variable [LawfulStore σ]

instance : LawfulStore (Watched σ) where
  contents store := contents store.inner
  replace_ok {store store' old? s} h := by
    cases hinner : SnapshotStore.replace store.inner old? s with
    | mk result inner =>
        simp only [SnapshotStore.replace, hinner] at h
        cases h
        exact LawfulStore.replace_ok hinner
  replace_error {store store' old? s e} h := by
    cases hinner : SnapshotStore.replace store.inner old? s with
    | mk result inner =>
        simp only [SnapshotStore.replace, hinner] at h
        cases h
        exact LawfulStore.replace_error hinner
  load_ok h := LawfulStore.load_ok (σ := σ) h

@[simp] theorem contents_eq (store : Watched σ) : contents store = contents store.inner := rfl

def All (P : List Snapshot → Prop) (store : Watched σ) : Prop :=
  ∀ state ∈ store.seen, P (contents state)

theorem All.writes {P : List Snapshot → Prop} {store store' : Watched σ} (h : store.All P)
    (hwrites : Writes P store store') : store'.All P := by
  induction hwrites with
  | refl => exact h
  | write hwrites old? s hP ih =>
      intro state hstate
      rcases List.mem_append.1 hstate with hstate | hstate
      · exact ih state hstate
      · rw [List.mem_singleton] at hstate
        rw [hstate]
        exact hP

end Watched

end SealedLog
