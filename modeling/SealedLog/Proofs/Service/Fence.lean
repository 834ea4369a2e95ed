import SealedLog.Proofs.Service.Traffic
import SealedLog.Store.Flaky

/-!
# The fence

The fence is set when the journal has a row for an event that the log refused, and requests
that look at it from then on are turned away. A request that looked at it before is not: it
may be waiting for the lock, and once it has the lock it inserts its row behind the one that
should not be there, and records its event. Then the journal and the log differ in the
middle, and a recovery takes the store for tampered with, as `recover_of_latecomer` shows.

`recover_of_heedsFence` is what does hold. Without such a request nothing happens any more
once the fence is set, and a recovery finds no fault.
-/

namespace SealedLog.Service

/-- Nothing was journaled, recorded or written between two states. Numbers of the journal may
have been spent. -/
structure SameRecords {σ ι : Type} (s s' : State σ ι) : Prop where
  rows : s'.journal.rows = s.journal.rows
  log : s'.log = s.log
  store : s'.store = s.store

namespace SameRecords

variable {σ ι : Type} {s s' s'' : State σ ι}

theorem refl (s : State σ ι) : SameRecords s s :=
  ⟨rfl, rfl, rfl⟩

theorem trans (h : SameRecords s s') (h' : SameRecords s' s'') : SameRecords s s'' :=
  ⟨h'.rows.trans h.rows, h'.log.trans h.log, h'.store.trans h.store⟩

end SameRecords

namespace Traffic

variable {σ ι : Type} [SnapshotStore σ] [DecidableEq ι] {t : Traffic σ ι}

/-- A step of a request without a row changes neither the log nor the store. -/
theorem eq_of_advances {s s' : State σ ι} {mishaps : Mishaps} {now : Nat} {event : ι}
    {payload : String} {p p' : Progress ι} (hrow : p.hasRow = false)
    (h : s.Advances mishaps now event payload p s' p') :
    s'.log = s.log ∧ s'.store = s.store := by
  cases h with
  | turnedAway | passed | locked | notInserted | inserted => exact ⟨rfl, rfl⟩
  | recorded | notDeleted | deleted => cases hrow

/-- Where no row has to be decided on, a step that inserts none leaves everything as it is. -/
theorem sameRecords_step (hdecided : ∀ r ∈ t.requests, r.progress.hasRow = false) {m : Move ι}
    (hrows : (t.step m).state.journal.rows = t.state.journal.rows) :
    SameRecords t.state (t.step m).state := by
  have hsame : (t.step m).state.log = t.state.log ∧ (t.step m).state.store = t.state.store := by
    cases m with
    | arrive event payload => exact ⟨rfl, rfl⟩
    | advance place mishaps now =>
        rcases t.step_advance_cases place mishaps now with heq | ⟨r, s, p, hr, hadvances, heq⟩
        · rw [heq]
          exact ⟨rfl, rfl⟩
        · rw [heq]
          exact eq_of_advances (hdecided r (List.mem_of_getElem? hr)) hadvances
  exact ⟨hrows, hsame.1, hsame.2⟩

/-- The fence is set, and a request past it has nothing left to insert or to decide on. -/
structure Quiet (t : Traffic σ ι) : Prop where
  fenced : t.state.fenced = true
  decided : ∀ r ∈ t.requests, r.progress.hasRow = false
  taken : ∀ r ∈ t.requests, r.progress.willInsert = true → t.state.journal.holds r.event = true

namespace Quiet

omit [SnapshotStore σ] in
theorem set (h : t.Quiet) {r : Request ι} (hr : r ∈ t.requests) (place : Nat) {s : State σ ι}
    {p : Progress ι} (hfenced : s.fenced = t.state.fenced)
    (hrows : s.journal.rows = t.state.journal.rows) (hrow : p.hasRow = false)
    (hinsert : p.willInsert = true → r.progress.willInsert = true) :
    Quiet ⟨s, t.requests.set place { r with progress := p }⟩ := by
  refine ⟨hfenced.trans h.fenced, fun q hq => ?_, fun q hq hwill => ?_⟩
  · rcases List.mem_or_eq_of_mem_set hq with hq | rfl
    · exact h.decided q hq
    · exact hrow
  · rw [Journal.holds, hrows]
    rcases List.mem_or_eq_of_mem_set hq with hq | rfl
    · exact h.taken q hq hwill
    · exact h.taken r hr (hinsert hwill)

theorem step (h : t.Quiet) (m : Move ι) :
    (t.step m).Quiet ∧ (t.step m).state.journal.rows = t.state.journal.rows := by
  cases m with
  | arrive event payload =>
      refine ⟨⟨h.fenced, fun r hr => ?_, fun r hr hwill => ?_⟩, rfl⟩
      · rcases List.mem_append.1 hr with hr | hr
        · exact h.decided r hr
        · rw [List.mem_singleton.1 hr]
          rfl
      · rcases List.mem_append.1 hr with hr | hr
        · exact h.taken r hr hwill
        · rw [List.mem_singleton.1 hr] at hwill
          cases hwill
  | advance place mishaps now =>
      rcases t.step_advance_cases place mishaps now with heq | ⟨r, s, p, hr, hadvances, heq⟩
      · rw [heq]
        exact ⟨h, rfl⟩
      · rw [heq]
        have hmem := List.mem_of_getElem? hr
        have hdecided := h.decided r hmem
        have htaken := h.taken r hmem
        generalize hprogress : r.progress = before at hadvances hdecided htaken
        cases hadvances with
        | turnedAway | notInserted =>
            exact ⟨h.set hmem place rfl rfl rfl (fun hwill => by cases hwill), rfl⟩
        | passed hunfenced =>
            rw [h.fenced] at hunfenced
            cases hunfenced
        | locked => exact ⟨h.set hmem place rfl rfl rfl fun _ => by rw [hprogress]; rfl, rfl⟩
        | inserted hgiven =>
            have hnone := (Bool.or_eq_false_iff.1 hgiven).2
            rw [htaken rfl] at hnone
            cases hnone
        | recorded | notDeleted | deleted => cases hdecided

/-- Whatever happens, everything stays as it is. -/
theorem run (h : t.Quiet) (moves : List (Move ι)) :
    SameRecords t.state (t.run moves).state := by
  induction moves generalizing t with
  | nil => exact .refl _
  | cons m moves ih =>
      obtain ⟨hquiet, hrows⟩ := h.step m
      exact (sameRecords_step h.decided hrows).trans (ih hquiet)

end Quiet

/-- A row that can be inserted after a step that inserts none can be inserted. -/
theorem exists_insert_of_step {m : Move ι}
    (hsame : (t.step m).state.journal.rows = t.state.journal.rows)
    (h : ∃ moves, ((t.step m).run moves).state.journal.rows ≠ (t.step m).state.journal.rows) :
    ∃ moves, (t.run moves).state.journal.rows ≠ t.state.journal.rows := by
  obtain ⟨moves, hmoves⟩ := h
  exact ⟨m :: moves, fun hrows => hmoves (hrows.trans hsame.symm)⟩

theorem exists_insert {place : Nat} {r : Request ι} (hr : t.requests[place]? = some r)
    (hprogress : r.progress = .aboutToInsert) (hnone : t.state.journal.holds r.event = false) :
    ∃ moves, (t.run moves).state.journal.rows ≠ t.state.journal.rows := by
  refine ⟨[.advance place ⟨false, false, 0⟩ 0], ?_⟩
  have hadvances : t.state.Advances (t.mishapsFor r.event ⟨false, false, 0⟩) 0 r.event r.payload
      .aboutToInsert _ _ := .inserted hnone
  rw [← hprogress] at hadvances
  rw [run, List.foldl_cons, List.foldl_nil, step_advance hr hadvances]
  exact t.state.journal.rows_insert_ne _ _

theorem exists_insert_of_waiting {place : Nat} {r : Request ι}
    (hr : t.requests[place]? = some r) (hprogress : r.progress = .waitingForLock)
    (hfree : t.state.locked = false) (hnone : t.state.journal.holds r.event = false) :
    ∃ moves, (t.run moves).state.journal.rows ≠ t.state.journal.rows := by
  have hadvances : t.state.Advances (t.mishapsFor r.event ⟨false, false, 0⟩) 0 r.event r.payload
      .waitingForLock _ _ := .locked hfree
  rw [← hprogress] at hadvances
  have hstep := step_advance hr hadvances
  have hlt := (List.getElem?_eq_some_iff.1 hr).1
  refine exists_insert_of_step (by rw [hstep]) (exists_insert
    (r := { r with progress := .aboutToInsert }) (by rw [hstep]; exact List.getElem?_set_self hlt)
    rfl (by rw [hstep]; exact hnone))

end Traffic

variable {σ ι : Type} [SnapshotStore σ] [LawfulStore σ] [DecidableEq ι] {config : LogConfig}
  {accepted : List String} {t : Traffic σ ι}

/-- Once the fence is set the request with the lock, if there is one, has its own row still to
insert, and gives the lock back if that is refused. -/
theorem Orderly.exists_release (h : Orderly config accepted t) (hfenced : t.state.fenced = true)
    (hlocked : t.state.locked = true) {place : Nat} {r : Request ι}
    (hr : t.requests[place]? = some r) (hprogress : r.progress = .waitingForLock) :
    ∃ m, (t.step m).state.locked = false ∧
      (t.step m).state.journal.rows = t.state.journal.rows ∧
      (t.step m).requests[place]? = some r := by
  obtain ⟨q, hq, hqlock⟩ := h.locked_iff.1 hlocked
  obtain ⟨other, hother⟩ := List.getElem?_of_mem hq
  have hqprogress : q.progress = .aboutToInsert := by
    have hnone := h.hasRow_eq_false hfenced q hq
    revert hqlock hnone
    cases q.progress <;> simp [Progress.hasLock, Progress.hasRow]
  have hne : other ≠ place := by
    rintro rfl
    rw [hr] at hother
    cases hother
    rw [hprogress] at hqprogress
    cases hqprogress
  have hadvances : t.state.Advances (t.mishapsFor q.event ⟨true, false, 0⟩) 0 q.event q.payload
      .aboutToInsert _ _ := .notInserted rfl
  rw [← hqprogress] at hadvances
  refine ⟨.advance other ⟨true, false, 0⟩ 0, ?_⟩
  rw [Traffic.step_advance hother hadvances]
  exact ⟨rfl, rfl, (List.getElem?_set_ne hne).trans hr⟩

/-- A request that passed the fence before it was set can still insert its row. -/
theorem Orderly.exists_insert_of_fenced (h : Orderly config accepted t)
    (hfenced : t.state.fenced = true) {r : Request ι} (hr : r ∈ t.requests)
    (hwill : r.progress.willInsert = true) (hnone : t.state.journal.holds r.event = false) :
    ∃ moves, (t.run moves).state.journal.rows ≠ t.state.journal.rows := by
  obtain ⟨place, hplace⟩ := List.getElem?_of_mem hr
  cases hprogress : r.progress with
  | waitingForLock =>
      cases hlocked : t.state.locked with
      | false => exact Traffic.exists_insert_of_waiting hplace hprogress hlocked hnone
      | true =>
          obtain ⟨m, hfree, hrows, hstill⟩ := h.exists_release hfenced hlocked hplace hprogress
          refine Traffic.exists_insert_of_step hrows
            (Traffic.exists_insert_of_waiting hstill hprogress hfree ?_)
          rwa [Journal.holds, hrows]
  | aboutToInsert => exact Traffic.exists_insert hplace hprogress hnone
  | _ =>
      rw [hprogress] at hwill
      cases hwill

/-- Requests to record, any number of them and served in any order, at a service that was
started from its journal, with any failures of its store and of its database. A recovery
from the journal finds no fault, as long as no row was inserted with the fence set. Once the
fence is set a step that inserts no row leaves the rows, the log and the store as they
are; and they stay so whatever happens if and only if no request that had passed the fence
before has its row still to insert. -/
theorem recover_of_heedsFence {journal : Journal ι} {store store' : σ} {now : Nat}
    {s : State σ ι} (hstart : State.restart journal store config now = (.ok s, store'))
    (moves : List (Move ι)) (hheeds : (Traffic.ofState s).HeedsFence moves)
    (ht : (Traffic.ofState s).run moves = t) :
    (∀ {τ : Type} [SnapshotStore τ] [LawfulStore τ] (current : τ),
      (contents current).Perm (contents t.state.store) → ∀ now index detail,
        (Log.recover current config now t.state.journal.payloads).1 ≠
          .error (.recoveryInconsistency index detail)) ∧
    (t.state.fenced = true →
      (∀ m, (t.step m).state.journal.rows = t.state.journal.rows →
        SameRecords t.state (t.step m).state) ∧
      ((∀ further, SameRecords t.state (t.run further).state) ↔
        ∀ r ∈ t.requests, r.progress.willInsert = true →
          t.state.journal.holds r.event = true)) := by
  obtain ⟨accepted, h⟩ := (Orderly.of_restart hstart).run moves hheeds
  rw [ht] at h
  refine ⟨fun current hcontents => h.recover_ne hcontents, fun hfenced => ?_⟩
  have hdecided := h.hasRow_eq_false hfenced
  refine ⟨fun m => Traffic.sameRecords_step hdecided, fun hsame => ?_, fun htaken => ?_⟩
  · intro r hr hwill
    cases hholds : t.state.journal.holds r.event with
    | true => rfl
    | false =>
        obtain ⟨moves, hmoves⟩ := h.exists_insert_of_fenced hfenced hr hwill hholds
        exact absurd (hsame moves).rows hmoves
  · exact Traffic.Quiet.run ⟨hfenced, hdecided, htaken⟩

/-- A store that refuses the writes of the first two events. -/
def faltering : Flaky Shelf :=
  { Flaky.ofInner Shelf.empty with
    refusal? := fun call => if call = 1 ∨ call = 2 then some Flaky.offline else none }

def opened : State (Flaky Shelf) Nat × Flaky Shelf :=
  match State.restart Journal.empty faltering ⟨1⟩ 0 with
  | (.ok s, store) => (s, store)
  | (.error _, store) => (⟨Log.blank ⟨1⟩, store, .empty, false, false⟩, store)

theorem restart_faltering : State.restart Journal.empty faltering ⟨1⟩ 0 =
    (.ok opened.1, opened.2) := by
  have hok : (State.restart (Journal.empty : Journal Nat) faltering ⟨1⟩ 0).1.isOk = true := by
    decide +kernel
  rw [opened]
  cases hstart : State.restart (Journal.empty : Journal Nat) faltering ⟨1⟩ 0 with
  | mk result store =>
      rw [hstart] at hok
      cases result with
      | ok s => rfl
      | error e => cases hok

/-- The request at a place takes so many steps without a mishap. -/
def steps (place count : Nat) : List (Move Nat) :=
  List.replicate count (.advance place ⟨false, false, 0⟩ 1)

def arrivals : List (Move Nat) :=
  [.arrive 1 "x", .arrive 2 "b"]

/-- The event of the first request stays unwritten, that of the second is therefore refused,
and its row cannot be removed. -/
def untilFence : List (Move Nat) :=
  steps 0 4 ++ steps 1 4 ++ [.advance 1 ⟨false, true, 0⟩ 1]

/-- A third request that arrives after that is turned away. -/
theorem recover_of_heedsFence_faltering :
    ∃ t, (Traffic.ofState opened.1).run
        (arrivals ++ untilFence ++ .arrive 3 "a" :: steps 2 4) = t ∧
      t.state.journal.payloads = ["x", "b"] ∧
      (∀ now index detail, (Log.recover t.state.store ⟨1⟩ now t.state.journal.payloads).1 ≠
        .error (.recoveryInconsistency index detail)) ∧
      ∀ further, SameRecords t.state (t.run further).state := by
  have h := recover_of_heedsFence restart_faltering
    (arrivals ++ untilFence ++ .arrive 3 "a" :: steps 2 4) (by decide +kernel) rfl
  refine ⟨_, rfl, by decide +kernel, h.1 _ (.refl _), (h.2 (by decide +kernel)).2.2 ?_⟩
  decide +kernel

/-- A third request that arrives before that looks at the fence. -/
def fencedOff : Traffic (Flaky Shelf) Nat :=
  (Traffic.ofState opened.1).run (arrivals ++ .arrive 3 "a" :: steps 2 1 ++ untilFence)

/-- It inserts its row and records its event with the fence set, and then a recovery reports a
fault. No two of the texts that were hashed collide. -/
theorem recover_of_latecomer :
    fencedOff.state.fenced = true ∧
    fencedOff.state.journal.payloads = ["x", "b"] ∧
    fencedOff.state.log.tree.leafBlocks = [["x"]] ∧
    (fencedOff.run (steps 2 3)).state.journal.payloads = ["x", "b", "a"] ∧
    (fencedOff.run (steps 2 3)).state.log.tree.leafBlocks = [["x", "a"]] ∧
    (∃ detail, (Log.recover (fencedOff.run (steps 2 3)).state.store ⟨1⟩ 1
      ["x", "b", "a"]).1 = .error (.recoveryInconsistency 0 detail)) ∧
    ((["", "x", "xb", "xba", "xa"] : List String).map Digest.ofText).Nodup := by
  refine ⟨by decide +kernel, by decide +kernel, by decide +kernel, by decide +kernel,
    by decide +kernel, ?_, by decide +kernel⟩
  have hfault : (match (Log.recover (fencedOff.run (steps 2 3)).state.store ⟨1⟩ 1
      ["x", "b", "a"]).1 with
    | .error (.recoveryInconsistency 0 _) => true
    | _ => false) = true := by decide +kernel
  split at hfault
  next detail hresult => exact ⟨detail, hresult⟩
  · cases hfault

end SealedLog.Service
