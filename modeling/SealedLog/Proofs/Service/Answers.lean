import SealedLog.Proofs.Log.Reporting
import SealedLog.Proofs.Service.Fence
import SealedLog.Service.Queries

/-!
# What an answer says

A request to record that is served without another one in between changes the journal, the log
and the store in turn, and each of these changes may fail. `Done` lists what can become of the
journal and the log, with the answer that goes with it: the event is in the tree and its row is
the last one; it is in neither; or it is not in the tree, its row could not be removed, and the
fence is set. A request that finds the lock free and the fence unset ends in one of these,
`post_done`, and `postEvent_reply` reads off what the status code says.

Nothing is expected of the store here. A write that fails may leave it in any state: the row of
an event is decided on by what the log says of it, and that does not depend on the store.
-/

namespace SealedLog

namespace Service

variable {σ ι : Type} [SnapshotStore σ] {config : LogConfig}

/-- An event that is in the tree comes with a receipt. -/
theorem settle_record_ne (log : Log) (store : σ) (now : Nat) (payload : String) (reply : Reply) :
    settle (log.record store now payload).1 ≠ .recordedWithoutReceipt reply := by
  have hreported := log.record_reported store now payload
  revert hreported
  generalize (log.record store now payload).1 = outcome
  rintro (_ | _ | _ | _) <;> exact nofun

/-- The database takes the row of an event, and the log takes the event. -/
def Granted (s : State σ ι) (mishaps : Mishaps) (now : Nat) (payload : String) : Prop :=
  mishaps.insertRefused = false ∧ Log.accepted (s.log.record s.store now payload).1 = true

/-- What can become of a request that is served without another one in between. -/
inductive Done (s : State σ ι) (mishaps : Mishaps) (now : Nat) (event : ι) (payload : String) :
    State σ ι → Answer ι → Prop
  | acknowledged {s' : State σ ι} {a : Acknowledgement ι}
      (granted : Granted s mishaps now payload)
      (added : ∃ sealedTree?, Log.Added s.log payload s'.log sealedTree?)
      (rows_eq : s'.journal.rows = s.journal.rows ++ [⟨a.seq, event, payload⟩])
      (warning_eq : a.warning?.isSome = s'.log.pendingWrite) :
      Done s mishaps now event payload s' (.acknowledged a)
  /-- The row was not inserted, or it was removed again. -/
  | undone {s' : State σ ι} {reply : Reply} (refused : ¬ Granted s mishaps now payload)
      (unsuccessful : 500 ≤ reply.status) (sameEvents : s.log.SameEvents s'.log)
      (rows_eq : s'.journal.rows = s.journal.rows) :
      Done s mishaps now event payload s' (.failed reply)
  /-- The row could not be removed. -/
  | left {s' : State σ ι} {reply : Reply} {seq : Nat} (refused : ¬ Granted s mishaps now payload)
      (unsuccessful : 500 ≤ reply.status) (sameEvents : s.log.SameEvents s'.log)
      (rows_eq : s'.journal.rows = s.journal.rows ++ [⟨seq, event, payload⟩])
      (fenced : s'.fenced = true) : Done s mishaps now event payload s' (.failed reply)

section Post

variable {c : Cut} {s : State σ ι} {now : Nat} {event : ι} {payload : String}

/-- Recording the event of a request: it is in the tree and the request is answered, or it is
not and its row has to go. -/
theorem recordAndSettle_done (h : s.log.Follows config c) (hc : c.Valid config.maxLeavesPerTree)
    (now : Nat) (event : ι) (payload : String) (seq : Nat) :
    ∃ log store, (∃ receipt warning?, s.recordAndSettle now event payload seq =
        ({ s with log, store, locked := false },
          .answered (.acknowledged ⟨event, seq, receipt, warning?⟩)) ∧
      Log.accepted (s.log.record s.store now payload).1 = true ∧
      (∃ sealedTree?, Log.Added s.log payload log sealedTree?) ∧
      warning?.isSome = log.pendingWrite) ∨
    ∃ reply, s.recordAndSettle now event payload seq =
        ({ s with log, store }, .aboutToDelete reply) ∧
      Log.accepted (s.log.record s.store now payload).1 = false ∧
      500 ≤ reply.status ∧ s.log.SameEvents log := by
  have hreported := s.log.record_reported s.store now payload
  have hfollows := h.record_follows hc s.store now payload
  have hsame := h.sameEvents_of_refused hc s.store now payload
  rcases hrecord : s.log.record s.store now payload with ⟨outcome, log, store⟩
  rw [hrecord] at hreported hfollows hsame
  simp only [State.recordAndSettle, hrecord]
  refine ⟨log, store, ?_⟩
  cases hreported with
  | written hpending =>
      exact Or.inl ⟨_, none, rfl, rfl, h.exists_added hc hfollows, hpending.symm⟩
  | unwritten hpending =>
      exact Or.inl ⟨_, some _, rfl, rfl, h.exists_added hc hfollows, hpending.symm⟩
  | notRecorded => exact Or.inr ⟨_, rfl, rfl, (by decide : 500 ≤ 503), hsame rfl⟩
  | structural => exact Or.inr ⟨_, rfl, rfl, (by decide : 500 ≤ 500), hsame rfl⟩

variable [DecidableEq ι]

/-- The state in which a request has its row and is about to record its event. -/
def journaled (s : State σ ι) (skipped : Nat) (event : ι) (payload : String) : State σ ι :=
  { s with journal := ((s.journal.skip skipped).insert event payload).1, locked := true }

omit [SnapshotStore σ] [DecidableEq ι] in
theorem rows_journaled (s : State σ ι) (skipped : Nat) (event : ι) (payload : String) :
    (journaled s skipped event payload).journal.rows =
      s.journal.rows ++ [⟨s.journal.nextSeq + skipped, event, payload⟩] := rfl

section AdvanceBy

variable {mishaps : Mishaps} {s' : State σ ι} {p p' : Progress ι} {n : Nat}

theorem advanceBy_of_advances (h : s.Advances mishaps now event payload p s' p') :
    State.advanceBy mishaps now event payload (n + 1) s p =
      State.advanceBy mishaps now event payload n s' p' := by
  rw [State.advanceBy, State.advance_eq_some_iff.2 h]

theorem advanceBy_answered (s : State σ ι) (a : Answer ι) :
    State.advanceBy mishaps now event payload n s (.answered a) = (s, .answered a) := by
  cases n <;> rfl

theorem post_eq_advanceBy (hunfenced : s.fenced = false) (hfree : s.locked = false) :
    s.post mishaps now event payload =
      State.advanceBy mishaps now event payload 3 { s with locked := true } .aboutToInsert := by
  rw [State.post, advanceBy_of_advances (.passed hunfenced), advanceBy_of_advances (.locked hfree)]

theorem post_of_refused (hunfenced : s.fenced = false) (hfree : s.locked = false)
    (hinsert : mishaps.insertRefused = true) :
    s.post mishaps now event payload =
      ({ s with journal := s.journal.skip mishaps.skipped, locked := false },
        .answered (.failed (.unavailable (Refusal.message ⟨.insert⟩)))) := by
  rw [post_eq_advanceBy hunfenced hfree, advanceBy_of_advances (.notInserted hinsert),
    advanceBy_answered]

theorem post_of_inserted (hunfenced : s.fenced = false) (hfree : s.locked = false)
    (hinsert : mishaps.insertRefused = false)
    (hsettle : (journaled s mishaps.skipped event payload).recordAndSettle now event payload
      (s.journal.nextSeq + mishaps.skipped) = (s', p')) :
    s.post mishaps now event payload = State.advanceBy mishaps now event payload 1 s' p' := by
  have hinserted : State.Advances { s with locked := true } mishaps now event payload
      .aboutToInsert (journaled s mishaps.skipped event payload)
      (.aboutToRecord (s.journal.nextSeq + mishaps.skipped)) := .inserted hinsert
  rw [post_eq_advanceBy hunfenced hfree, advanceBy_of_advances hinserted,
    advanceBy_of_advances (.recorded hsettle)]

end AdvanceBy

/-- A request that finds the fence unset and the lock free, and whose event has no row. -/
theorem post_done (h : s.log.Follows config c) (hc : c.Valid config.maxLeavesPerTree)
    (hunfenced : s.fenced = false) (hfree : s.locked = false) (mishaps : Mishaps) (now : Nat)
    (event : ι) (payload : String)
    (hfresh : mishaps.insertRefused = false → s.journal.holds event = false) :
    ∃ s' a, s.post mishaps now event payload = (s', .answered a) ∧
      Done s mishaps now event payload s' a := by
  cases hinsert : mishaps.insertRefused with
  | true =>
      have hrefused : ¬ Granted s mishaps now payload := fun hgranted => by
        rw [hgranted.1] at hinsert
        cases hinsert
      exact ⟨_, _, post_of_refused hunfenced hfree hinsert,
        .undone hrefused (by decide : 500 ≤ 503) (.refl _) rfl⟩
  | false =>
      have hrows := rows_journaled s mishaps.skipped event payload
      obtain ⟨log, store, ⟨receipt, warning?, hsettle, haccepted, hadded, hwarning⟩ |
          ⟨reply, hsettle, haccepted, hstatus, hsame⟩⟩ :=
        recordAndSettle_done (s := journaled s mishaps.skipped event payload) h hc now event
          payload (s.journal.nextSeq + mishaps.skipped)
      · have hdone : Done s mishaps now event payload
            { journaled s mishaps.skipped event payload with log, store, locked := false }
            (.acknowledged ⟨event, s.journal.nextSeq + mishaps.skipped, receipt, warning?⟩) :=
          .acknowledged ⟨hinsert, haccepted⟩ hadded hrows hwarning
        refine ⟨_, _, ?_, hdone⟩
        rw [post_of_inserted hunfenced hfree hinsert hsettle, advanceBy_answered]
      · have hrefused : ¬ Granted s mishaps now payload := fun hgranted =>
          Bool.false_ne_true (haccepted.symm.trans hgranted.2)
        have hpost := post_of_inserted hunfenced hfree hinsert hsettle
        cases hdelete : mishaps.deleteRefused with
        | true =>
            rw [advanceBy_of_advances (.notDeleted hdelete)] at hpost
            exact ⟨_, _, hpost, .left hrefused hstatus hsame hrows rfl⟩
        | false =>
            have hnone := Journal.holds_eq_false_iff.1 (hfresh hinsert)
            rw [advanceBy_of_advances (.deleted hdelete)] at hpost
            exact ⟨_, _, hpost, .undone hrefused hstatus hsame (Journal.rows_delete hrows hnone)⟩

end Post

section Reached

variable [DecidableEq ι] {s s' : State σ ι} {mishaps : Mishaps} {now : Nat} {event : ι}
  {payload : String} {p p' : Progress ι}

/-- The log of a service comes from a recovery by recording, and if it is locked then for a
request that has not been answered. -/
structure Reached (config : LogConfig) (t : Traffic σ ι) : Prop where
  holding : ∃ events, Log.Holding σ config events t.state.log
  held : t.state.locked = true → ∃ r ∈ t.requests, r.progress.hasLock = true

omit [DecidableEq ι] in
/-- Settling does not touch the log, and keeps the lock only for a request that goes on. -/
theorem recordAndSettle_log (s : State σ ι) (now : Nat) (event : ι) (payload : String)
    (seq : Nat) :
    (s.recordAndSettle now event payload seq).1.log = (s.log.record s.store now payload).2.1 ∧
    ((s.recordAndSettle now event payload seq).1.locked = true →
      (s.recordAndSettle now event payload seq).2.hasLock = true) := by
  rcases hrecord : s.log.record s.store now payload with ⟨outcome, log, store⟩
  simp only [State.recordAndSettle, hrecord]
  cases settle outcome with
  | refused reply => exact ⟨rfl, fun _ => rfl⟩
  | _ => exact ⟨rfl, fun hlocked => absurd hlocked Bool.false_ne_true⟩

/-- A step records an event or leaves the log alone; and if the service is locked after it,
then for this request or, as before, for another one. -/
theorem log_of_advances (h : s.Advances mishaps now event payload p s' p') :
    (s'.log = s.log ∨ s'.log = (s.log.record s.store now payload).2.1) ∧
    (s'.locked = true → p'.hasLock = true ∨ s.locked = true ∧ p.hasLock = false) := by
  cases h with
  | turnedAway | passed => exact ⟨Or.inl rfl, fun hlocked => Or.inr ⟨hlocked, rfl⟩⟩
  | locked | inserted => exact ⟨Or.inl rfl, fun _ => Or.inl rfl⟩
  | notInserted | notDeleted | deleted =>
      exact ⟨Or.inl rfl, fun hlocked => absurd hlocked Bool.false_ne_true⟩
  | @recorded seq _ _ hsettled =>
      obtain ⟨hlog, hlock⟩ := recordAndSettle_log s now event payload seq
      rw [hsettled] at hlog hlock
      exact ⟨Or.inr hlog, fun hlocked => Or.inl (hlock hlocked)⟩

variable {t : Traffic σ ι}

theorem Reached.step (h : Reached config t) (m : Move ι) : Reached config (t.step m) := by
  cases m with
  | arrive event payload =>
      refine ⟨h.holding, fun hlocked => ?_⟩
      obtain ⟨r, hr, hlock⟩ := h.held hlocked
      exact ⟨r, List.mem_append_left _ hr, hlock⟩
  | advance place mishaps now =>
      rcases t.step_advance_cases place mishaps now with heq | ⟨r, s, p, hr, hadvances, heq⟩
      · rwa [heq]
      · obtain ⟨hlog, hlock⟩ := log_of_advances hadvances
        rw [heq]
        refine ⟨?_, fun hlocked => ?_⟩
        · obtain ⟨events, hholding⟩ := h.holding
          rcases hlog with hlog | hlog
          · exact ⟨events, hlog ▸ hholding⟩
          · exact ⟨_, hlog ▸ hholding.record t.state.store now r.payload⟩
        · have hlt := (List.getElem?_eq_some_iff.1 hr).1
          rcases hlock hlocked with hnew | ⟨hold, hnone⟩
          · exact ⟨_, List.mem_of_getElem? (List.getElem?_set_self hlt), hnew⟩
          · -- another request has it, which is still there
            obtain ⟨q, hq, hqlock⟩ := h.held hold
            obtain ⟨other, hother⟩ := List.getElem?_of_mem hq
            have hne : place ≠ other := by
              rintro rfl
              rw [hr] at hother
              cases hother
              rw [hnone] at hqlock
              cases hqlock
            exact ⟨q, List.mem_of_getElem? ((List.getElem?_set_ne hne).trans hother), hqlock⟩

theorem Reached.run (h : Reached config t) (moves : List (Move ι)) :
    Reached config (t.run moves) := by
  induction moves generalizing t with
  | nil => exact h
  | cons m moves ih => exact ih (h.step m)

omit [DecidableEq ι] in
theorem Reached.of_restart {journal : Journal ι} {store store' : σ}
    (h : State.restart journal store config now = (.ok s, store')) :
    Reached config (Traffic.ofState s) := by
  rw [State.restart] at h
  rcases hrecover : Log.recover store config now journal.payloads with ⟨_ | log, store''⟩
  · rw [hrecover] at h
    cases h
  · rw [hrecover] at h
    cases h
    exact ⟨⟨_, .recover hrecover⟩, fun hlocked => absurd hlocked Bool.false_ne_true⟩

/-- A request at a service with no other one under way, and with the fence not set. -/
theorem Reached.post_done (h : Reached config t) (hunfenced : t.state.fenced = false)
    (hidle : ∀ r ∈ t.requests, r.progress.hasLock = false) (mishaps : Mishaps) (now : Nat)
    (event : ι) (payload : String) :
    ∃ s a, t.state.post (t.mishapsFor event mishaps) now event payload = (s, .answered a) ∧
      Done t.state (t.mishapsFor event mishaps) now event payload s a := by
  obtain ⟨events, hholding⟩ := h.holding
  have hfree : t.state.locked = false := Bool.eq_false_iff.2 fun hlocked => by
    obtain ⟨r, hr, hlock⟩ := h.held hlocked
    rw [hidle r hr] at hlock
    cases hlock
  exact Service.post_done hholding.follows (Cut.valid_ofEvents _ events) hunfenced hfree
    (t.mishapsFor event mishaps) now event payload
    fun hinsert => (Bool.or_eq_false_iff.1 hinsert).2

end Reached

namespace Answer

theorem status_reply (a : Answer Uuid) : a.reply.status = a.status := by
  cases a <;> rfl

theorem status_acknowledged_mem (a : Acknowledgement ι) :
    (acknowledged a).status ∈ [201, 202] := by
  rw [status]
  cases a.warning?.isSome <;> decide

theorem status_acknowledged_eq_iff (a : Acknowledgement ι) :
    (acknowledged a).status = 202 ↔ a.warning?.isSome = true := by
  rw [status]
  cases a.warning?.isSome <;> decide

theorem status_failed_not_mem {reply : Reply} (h : 500 ≤ reply.status) :
    (failed reply : Answer ι).status ∉ [201, 202] := by
  rw [status]
  simp only [List.mem_cons, List.not_mem_nil, or_false]
  omega

end Answer

namespace Done

variable {s s' : State σ ι} {mishaps : Mishaps} {now : Nat} {event : ι}
  {payload : String} {a : Answer ι}

theorem status_mem_iff_granted (h : Done s mishaps now event payload s' a) :
    a.status ∈ [201, 202] ↔ Granted s mishaps now payload := by
  cases h with
  | acknowledged hgranted _ _ _ =>
      exact iff_of_true (Answer.status_acknowledged_mem _) hgranted
  | undone hrefused hstatus _ _ =>
      exact iff_of_false (Answer.status_failed_not_mem hstatus) hrefused
  | left hrefused hstatus _ _ _ =>
      exact iff_of_false (Answer.status_failed_not_mem hstatus) hrefused

theorem status_mem_iff (h : Done s mishaps now event payload s' a) :
    a.status ∈ [201, 202] ↔ (∃ sealedTree?, Log.Added s.log payload s'.log sealedTree?) ∧
      ∃ seq, s'.journal.rows.getLast? = some ⟨seq, event, payload⟩ := by
  cases h with
  | acknowledged _ hadded hrows _ =>
      have hlast := congrArg List.getLast? hrows
      rw [List.getLast?_concat] at hlast
      exact iff_of_true (Answer.status_acknowledged_mem _) ⟨hadded, _, hlast⟩
  | undone _ hstatus hsame _ =>
      exact iff_of_false (Answer.status_failed_not_mem hstatus)
        fun ⟨⟨_, hadded⟩, _⟩ => hsame.not_added hadded
  | left _ hstatus hsame _ _ =>
      exact iff_of_false (Answer.status_failed_not_mem hstatus)
        fun ⟨⟨_, hadded⟩, _⟩ => hsame.not_added hadded

theorem status_eq_iff (h : Done s mishaps now event payload s' a) (hmem : a.status ∈ [201, 202]) :
    a.status = 202 ↔ s'.log.pendingWrite = true := by
  cases h with
  | acknowledged _ _ _ hwarning => rw [Answer.status_acknowledged_eq_iff, hwarning]
  | undone _ hstatus _ _ => exact absurd hmem (Answer.status_failed_not_mem hstatus)
  | left _ hstatus _ _ _ => exact absurd hmem (Answer.status_failed_not_mem hstatus)

theorem of_not_mem (h : Done s mishaps now event payload s' a) (hnot : a.status ∉ [201, 202]) :
    s.log.SameEvents s'.log ∧ (s'.journal.rows = s.journal.rows ∨ s'.fenced = true) := by
  cases h with
  | acknowledged => exact absurd (Answer.status_acknowledged_mem _) hnot
  | undone _ _ hsame hrows => exact ⟨hsame, Or.inl hrows⟩
  | left _ _ hsame _ hfenced => exact ⟨hsame, Or.inr hfenced⟩

theorem rows_of_added (h : Done s mishaps now event payload s' a) {sealedTree? : Option SealedTree}
    (hadded : Log.Added s.log payload s'.log sealedTree?) :
    ∃ seq, s'.journal.rows = s.journal.rows ++ [⟨seq, event, payload⟩] := by
  cases h with
  | acknowledged _ _ hrows _ => exact ⟨_, hrows⟩
  | undone _ _ hsame _ => exact absurd hadded hsame.not_added
  | left _ _ hsame _ _ => exact absurd hadded hsame.not_added

theorem prefix_rows (h : Done s mishaps now event payload s' a) :
    s.journal.rows <+: s'.journal.rows := by
  cases h with
  | acknowledged _ _ hrows _ => exact hrows ▸ List.prefix_append _ _
  | undone _ _ _ hrows => rw [hrows]
  | left _ _ _ hrows _ => exact hrows ▸ List.prefix_append _ _

end Done

/-- A request to record at a service that was started from its journal and has served any
others, in any order and with any failures, when none of these is under way and the fence is
not set. Whatever fails now, the answer is 201 or 202 exactly if the row and the event are
taken, and exactly if the event was then added to the tree and its row is the last one; of the
two it is 202 exactly if a write is then due. After any other answer the log has the events it
had, and the journal the rows it had unless the fence is set. No row of an event in the tree is
removed, and there is no event in the tree without a receipt. -/
theorem postEvent_reply {t : Traffic σ Uuid} {journal : Journal Uuid} {store store' : σ}
    {started : Nat} {s₀ : State σ Uuid}
    (hstart : State.restart journal store config started = (.ok s₀, store'))
    (moves : List (Move Uuid)) (ht : (Traffic.ofState s₀).run moves = t)
    (hunfenced : t.state.fenced = false)
    (hidle : ∀ r ∈ t.requests, r.progress.hasLock = false)
    (mishaps : Mishaps) (redactor : Redactor) (request : RecordRequest) (id : Uuid)
    (now : Instant) (seconds : Nat) :
    let payload := (request.event id now redactor).payload
    (∃ s reply,
      t.state.postEvent (t.mishapsFor id mishaps) redactor request id now seconds = (s, reply) ∧
      (reply.status ∈ [201, 202] ↔
        Granted t.state (t.mishapsFor id mishaps) seconds payload) ∧
      (reply.status ∈ [201, 202] ↔
        (∃ sealedTree?, Log.Added t.state.log payload s.log sealedTree?) ∧
          ∃ seq, s.journal.rows.getLast? = some ⟨seq, id, payload⟩) ∧
      (reply.status ∈ [201, 202] → (reply.status = 202 ↔ s.log.pendingWrite = true)) ∧
      (reply.status ∉ [201, 202] → t.state.log.SameEvents s.log ∧
        (s.journal.rows = t.state.journal.rows ∨ s.fenced = true) ∧
        (t.state.journal.holds id = false → s.journal.holds id = false ∨ s.fenced = true)) ∧
      (∀ sealedTree?, Log.Added t.state.log payload s.log sealedTree? →
        ∃ seq, s.journal.rows = t.state.journal.rows ++ [⟨seq, id, payload⟩]) ∧
      t.state.journal.rows <+: s.journal.rows) ∧
    ∀ (log : Log) (store : σ) (now : Nat) (payload : String) (reply : Reply),
      settle (log.record store now payload).1 ≠ .recordedWithoutReceipt reply := by
  intro payload
  refine ⟨?_, settle_record_ne⟩
  have hreached : Reached config t := ht ▸ (Reached.of_restart hstart).run moves
  obtain ⟨s, a, hpost, hdone⟩ :=
    hreached.post_done hunfenced hidle mishaps seconds id payload
  refine ⟨s, a.reply, by rw [State.postEvent, hpost], ?_⟩
  rw [a.status_reply]
  refine ⟨hdone.status_mem_iff_granted, hdone.status_mem_iff, hdone.status_eq_iff, fun hnot => ?_,
    fun _ => hdone.rows_of_added, hdone.prefix_rows⟩
  obtain ⟨hsame, hrows⟩ := hdone.of_not_mem hnot
  refine ⟨hsame, hrows, fun hnone => hrows.imp_left fun hrows => ?_⟩
  rwa [Journal.holds, hrows]

/-- The service over the store that refuses the writes of the first two events, with events
under UUIDs. -/
def begun : State (Flaky Shelf) Uuid :=
  ⟨opened.1.log, opened.1.store, .empty, false, false⟩

theorem restart_begun :
    State.restart (Journal.empty : Journal Uuid) faltering ⟨1⟩ 0 = (.ok begun, opened.2) := by
  have hopened := restart_faltering
  have hpayloads : (Journal.empty : Journal Uuid).payloads =
      (Journal.empty : Journal Nat).payloads := rfl
  rw [State.restart] at hopened ⊢
  rw [hpayloads, begun]
  rcases hrecover : Log.recover faltering ⟨1⟩ 0 (Journal.empty : Journal Nat).payloads with
    ⟨_ | log, store⟩
  · rw [hrecover] at hopened
    cases hopened
  · rw [hrecover] at hopened
    simp only [Prod.mk.injEq, Except.ok.injEq] at hopened
    rw [← hopened.1, ← hopened.2]

/-- The service after a first event whose write failed. -/
def pendingService : Traffic (Flaky Shelf) Uuid :=
  (Traffic.ofState begun).run
    (.arrive .nil "x" :: List.replicate 4 (.advance 0 ⟨false, false, 0⟩ 1))

def sentRequest : RecordRequest :=
  ⟨"caller", "operation", .null, .success, none, 0⟩

/-- The write is retried for a second event and fails again, and the row of that event cannot be
removed: the event is refused, its row stays, and the fence is set. -/
theorem postEvent_reply_faltering :
    pendingService.state.log.pendingWrite = true ∧
    ∃ s reply, pendingService.state.postEvent ⟨false, true, 0⟩ .maskNothing sentRequest
        (.ofRandom []) .epoch 1 = (s, reply) ∧
      reply.status = 503 ∧ pendingService.state.log.SameEvents s.log ∧
      s.journal.rows.length = 2 ∧ s.fenced = true := by
  obtain ⟨⟨s, reply, hpost, -, -, -, hnot, -, -⟩, -⟩ :=
    postEvent_reply (t := pendingService) restart_begun _ rfl (by decide +kernel)
      (by decide +kernel) ⟨false, true, 0⟩ .maskNothing sentRequest (.ofRandom []) .epoch 1
  have hmishaps : pendingService.mishapsFor (.ofRandom []) ⟨false, true, 0⟩ = ⟨false, true, 0⟩ := by
    decide +kernel
  rw [hmishaps] at hpost
  have hserved : (pendingService.state.postEvent ⟨false, true, 0⟩ .maskNothing sentRequest
        (.ofRandom []) .epoch 1).1.journal.rows.length = 2 ∧
      (pendingService.state.postEvent ⟨false, true, 0⟩ .maskNothing sentRequest
        (.ofRandom []) .epoch 1).1.fenced = true ∧
      (pendingService.state.postEvent ⟨false, true, 0⟩ .maskNothing sentRequest
        (.ofRandom []) .epoch 1).2.status = 503 := by decide +kernel
  rw [hpost] at hserved
  obtain ⟨hrows, hfenced, hstatus⟩ := hserved
  exact ⟨by decide +kernel, s, reply, hpost, hstatus, (hnot (by rw [hstatus]; decide)).1, hrows,
    hfenced⟩

end Service

end SealedLog
