import SealedLog.Proofs.Log.Mending

/-!
# Runs of calls

A session is a log with its store and the payloads that it accepted since it was started. A
run is any sequence of calls, over a store that may fail whenever it likes. What one call
keeps, `call_synced`, a whole run keeps, `run_synced`; and since a watched store remembers
every state it was in, `kept_of_start` says of all of them that they are snapshots of an
unbroken chain.
-/

namespace SealedLog

namespace Log

open Cut

/-- A call of a log, with the time at which it is made. -/
inductive Call where
  | record (now : Nat) (payload : String)
  | flush (now : Nat)
deriving DecidableEq, Repr

/-- A log with its store and the payloads that it accepted, in order. -/
structure Session (σ : Type) where
  log : Log
  store : σ
  accepted : List String

namespace Session

variable {σ : Type} [SnapshotStore σ]

/-- One call. A payload is accepted if the outcome says that it is in the tree. -/
def call (s : Session σ) : Call → Session σ
  | .record now payload =>
    match s.log.record s.store now payload with
    | (outcome, log, store) =>
      ⟨log, store, if Log.accepted outcome then s.accepted ++ [payload] else s.accepted⟩
  | .flush now =>
    match s.log.flush s.store now with
    | (_, log, store) => ⟨log, store, s.accepted⟩

def run (s : Session σ) (calls : List Call) : Session σ :=
  calls.foldl call s

/-- The trees of the payloads accepted so far. -/
def cut (config : LogConfig) (s : Session σ) : Cut :=
  ofEvents config.maxLeavesPerTree s.accepted

theorem accepted_call (s : Session σ) (call : Call) :
    s.accepted <+: (s.call call).accepted := by
  cases call with
  | record now payload =>
      rw [Session.call]
      split
      next outcome log store heq =>
        cases Log.accepted outcome with
        | true => exact List.prefix_append _ _
        | false => exact List.prefix_refl _
  | flush now => exact List.prefix_refl _

theorem accepted_run (s : Session σ) (calls : List Call) :
    s.accepted <+: (s.run calls).accepted := by
  induction calls generalizing s with
  | nil => exact List.prefix_refl _
  | cons call calls ih => exact (s.accepted_call call).trans (ih _)

theorem extends_cut_run (config : LogConfig) (s : Session σ) (calls : List Call) :
    Extends (s.cut config).trees ((s.run calls).cut config).trees :=
  extends_ofEvents _ (s.accepted_run calls)

variable [LawfulStore σ] {L : Likeness} {config : LogConfig}

/-- A call keeps the log in step with its store, and the store a chain on the way. -/
theorem call_synced {s : Session σ}
    (h : Synced L config (s.cut config) s.log (contents s.store)) (call : Call)
    (hapart : Apart ((s.call call).cut config).trees) :
    Synced L config ((s.call call).cut config) (s.call call).log (contents (s.call call).store) ∧
      Writes (Stocked L ((s.call call).cut config).trees) s.store (s.call call).store := by
  have hold := hapart.mono (extends_ofEvents _ (s.accepted_call call))
  cases call with
  | record now payload =>
      have hnext : Log.accepted (s.log.record s.store now payload).1 = true →
          Apart ((s.cut config).add config.maxLeavesPerTree payload).trees := by
        intro haccepted
        rw [Session.call] at hapart
        simp only [haccepted, if_true] at hapart
        rwa [Session.cut, ofEvents_concat] at hapart
      obtain ⟨result, log', store', hrecord, houtcome⟩ := h.record_synced payload now hold hnext
      simp only [Session.call, hrecord]
      cases houtcome with
      | written synced _ writes =>
          simp only [Log.accepted, if_true, Session.cut, ofEvents_concat]
          exact ⟨synced, writes⟩
      | pending synced writes _ =>
          simp only [Log.accepted, if_true, Session.cut, ofEvents_concat]
          exact ⟨synced, writes⟩
      | refused synced writes _ => exact ⟨synced, writes⟩
  | flush now =>
      obtain ⟨result, log', store', hflush, hsynced, hwrites⟩ := h.flush_synced hold now
      simp only [Session.call, hflush]
      exact ⟨hsynced, hwrites⟩

/-- A run keeps the log in step with its store, and the store a chain on the way. -/
theorem run_synced {s : Session σ}
    (h : Synced L config (s.cut config) s.log (contents s.store)) (calls : List Call)
    (hapart : Apart ((s.run calls).cut config).trees) :
    Synced L config ((s.run calls).cut config) (s.run calls).log (contents (s.run calls).store) ∧
      Writes (Stocked L ((s.run calls).cut config).trees) s.store (s.run calls).store := by
  induction calls generalizing s with
  | nil => exact ⟨h, .refl _⟩
  | cons call calls ih =>
      have hext := extends_cut_run config (s.call call) calls
      obtain ⟨hsynced, hwrites⟩ := call_synced h call (hapart.mono hext)
      obtain ⟨hsynced', hwrites'⟩ := ih hsynced hapart
      exact ⟨hsynced', (hwrites.mono fun l hl => hl.mono hext).trans hwrites'⟩

end Session

variable {σ : Type} [SnapshotStore σ] [LawfulStore σ]

theorem persist_of_reliable {store : σ} (h : Reliable store) (log : Log) (now : Nat) :
    ∃ store', log.persist store now = (.ok (),
        { log with persistedRoot? := some log.rootHash, pendingWrite := false }, store') ∧
      Reliable store' := by
  obtain ⟨hok, hnext⟩ := h.replace log.persistedRoot? (log.snapshot now)
  rcases persist_cases log store now with
    ⟨store', hreplace, hpersist, -⟩ | ⟨e, store', hreplace, -⟩
  · rw [hreplace] at hnext
    exact ⟨store', hpersist, hnext⟩
  · rw [hreplace] at hok
    cases hok

/-- On a store that does not fail an event is put into the tree and written, after a seal if the
tree is full. -/
theorem Follows.record_of_reliable {config : LogConfig} {c : Cut} {log : Log} {store : σ}
    (h : log.Follows config c) (hc : c.Valid config.maxLeavesPerTree)
    (hwritten : log.pendingWrite = false) (hreliable : Reliable store) (now : Nat)
    (payload : String) :
    ∃ receipt log' store', log.record store now payload = (.ok receipt, log', store') ∧
      log'.Follows config (c.add config.maxLeavesPerTree payload) ∧
      log'.pendingWrite = false ∧ Reliable store' := by
  have hretry : log.retry store now = (.ok (), log, store) := by
    rw [retry, hwritten]
    rfl
  obtain ⟨sealed?, next, store₁, hrollOver, hnext, hreliable₁⟩ : ∃ sealed? next store₁,
      log.rollOver store now = (.ok sealed?, next, store₁) ∧
        next.Follows config (c.roll config.maxLeavesPerTree) ∧ Reliable store₁ := by
    obtain ⟨_, _, store₁, hrollOver, hcase⟩ := h.rollsOver hwritten store now
    have hroll := h.roll_eq hc
    cases hcase with
    | kept hroom =>
        rw [hroll, hroom]
        exact ⟨none, log, store, hrollOver, h, hreliable⟩
    | @opened next _ hfull hnext hwrite =>
        have hreliable₁ := (hreliable.replace none (next.snapshot now)).2
        rw [hwrite] at hreliable₁
        rw [hroll, hfull]
        exact ⟨_, _, store₁, hrollOver, hnext.of_tree_eq rfl rfl rfl rfl, hreliable₁⟩
    | refused hfailed => exact absurd hreliable (not_reliable_of_replace hfailed)
  obtain ⟨tree, happend, hfollows⟩ := hnext.append_eq payload
  obtain ⟨store', hpersist, hreliable'⟩ :=
    persist_of_reliable hreliable₁ { next with tree } now
  refine ⟨⟨tree.rootHash, next.treeIndex, tree.lastLeafIndex, sealed?⟩,
    { next with tree, persistedRoot? := some tree.rootHash, pendingWrite := false }, store', ?_,
    hfollows.of_tree_eq rfl rfl rfl rfl, rfl, hreliable'⟩
  simp only [record, hretry, hrollOver, appendEvent, happend, hpersist, rootHash]

/-- On a store that does not fail every payload is accepted and written. -/
theorem Session.run_record_of_reliable {config : LogConfig} {s : Session σ}
    (h : s.log.Follows config (s.cut config)) (hreliable : Reliable s.store)
    (hwritten : s.log.pendingWrite = false) (payloads : List String) (now : Nat) :
    (s.run (payloads.map (Call.record now))).accepted = s.accepted ++ payloads ∧
      (s.run (payloads.map (Call.record now))).log.pendingWrite = false := by
  induction payloads generalizing s with
  | nil => exact ⟨(List.append_nil _).symm, hwritten⟩
  | cons payload payloads ih =>
      obtain ⟨receipt, log', store', hrecord, hfollows, hwritten', hreliable'⟩ :=
        h.record_of_reliable (valid_ofEvents _ _) hwritten hreliable now payload
      have hcall : s.call (.record now payload) = ⟨log', store', s.accepted ++ [payload]⟩ := by
        simp only [Session.call, hrecord, Log.accepted, if_true]
      rw [List.map_cons, Session.run, List.foldl_cons, hcall,
        List.append_cons s.accepted payload payloads]
      refine ih (s := ⟨log', store', s.accepted ++ [payload]⟩) ?_ hreliable' hwritten'
      rw [Session.cut, ofEvents_concat]
      exact hfollows

omit [LawfulStore σ] in
/-- Starting a log on a store without snapshots is one write. -/
theorem replace_of_start {store store' : σ} {config : LogConfig} {now : Nat} {log : Log}
    (hload : SnapshotStore.load store = .ok [])
    (hstart : start store config now = (.ok log, store')) :
    SnapshotStore.replace store none ((blank config).snapshot now) = (.ok (), store') := by
  have hreconcile : reconcile store [] [(blank config).rootHash] ((blank config).snapshot now) =
      replaceEach store ((blank config).snapshot now) [none] >>= fun store => .ok (store, []) :=
    rfl
  cases hreplace : SnapshotStore.replace store none ((blank config).snapshot now) with
  | mk result store₁ =>
      cases result with
      | error e =>
          simp only [replaceEach, hreplace, bind, Except.bind] at hreconcile
          simp only [start, recover, hload, List.foldlM_nil, Replay.start, Replay.finish,
            List.map_nil, hreconcile, bind, Except.bind, pure, Except.pure] at hstart
          cases hstart
      | ok _ =>
          simp only [replaceEach, hreplace, bind, Except.bind] at hreconcile
          simp only [start, recover, hload, List.foldlM_nil, Replay.start, Replay.finish,
            List.map_nil, hreconcile, bind, Except.bind, pure, Except.pure] at hstart
          cases hstart
          rfl

/-- A log that was started on an empty store is in step with it. -/
theorem start_synced {store store' : σ} {config : LogConfig} {now : Nat} {log : Log}
    (hempty : contents store = []) (hstart : start store config now = (.ok log, store')) :
    Synced .full config (ofEvents config.maxLeavesPerTree []) log (contents store') ∧
      Writes (Stocked .full (ofEvents config.maxLeavesPerTree []).trees) store store' := by
  have hkept : Kept .full (ofEvents config.maxLeavesPerTree []).trees (contents store) := by
    rw [hempty]
    exact kept_nil _ _
  rcases recover_mended hkept apart_empty (fun hs => by simp [hempty] at hs) now with
    ⟨log', store'', hrecover, hsynced, -, -⟩ | ⟨reason, store'', hrecover, -, -⟩
  · rw [start, hrecover] at hstart
    cases hstart
    refine ⟨hsynced, ?_⟩
    cases hload : SnapshotStore.load store with
    | error e =>
        simp only [recover, hload] at hrecover
        cases hrecover
    | ok listed =>
        have hperm := LawfulStore.load_ok hload
        rw [hempty] at hperm
        obtain rfl := hperm.eq_nil
        exact .of_replace (replace_of_start hload hrecover) hsynced.toBacked.stocked
  · rw [start, hrecover] at hstart
    cases hstart

/-- Where no write is pending, the store has the current tree as it is. -/
theorem Synced.getElem?_contents {config : LogConfig} {c : Cut} {log : Log}
    {l : List Snapshot} (h : Synced .full config c log l) (hwritten : log.pendingWrite = false) :
    ∃ written, l[log.treeIndex]? = some (log.snapshot written) := by
  have hlength := h.length_eq
  obtain ⟨s, hs⟩ : ∃ s, l[c.closed.length]? = some s := ⟨_, List.getElem?_eq_getElem (by omega)⟩
  obtain ⟨treeIndex, written, rfl⟩ := h.written hwritten s hs
  have hindex := h.kept.index hs
  refine ⟨written, ?_⟩
  rw [h.follows.treeIndex_eq, hs, h.follows.snapshot_eq, ← hindex]
  rfl

theorem map_treeIndex_of_kept {L : Likeness} {T : List (List String)} {l : List Snapshot}
    (h : Kept L T l) : l.map Snapshot.treeIndex = List.range l.length := by
  apply List.ext_getElem?
  intro i
  rw [List.getElem?_map]
  by_cases hi : i < l.length
  · rw [List.getElem?_eq_getElem hi, List.getElem?_range hi, Option.map_some,
      h.index (List.getElem?_eq_getElem hi)]
  · rw [List.getElem?_eq_none (by omega), List.getElem?_eq_none (by simpa using hi)]
    rfl

/-- The store of a log that was started on an empty store, through any run of calls and any
failures of the store. In every state that it was in, it held one snapshot of each tree up to
some index, in the final state but for the last, of which it was some state; and the audit
of them has nothing to report. After every call the last tree with a snapshot is the current
one, and its snapshot is up to date unless a write is pending. -/
theorem kept_of_start {store : σ} {opened : Watched σ} {config : LogConfig} {now : Nat}
    {log : Log} (hempty : contents store = [])
    (hstart : start (Watched.ofInner store) config now = (.ok log, opened)) (calls : List Call)
    (hapart : Apart (((Session.mk log opened []).run calls).cut config).trees) :
    (∀ state ∈ ((Session.mk log opened []).run calls).store.seen, ∃ k,
      (contents state).map Snapshot.treeIndex = List.range (k + 1) ∧
      Kept .full (((Session.mk log opened []).run calls).cut config).trees (contents state) ∧
      Chain.audit (contents state) = ⟨k + 1, []⟩) ∧
    ∀ n s, (Session.mk log opened []).run (calls.take n) = s →
      s.log.Follows config (s.cut config) ∧
      Kept .full (s.cut config).trees (contents s.store) ∧
      (contents s.store).length = s.log.treeIndex + 1 ∧
      (s.log.pendingWrite = false →
        ∃ written, (contents s.store)[s.log.treeIndex]? = some (s.log.snapshot written)) := by
  have hwatched : contents (Watched.ofInner store) = [] := hempty
  obtain ⟨hopened, hwrites⟩ := start_synced hwatched hstart
  constructor
  · obtain ⟨hsynced, hwrites'⟩ := Session.run_synced (s := ⟨log, opened, []⟩) hopened calls hapart
    have hext := Session.extends_cut_run config ⟨log, opened, []⟩ calls
    have hnone : (Watched.ofInner store).All
        (Stocked .full (((Session.mk log opened []).run calls).cut config).trees) := by
      intro state hstate
      simp [Watched.ofInner] at hstate
    have hall := hnone.writes ((hwrites.mono fun l hl => hl.mono hext).trans hwrites')
    intro state hstate
    obtain ⟨hkept, hne⟩ := hall state hstate
    have hlength := Nat.sub_add_cancel (List.length_pos_iff.2 hne)
    refine ⟨(contents state).length - 1, ?_, hkept, ?_⟩
    · rw [hlength, map_treeIndex_of_kept hkept]
    · rw [hlength, hkept.audit_eq hsynced.valid]
  · rintro n s rfl
    have hprefix := Session.extends_cut_run config ((Session.mk log opened []).run (calls.take n))
      (calls.drop n)
    rw [Session.run, Session.run, ← List.foldl_append, List.take_append_drop] at hprefix
    obtain ⟨hsynced, -⟩ := Session.run_synced (s := ⟨log, opened, []⟩) hopened (calls.take n)
      (hapart.mono hprefix)
    refine ⟨hsynced.follows, hsynced.kept, ?_, fun hpending => ?_⟩
    · rw [hsynced.length_eq, hsynced.follows.treeIndex_eq]
    · exact hsynced.getElem?_contents hpending

/-- An empty store that refuses two writes: that of the second event, and that of the next
tree when the first is full. -/
def refusing : Flaky Shelf :=
  { Flaky.ofInner Shelf.empty with
    refusal? := fun call => if call = 2 ∨ call = 6 then some Flaky.offline else none }

/-- The four events of a full tree, of which the second stays unwritten until the third, and
one for the next tree, which is refused and sent again. -/
def refusedCalls : List Call :=
  [.record 1 "", .record 2 "", .record 3 "", .record 4 "", .record 5 "x", .flush 6,
    .record 7 "x"]

def refusedLog : Log × Watched (Flaky Shelf) :=
  match start (Watched.ofInner refusing) ⟨1⟩ 0 with
  | (.ok log, store) => (log, store)
  | (.error _, store) => (blank ⟨1⟩, store)

theorem start_refusing : start (Watched.ofInner refusing) ⟨1⟩ 0 =
    (.ok refusedLog.1, refusedLog.2) := by
  have hok : (start (Watched.ofInner refusing) ⟨1⟩ 0).1.isOk = true := by decide +kernel
  rw [refusedLog]
  cases hstart : start (Watched.ofInner refusing) ⟨1⟩ 0 with
  | mk result store =>
      rw [hstart] at hok
      cases result with
      | ok log => rfl
      | error e => cases hok

theorem accepted_refusedCalls :
    ((Session.mk refusedLog.1 refusedLog.2 []).run refusedCalls).accepted = blanks := by
  decide +kernel

/-- Through both failures every state of the store passes the audit. -/
theorem kept_of_start_refusing :
    contents refusing = [] ∧
    start (Watched.ofInner refusing) ⟨1⟩ 0 = (.ok refusedLog.1, refusedLog.2) ∧
    Apart (((Session.mk refusedLog.1 refusedLog.2 []).run refusedCalls).cut ⟨1⟩).trees ∧
    ∀ state ∈ ((Session.mk refusedLog.1 refusedLog.2 []).run refusedCalls).store.seen,
      ∃ k, Chain.audit (contents state) = ⟨k + 1, []⟩ := by
  have hapart : Apart
      (((Session.mk refusedLog.1 refusedLog.2 []).run refusedCalls).cut ⟨1⟩).trees := by
    rw [Session.cut, accepted_refusedCalls]
    exact apart_blanks
  refine ⟨rfl, start_refusing, hapart, fun state hstate => ?_⟩
  have hkept := kept_of_start (show contents refusing = [] from rfl) start_refusing refusedCalls
    hapart
  obtain ⟨k, -, -, haudit⟩ := hkept.1 state hstate
  exact ⟨k, haudit⟩

end Log

end SealedLog
