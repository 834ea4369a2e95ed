import SealedLog.Proofs.Log.Session

/-!
# Crashes and recoveries

A site is a store with the log that runs over it, if one does, and its journal. Logs are
started, recovered and called in any order, the store fails whenever it likes, and any of
these may be cut off between two writes, which leaves a store and a journal but no log.

The journal has the payloads that the log accepted since it was started, then the payload of
a call that was cut off, since nobody knows whether it was accepted, and what a recovery is
given beyond. A log that is started anew has accepted nothing. `IsSane` says that the store
is one that a run over the journal could have left behind, which is what a recovery needs;
`recover_of_site` is that it then ends in the state of a log that never failed.
-/

namespace SealedLog

namespace Log

open Cut

/-- What is done at a site, with the time at which it is done. -/
inductive Action where
  | start (now : Nat)
  /-- The journal is replayed, with events that follow it. -/
  | recover (now : Nat) (further : List String)
  | call (c : Call)
deriving DecidableEq, Repr

/-- A store, the log that runs over it, and the journal. -/
structure Site (σ : Type) where
  log? : Option Log
  store : σ
  journal : List String

namespace Site

variable {σ : Type}

def ofStore (store : σ) : Site σ :=
  ⟨none, store, []⟩

/-- The journal while an action is in progress. -/
def inFlight (s : Site σ) : Action → List String
  | .start _ => s.journal
  | .recover _ further => s.journal ++ further
  | .call (.record _ payload) => if s.log?.isSome then s.journal ++ [payload] else s.journal
  | .call (.flush _) => s.journal

/-- The site with a store that remembers its states from now on. -/
def watched (s : Site σ) : Site (Watched σ) :=
  ⟨s.log?, Watched.ofInner s.store, s.journal⟩

variable [SnapshotStore σ]

/-- An action from beginning to end. One that fails to give a log leaves none. -/
def perform (config : LogConfig) (s : Site σ) : Action → Site σ
  | .start now =>
    match Log.start s.store config now with
    | (.ok log, store) => ⟨some log, store, []⟩
    | (.error _, store) => ⟨none, store, s.journal⟩
  | .recover now further =>
    match Log.recover s.store config now (s.journal ++ further) with
    | (.ok log, store) => ⟨some log, store, s.journal ++ further⟩
    | (.error _, store) => ⟨none, store, s.journal ++ further⟩
  | .call c =>
    match s.log? with
    | none => s
    | some log =>
      match (Session.mk log s.store s.journal).call c with
      | ⟨log, store, journal⟩ => ⟨some log, store, journal⟩

/-- An action that is cut off after so many writes, or after all of them if there are not as
many. -/
def interrupt (config : LogConfig) (s : Site σ) (action : Action) (writes : Nat) : Site σ :=
  let done := (s.watched.perform config action).store
  ⟨none, (s.store :: done.seen)[writes]?.getD done.inner, s.inFlight action⟩

/-- An action that may be cut off. -/
def step (config : LogConfig) (s : Site σ) : Action × Option Nat → Site σ
  | (action, none) => s.perform config action
  | (action, some writes) => s.interrupt config action writes

def run (config : LogConfig) (s : Site σ) (steps : List (Action × Option Nat)) : Site σ :=
  steps.foldl (step config) s

/-- The trees of the journal. -/
def cut (config : LogConfig) (s : Site σ) : Cut :=
  ofEvents config.maxLeavesPerTree s.journal

variable [LawfulStore σ] {config : LogConfig} {s : Site σ}

/-- The store is one that a run over the journal may leave behind, and a log that runs is in
step with it. -/
structure IsSane (config : LogConfig) (s : Site σ) : Prop where
  kept : Kept .byRoot (s.cut config).trees (contents s.store)
  synced : ∀ log ∈ s.log?, Synced .byRoot config (s.cut config) log (contents s.store)

theorem isSane_ofStore {store : σ} (h : contents store = []) :
    IsSane config (ofStore store) where
  kept := by
    change Kept _ _ (contents store)
    rw [h]
    exact kept_nil _ _
  synced := by simp [ofStore]

end Site

/-- What a run over a journal left behind, and is legitimate for the empty journal as well,
a run over the empty journal may leave behind. -/
theorem kept_empty_of_legitimate {T : List (List String)} {l : List Snapshot}
    (hkept : Kept .byRoot T l) (hlegitimate : Legitimate Cut.empty.trees l) :
    Kept .byRoot Cut.empty.trees l := by
  have hzero : ∀ {i : Nat} {t : Snapshot}, l[i]? = some t → i = 0 := by
    intro i t ht
    obtain ⟨bs, hbs, -⟩ := hlegitimate t (List.mem_of_getElem? ht)
    have hlt := hbs.lt_length
    rw [hkept.index ht] at hlt
    simpa [Cut.trees, Cut.empty] using hlt
  refine ⟨hkept.index, fun {i t} ht => ?_⟩
  obtain ⟨bs, hbs, hroot⟩ := hlegitimate t (List.mem_of_getElem? ht)
  rw [hkept.index ht] at hbs
  refine ⟨bs, hbs, hroot, fun hlt => ?_⟩
  have hnext := hzero (List.getElem?_eq_getElem hlt)
  omega

variable {σ : Type} [SnapshotStore σ] [LawfulStore σ]

omit [LawfulStore σ] in
/-- Where a snapshot is found and the only root it may have is the current one, nothing is
written. -/
theorem reconcile_unchanged {store : σ} {waiting : List Found} {produced : List Hash}
    {snapshot : Snapshot} (hfound : ∃ f ∈ waiting, f.treeIndex = snapshot.treeIndex)
    (hproduced : ∀ root ∈ produced, root = snapshot.rootHash) :
    Yields (fun next => next.1 = store) (fun e => e.2 = store)
      (reconcile store waiting produced snapshot) := by
  by_cases hall : ∀ f ∈ waiting, f.treeIndex = snapshot.treeIndex → f.root ∈ produced
  · obtain ⟨f, hf, hindex⟩ := hfound
    have hmem : f ∈ waiting.filter (·.treeIndex == snapshot.treeIndex) :=
      List.mem_filter.2 ⟨hf, by simpa using hindex⟩
    have houtdated : outdated
        ((waiting.filter (·.treeIndex == snapshot.treeIndex)).map Found.root)
          snapshot.rootHash = [] := by
      rw [outdated, if_neg, List.map_eq_nil_iff, List.filter_eq_nil_iff]
      · intro root hroot
        obtain ⟨g, hg, rfl⟩ := List.mem_map.1 hroot
        rw [List.mem_filter, beq_iff_eq] at hg
        simpa using hproduced _ (hall g hg.1 hg.2)
      · rw [List.isEmpty_iff, List.map_eq_nil_iff]
        exact List.ne_nil_of_mem hmem
    rw [reconcile_eq hall, houtdated]
    rfl
  · simp only [reconcile, List.partition_eq_filter_filter]
    split
    · rfl
    · next hnone =>
        refine absurd (fun f hf hindex => ?_) hall
        have hfound := List.find?_eq_none.1 hnone f.root
          (List.mem_map.2 ⟨f, List.mem_filter.2 ⟨hf, by simpa using hindex⟩, rfl⟩)
        simpa using hfound

/-- Starting a log on a store that has a snapshot of the first tree writes nothing. -/
theorem start_unchanged {store : σ} {s : Snapshot} (hs : s ∈ contents store)
    (hindex : s.treeIndex = 0) (config : LogConfig) (now : Nat) :
    (start store config now).2 = store := by
  have hcomp : Comparison (ofEvents config.maxLeavesPerTree []).trees now
      (fun k store' waiting => store' = store ∧ (k = 0 → found s ∈ waiting))
      (fun e => e.2 = store) := by
    refine ⟨?_, fun hI _ => hI.1⟩
    rintro k store' waiting produced bs ⟨rfl, hwaiting⟩ hk hbs hproduced
    have hlt := (List.getElem?_eq_some_iff.1 hk).1
    obtain rfl : k = 0 := by simpa [Cut.trees, Cut.empty] using hlt
    obtain rfl : bs = [] := by simpa [Cut.trees, Cut.empty, eq_comm] using hk
    have hyields : Yields (fun next => next.1 = store') (fun e => e.2 = store')
        (reconcile store' waiting produced (Batch.snapshot [] 0 now)) := by
      refine reconcile_unchanged ⟨found s, hwaiting rfl, hindex⟩ fun root hroot => ?_
      obtain ⟨cs, ⟨⟨ds, hds, hpre⟩, -⟩, rfl⟩ := (hproduced root).1 hroot
      obtain rfl : ds = [] := by simpa [Cut.trees, Cut.empty, eq_comm] using hds
      rw [List.prefix_nil.1 hpre]
      rfl
    cases hresult : reconcile store' waiting produced (Batch.snapshot [] 0 now) with
    | ok next =>
        rw [hresult] at hyields
        exact ⟨hyields, fun h => by cases h⟩
    | error e =>
        rw [hresult] at hyields
        exact hyields
  have hresult := recover_yields [] hcomp store
    (yields_load store (fun _ hperm => ⟨rfl, fun _ => List.mem_map_of_mem (hperm.mem_iff.2 hs)⟩)
      fun _ _ => rfl)
  rcases hresult with ⟨log, store', waiting, hrecover, -, ⟨rfl, -⟩, -⟩ | ⟨e, store', hrecover, hQ⟩
  · rw [start, hrecover]
  · rw [start, hrecover]
    exact hQ

theorem extends_ofEvents_nil (maxLeaves : Nat) (events : List String) :
    Extends (ofEvents maxLeaves []).trees (ofEvents maxLeaves events).trees :=
  extends_ofEvents maxLeaves List.nil_prefix

/-- Starting a log on a store that some run left behind: if it succeeds the log is in step
with the store, and in any case the store is one that the run may leave behind. -/
theorem start_of_kept {store : σ} {config : LogConfig} {events : List String}
    (hkept : Kept .byRoot (ofEvents config.maxLeavesPerTree events).trees (contents store))
    (now : Nat) :
    ∃ result store', start store config now = (result, store') ∧
      Writes (Kept .byRoot (ofEvents config.maxLeavesPerTree events).trees) store store' ∧
      ∀ log, result = .ok log →
        Synced .byRoot config (ofEvents config.maxLeavesPerTree []) log (contents store') := by
  have hmend := fun h : Kept .byRoot (ofEvents config.maxLeavesPerTree []).trees
      (contents store) =>
    recover_mended h apart_empty (fun _ hroot => hroot) now
  by_cases hempty : contents store = []
  · have hnil : Kept .byRoot (ofEvents config.maxLeavesPerTree []).trees (contents store) := by
      rw [hempty]
      exact kept_nil _ _
    have hext := extends_ofEvents_nil config.maxLeavesPerTree events
    rcases hmend hnil with
      ⟨log, store', hrecover, hsynced, -, hwrites⟩ | ⟨reason, store', hrecover, -, hwrites⟩
    · refine ⟨_, store', hrecover, hwrites.mono fun l hl => hl.mono hext, ?_⟩
      rintro _ ⟨⟩
      exact hsynced
    · refine ⟨_, store', hrecover, hwrites.mono fun l hl => hl.mono hext, ?_⟩
      rintro _ ⟨⟩
  · obtain ⟨s, rest, hs⟩ := List.exists_cons_of_ne_nil hempty
    have hfirst : (contents store)[0]? = some s := by rw [hs, List.getElem?_cons_zero]
    have hunchanged :=
      start_unchanged (List.mem_of_getElem? hfirst) (hkept.index hfirst) config now
    refine ⟨_, store, Prod.ext rfl hunchanged, .refl store, fun log hlog => ?_⟩
    have hrecover : recover store config now [] = (.ok log, store) := Prod.ext hlog hunchanged
    have hnil := kept_empty_of_legitimate hkept (recovered_of_recover hrecover).2
    rcases hmend hnil with ⟨_, _, hrecover', hsynced, -, -⟩ | ⟨_, _, hrecover', -, -⟩
    · rw [hrecover] at hrecover'
      cases hrecover'
      exact hsynced
    · rw [hrecover] at hrecover'
      cases hrecover'

omit [LawfulStore σ] in
/-- A call accepts at most the payload it is about. -/
theorem Session.accepted_call_le (s : Session σ) (c : Call) :
    (s.call c).accepted <+: Site.inFlight ⟨some s.log, s.store, s.accepted⟩ (.call c) := by
  cases c with
  | record now payload =>
      rw [Session.call]
      split
      next outcome log store heq =>
        cases Log.accepted outcome with
        | true => exact List.prefix_refl _
        | false => exact List.prefix_append _ _
  | flush now => exact List.prefix_refl _

namespace Site

variable {config : LogConfig} {s : Site σ}

omit [LawfulStore σ] in
theorem journal_recover (config : LogConfig) (s : Site σ) (now : Nat) (further : List String) :
    (s.perform config (.recover now further)).journal = s.journal ++ further := by
  rw [perform]
  split <;> rfl

/-- An action keeps a site sane, and on the way the store is one that the action may leave
behind if it is cut off. -/
theorem IsSane.perform (h : IsSane config s) (action : Action)
    (hnext : Apart ((s.perform config action).cut config).trees) :
    IsSane config (s.perform config action) ∧
      Writes (Kept .byRoot (ofEvents config.maxLeavesPerTree (s.inFlight action)).trees) s.store
        (s.perform config action).store := by
  cases action with
  | start now =>
      obtain ⟨result, store', hstart, hwrites, hsynced⟩ := start_of_kept h.kept now
      simp only [Site.perform, hstart]
      cases result with
      | ok log =>
          have hlog := hsynced log rfl
          refine ⟨⟨hlog.kept, ?_⟩, hwrites⟩
          rintro _ ⟨⟩
          exact hlog
      | error e => exact ⟨⟨hwrites.contents h.kept, by simp⟩, hwrites⟩
  | recover now further =>
      rw [Site.cut, journal_recover] at hnext
      have hext := extends_ofEvents config.maxLeavesPerTree
        (List.prefix_append s.journal further)
      rcases recover_mended (h.kept.mono hext) hnext (fun _ hroot => hroot) now with
        ⟨log, store', hrecover, hsynced, -, hwrites⟩ | ⟨reason, store', hrecover, -, hwrites⟩
      · simp only [Site.perform, hrecover]
        refine ⟨⟨hsynced.kept, ?_⟩, hwrites⟩
        rintro _ ⟨⟩
        exact hsynced
      · simp only [Site.perform, hrecover]
        exact ⟨⟨hwrites.contents (h.kept.mono hext), by simp⟩, hwrites⟩
  | call c =>
      obtain ⟨log?, store, journal⟩ := s
      cases log? with
      | none => exact ⟨h, .refl _⟩
      | some log =>
          have hsynced := h.synced log rfl
          obtain ⟨hsynced', hwrites⟩ :=
            Session.call_synced (s := ⟨log, store, journal⟩) hsynced c hnext
          have hext := extends_ofEvents config.maxLeavesPerTree
            (Session.accepted_call_le ⟨log, store, journal⟩ c)
          refine ⟨⟨hsynced'.kept, ?_⟩, hwrites.mono fun l hl => hl.1.mono hext⟩
          rintro _ ⟨⟩
          exact hsynced'

omit [LawfulStore σ] in
/-- No action leaves more in the journal than it has in flight. -/
theorem journal_perform_le (config : LogConfig) (s : Site σ) (action : Action) :
    (s.perform config action).journal <+: s.inFlight action := by
  cases action with
  | start now =>
      rw [Site.perform]
      split
      · exact List.nil_prefix
      · exact List.prefix_refl _
  | recover now further =>
      rw [journal_recover]
      exact List.prefix_refl _
  | call c =>
      obtain ⟨log?, store, journal⟩ := s
      cases log? with
      | none => cases c <;> exact List.prefix_refl _
      | some log => exact Session.accepted_call_le ⟨log, store, journal⟩ c

omit [SnapshotStore σ] [LawfulStore σ] in
/-- What is in the journal stays there while an action is in progress. -/
theorem prefix_inFlight (s : Site σ) (action : Action) : s.journal <+: s.inFlight action := by
  cases action with
  | start now => exact List.prefix_refl _
  | recover now further => exact List.prefix_append _ _
  | call c =>
      cases c with
      | record now payload =>
          rw [inFlight]
          split
          · exact List.prefix_append _ _
          · exact List.prefix_refl _
      | flush now => exact List.prefix_refl _

/-- So does an action that is cut off, wherever that is. -/
theorem IsSane.interrupt (h : IsSane config s) (action : Action) (writes : Nat)
    (hnext : Apart ((s.interrupt config action writes).cut config).trees) :
    IsSane config (s.interrupt config action writes) := by
  have hwatched : IsSane config s.watched := ⟨h.kept, h.synced⟩
  have hle : (s.watched.perform config action).journal <+: s.inFlight action :=
    journal_perform_le config s.watched action
  obtain ⟨-, hwrites⟩ := hwatched.perform action (hnext.mono (extends_ofEvents _ hle))
  have hstart : Kept .byRoot (ofEvents config.maxLeavesPerTree (s.inFlight action)).trees
      (contents s.store) :=
    h.kept.mono (extends_ofEvents _ (s.prefix_inFlight action))
  have hall : (Watched.ofInner s.store).All
      (Kept .byRoot (ofEvents config.maxLeavesPerTree (s.inFlight action)).trees) := by
    intro state hstate
    simp [Watched.ofInner] at hstate
  refine ⟨?_, by simp [Site.interrupt]⟩
  change Kept .byRoot (ofEvents config.maxLeavesPerTree (s.inFlight action)).trees
    (contents ((s.store :: (s.watched.perform config action).store.seen)[writes]?.getD
      (s.watched.perform config action).store.inner))
  cases hstate : (s.store :: (s.watched.perform config action).store.seen)[writes]? with
  | none => exact hwrites.contents hstart
  | some state =>
      rcases List.mem_cons.1 (List.mem_of_getElem? hstate) with rfl | hseen
      · exact hstart
      · exact hall.writes hwrites state hseen

theorem IsSane.step (h : IsSane config s) (next : Action × Option Nat)
    (hnext : Apart ((s.step config next).cut config).trees) :
    IsSane config (s.step config next) := by
  obtain ⟨action, cut?⟩ := next
  cases cut? with
  | none => exact (h.perform action hnext).1
  | some writes => exact h.interrupt action writes hnext

/-- Whatever is done at a site, and wherever it is cut off, the site stays sane. -/
theorem IsSane.run (h : IsSane config s) (steps : List (Action × Option Nat))
    (hapart : ∀ n, Apart ((s.run config (steps.take n)).cut config).trees) :
    IsSane config (s.run config steps) := by
  induction steps generalizing s with
  | nil => exact h
  | cons next steps ih =>
      have hfirst := hapart 1
      rw [List.take_succ_cons, List.take_zero] at hfirst
      refine ih (h.step next hfirst) fun n => ?_
      have hn := hapart (n + 1)
      rwa [List.take_succ_cons] at hn

end Site

/-- The log that records events one after the other on a store that never fails. -/
def fresh (config : LogConfig) (now : Nat) (events : List String) :
    Except LogError (Session Shelf) :=
  match start Shelf.empty config now with
  | (.ok log, store) => .ok ((Session.mk log store []).run (events.map (Call.record now)))
  | (.error e, _) => .error e

theorem exists_start (config : LogConfig) (now : Nat) :
    ∃ log opened, start Shelf.empty config now = (.ok log, opened) ∧
      Synced .byRoot config (ofEvents config.maxLeavesPerTree []) log (contents opened) ∧
      log.pendingWrite = false := by
  have hnil : Kept .byRoot (ofEvents config.maxLeavesPerTree []).trees (contents Shelf.empty) :=
    kept_nil _ _
  rcases recover_mended hnil apart_empty (fun _ hroot => hroot) now with
    ⟨log, opened, hstart, hsynced, hwritten, -⟩ | ⟨_, _, _, hfailing, -⟩
  · exact ⟨log, opened, hstart, hsynced, hwritten⟩
  · exact absurd (reliable_shelf Shelf.empty) hfailing

theorem fresh_eq_ok {config : LogConfig} {events : List String}
    (hapart : Apart (ofEvents config.maxLeavesPerTree events).trees) (now : Nat) :
    ∃ done, fresh config now events = .ok done ∧ done.accepted = events ∧
      done.log.pendingWrite = false ∧
      Synced .byRoot config (ofEvents config.maxLeavesPerTree events) done.log
        (contents done.store) := by
  obtain ⟨log, opened, hstart, hsynced, hwritten⟩ := exists_start config now
  obtain ⟨haccepted, hpending⟩ := Session.run_record_of_reliable (s := ⟨log, opened, []⟩)
    hsynced.follows (reliable_shelf opened) hwritten events now
  have hcut : Apart (((Session.mk log opened []).run
      (events.map (Call.record now))).cut config).trees := by
    rw [Session.cut, haccepted]
    exact hapart
  have hrun := (Session.run_synced (s := ⟨log, opened, []⟩) hsynced
    (events.map (Call.record now)) hcut).1
  rw [Session.cut, haccepted] at hrun
  refine ⟨_, ?_, haccepted, hpending, hrun⟩
  rw [fresh, hstart]

theorem Synced.recordedRoots_eq {L : Likeness} {config : LogConfig} {c : Cut} {log : Log}
    {l : List Snapshot} (h : Synced L config c log l) (hwritten : log.pendingWrite = false) :
    Chain.recordedRoots l = c.trees.zipIdx.map fun (bs, i) => (i, Batch.root bs) := by
  apply List.ext_getElem?
  intro i
  rw [Chain.recordedRoots, List.getElem?_map, List.getElem?_map, List.getElem?_zipIdx]
  have hlength := h.length_eq
  rw [← length_trees] at hlength
  by_cases hi : i < l.length
  · have hs := List.getElem?_eq_getElem hi
    obtain ⟨bs, hbs, hlike⟩ : ∃ bs, c.trees[i]? = some bs ∧ L.holds l[i] bs := by
      by_cases hlast : i + 1 < l.length
      · obtain ⟨bs, -, hlike, hfinal⟩ := h.kept.state hs
        exact ⟨bs, hfinal hlast, hlike⟩
      · obtain rfl : i = c.closed.length := by
          rw [length_trees] at hlength
          omega
        exact ⟨c.current, getElem?_trees_length c, h.written hwritten _ hs⟩
    rw [hs, hbs, Option.map_some, Option.map_some, Option.map_some, h.kept.index hs,
      L.root_eq hlike, Nat.zero_add]
  · rw [List.getElem?_eq_none (by omega), List.getElem?_eq_none (by omega)]
    rfl

/-- After anything that was done at a site and wherever it was cut off, a recovery from the
journal, on a store that does not fail any more, succeeds. It ends in the log and the roots
in the store that a fresh log comes to that records the same events without a failure. -/
theorem recover_of_site {τ : Type} [SnapshotStore τ] [LawfulStore τ] {config : LogConfig}
    {store : σ} (hempty : contents store = []) (steps : List (Action × Option Nat))
    (further : List String)
    (hapart : ∀ n, Apart (((Site.ofStore store).run config (steps.take n)).cut config).trees)
    (hfinal : Apart (ofEvents config.maxLeavesPerTree
      (((Site.ofStore store).run config steps).journal ++ further)).trees)
    {healed : τ} (hcontents : contents healed =
      contents ((Site.ofStore store).run config steps).store)
    (hreliable : Reliable healed) (now now' : Nat) :
    ∃ log store' done,
      recover healed config now (((Site.ofStore store).run config steps).journal ++ further) =
        (.ok log, store') ∧
      fresh config now' (((Site.ofStore store).run config steps).journal ++ further) = .ok done ∧
      done.accepted = ((Site.ofStore store).run config steps).journal ++ further ∧
      log.tree.leafBlocks = done.log.tree.leafBlocks ∧
      log.tree.levelHashes = done.log.tree.levelHashes ∧
      log.treeIndex = done.log.treeIndex ∧
      log.history.sealedTrees = done.log.history.sealedTrees ∧
      Chain.recordedRoots (contents store') = Chain.recordedRoots (contents done.store) := by
  have hsane := (Site.isSane_ofStore hempty).run steps hapart
  have hext := extends_ofEvents config.maxLeavesPerTree
    (List.prefix_append ((Site.ofStore store).run config steps).journal further)
  have hkept := hsane.kept.mono hext
  rw [← hcontents] at hkept
  obtain ⟨done, hfresh, haccepted, hpending, hdone⟩ := fresh_eq_ok hfinal now'
  rcases recover_mended hkept hfinal (fun _ hroot => hroot) now with
    ⟨log, store', hrecover, hsynced, hwritten, -⟩ | ⟨_, _, _, hfailing, -⟩
  · refine ⟨log, store', done, hrecover, hfresh, haccepted, ?_, ?_, ?_, ?_, ?_⟩
    · rw [hsynced.follows.holds.leafBlocks_eq, hdone.follows.holds.leafBlocks_eq]
    · rw [hsynced.follows.holds.levelHashes_eq, hdone.follows.holds.levelHashes_eq]
    · rw [hsynced.follows.treeIndex_eq, hdone.follows.treeIndex_eq]
    · rw [hsynced.follows.sealedTrees_eq, hdone.follows.sealedTrees_eq]
    · rw [hsynced.recordedRoots_eq hwritten, hdone.recordedRoots_eq hpending]
  · exact absurd hreliable hfailing

/-- Three events, of which the second stays unwritten and the third is cut off between the
write of the second and its own. -/
def brokenOff : List (Action × Option Nat) :=
  [(.start 0, none), (.call (.record 1 ""), none), (.call (.record 2 ""), none),
    (.call (.record 3 ""), some 1)]

theorem journal_brokenOff (n : Nat) :
    ((Site.ofStore refusing).run ⟨1⟩ (brokenOff.take n)).journal <+: blanks := by
  match n with
  | 0 => decide +kernel
  | 1 => decide +kernel
  | 2 => decide +kernel
  | 3 => decide +kernel
  | n + 4 =>
      rw [List.take_of_length_le (by simp [brokenOff])]
      decide +kernel

/-- The journal of the three events, and two that come after them, bring the log back. -/
theorem recover_of_site_brokenOff :
    ∃ log store', recover ((Site.ofStore refusing).run ⟨1⟩ brokenOff).store.heal ⟨1⟩ 4 blanks =
      (.ok log, store') := by
  have hjournal : ((Site.ofStore refusing).run ⟨1⟩ brokenOff).journal ++ ["", "x"] = blanks := by
    decide +kernel
  have hrecover := recover_of_site (show contents refusing = [] from rfl) brokenOff ["", "x"]
    (fun n => apart_blanks.mono (extends_ofEvents 1 (journal_brokenOff n)))
    (by rw [hjournal]; exact apart_blanks)
    (Flaky.contents_heal ((Site.ofStore refusing).run ⟨1⟩ brokenOff).store)
    (.heal (reliable_shelf _)) 4 5
  rw [hjournal] at hrecover
  obtain ⟨log, store', _, hok, -⟩ := hrecover
  exact ⟨log, store', hok⟩

end Log

end SealedLog
