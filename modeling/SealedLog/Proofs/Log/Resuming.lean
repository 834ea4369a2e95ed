import SealedLog.Proofs.Log.Restoring

/-!
# Recoveries that are interrupted

A store may fail in the middle of a recovery, when some trees have been written, and of the one
at hand only some of the snapshots that are out of date. What such an attempt leaves behind is
`Partway`: of each tree the store has what it had before, or, if that was not up to date, the
snapshot of the tree is among what it has. This is all that the next attempt needs. It comes to
the log that an attempt without a failure comes to, and to the same snapshots but for the times
at which they were written, however many attempts were interrupted before (`recover_resumed`).
After that there is nothing left to write (`Settled`).
-/

namespace SealedLog

open Cut

/-- The snapshot without the time at which it was written. -/
def Snapshot.undated (s : Snapshot) : Snapshot :=
  { s with updatedAt := 0 }

theorem undated_snapshot (bs : List String) (i now now' : Nat) :
    (Batch.snapshot bs i now).undated = (Batch.snapshot bs i now').undated := rfl

theorem Keyed.nodup_undated {l : List Snapshot} (h : Keyed l) : (l.map Snapshot.undated).Nodup := by
  refine List.Nodup.of_map Snapshot.rootHash ?_
  rw [List.map_map]
  exact h

namespace Log

/-! ### The log of a replay -/

/-- The log behind a full tree. -/
def leaveFull (log : Log) : Except StructuralError Log :=
  if log.tree.isFull then log.sealTree.map Prod.fst else .ok log

/-- What an event does to the log of a replay, whatever the store. -/
def replayLog (log : Log) (payload : String) : Except StructuralError Log := do
  let log ← leaveFull log
  let tree ← log.tree.append payload
  return { log with tree }

section Logs

variable {σ τ : Type} [SnapshotStore σ] [SnapshotStore τ] {now now' : Nat}

theorem leaveFull_of_rollOver {r r' : Replay σ} (h : r.rollOver now = .ok r') :
    leaveFull r.log = .ok r'.log := by
  rw [Replay.rollOver] at h
  rw [leaveFull]
  split at h
  next hfull =>
    rw [if_pos hfull]
    split at h
    · cases h
    next next sealedTree hseal =>
      rw [hseal]
      cases hreconcile : reconcile r.store r.waiting r.produced (r.log.snapshot now) with
      | error e => simp [hreconcile, bind, Except.bind] at h
      | ok done =>
          simp only [hreconcile, bind, Except.bind, pure, Except.pure] at h
          cases h
          rfl
  next hroom =>
    rw [if_neg hroom]
    cases h
    rfl

theorem replayLog_of_step {r r' : Replay σ} {payload : String}
    (h : r.step now payload = .ok r') : replayLog r.log payload = .ok r'.log := by
  rw [Replay.step] at h
  rw [replayLog]
  cases hroll : r.rollOver now with
  | error e => simp [hroll, bind, Except.bind] at h
  | ok r₁ =>
      simp only [hroll, leaveFull_of_rollOver hroll, bind, Except.bind] at h ⊢
      cases happend : r₁.log.tree.append payload with
      | error e => simp [happend] at h
      | ok tree =>
          simp only [happend, pure, Except.pure] at h ⊢
          cases h
          rfl

theorem replayLog_of_foldlM {events : List String} {r r' : Replay σ}
    (h : events.foldlM (Replay.step now) r = .ok r') :
    events.foldlM replayLog r.log = .ok r'.log := by
  induction events generalizing r with
  | nil =>
      cases h
      rfl
  | cons payload events ih =>
      rw [List.foldlM_cons] at h ⊢
      cases hstep : r.step now payload with
      | error e => simp [hstep, bind, Except.bind] at h
      | ok r₁ =>
          rw [hstep] at h
          rw [replayLog_of_step hstep]
          exact ih h

/-- The log of a recovery is that of its events. -/
theorem replayLog_of_recover {store store' : σ} {config : LogConfig} {events : List String}
    {log : Log} (h : recover store config now events = (.ok log, store')) :
    ∃ last, events.foldlM replayLog (blank config) = .ok last ∧
      log = { last with persistedRoot? := some last.rootHash } := by
  rw [recover] at h
  cases hload : SnapshotStore.load store with
  | error e => simp [hload] at h
  | ok found =>
      simp only [hload] at h
      cases hreplay : events.foldlM (Replay.step now) (.start store config found) with
      | error e => simp [hreplay, bind, Except.bind] at h
      | ok r =>
          refine ⟨r.log, replayLog_of_foldlM hreplay, ?_⟩
          simp only [hreplay, bind, Except.bind, Replay.finish] at h
          cases hreconcile : reconcile r.store r.waiting r.produced (r.log.snapshot now) with
          | error e => simp [hreconcile] at h
          | ok done =>
              simp only [hreconcile] at h
              cases hsurplus : surplus? done.2 with
              | some e => simp [hsurplus] at h
              | none =>
                  cases hcheck : r.log.tree.checkStructure with
                  | error e => simp [hsurplus, hcheck] at h
                  | ok _ =>
                      simp only [hsurplus, hcheck, pure, Except.pure, Prod.mk.injEq,
                        Except.ok.injEq] at h
                      exact h.1.symm

/-- Recoveries of the same events give the same log, whatever the stores. -/
theorem log_eq_of_recover {store store₁ : σ} {other other₁ : τ} {config : LogConfig}
    {events : List String} {log log' : Log}
    (h : recover store config now events = (.ok log, store₁))
    (h' : recover other config now' events = (.ok log', other₁)) : log = log' := by
  obtain ⟨last, hlast, rfl⟩ := replayLog_of_recover h
  obtain ⟨last', hlast', rfl⟩ := replayLog_of_recover h'
  rw [hlast, Except.ok.injEq] at hlast'
  rw [hlast']

end Logs

/-! ### On the way -/

/-- The store held `l₀` before some attempts to bring it up to date, and holds `l` now. -/
structure Partway (T : List (List String)) (l₀ l : List Snapshot) : Prop where
  keyed : Keyed l
  legitimate : Legitimate T l
  place : ∀ i, (∀ s, s.treeIndex = i → (s ∈ l ↔ s ∈ l₀)) ∨
    ¬ UpToDate T l₀ i ∧ ∃ bs now, T[i]? = some bs ∧ Batch.snapshot bs i now ∈ l

section Partway

variable {T : List (List String)} {l₀ l l' : List Snapshot} {k now now' : Nat} {s s' : Snapshot}
  {bs : List String}

theorem partway_refl (hkeyed : Keyed l) (hlegitimate : Legitimate T l) : Partway T l l where
  keyed := hkeyed
  legitimate := hlegitimate
  place _ := Or.inl fun _ _ => Iff.rfl

/-- The order in which a store has its snapshots does not matter. -/
theorem Partway.perm (h : Partway T l₀ l) (hperm : l'.Perm l) : Partway T l₀ l' where
  keyed := (hperm.map Snapshot.rootHash).nodup_iff.2 h.keyed
  legitimate s hs := h.legitimate s (hperm.mem_iff.1 hs)
  place i := by
    simp only [hperm.mem_iff]
    exact h.place i

theorem upToDate_congr {i : Nat} (hsame : ∀ s, s.treeIndex = i → (s ∈ l ↔ s ∈ l')) :
    UpToDate T l i ↔ UpToDate T l' i := by
  have hall : ∀ root : Hash, (∀ s ∈ l, s.treeIndex = i → s.rootHash = root) ↔
      ∀ s ∈ l', s.treeIndex = i → s.rootHash = root := fun root =>
    ⟨fun h s hs hi => h s ((hsame s hi).2 hs) hi, fun h s hs hi => h s ((hsame s hi).1 hs) hi⟩
  have hsome : (∃ s ∈ l, s.treeIndex = i) ↔ ∃ s ∈ l', s.treeIndex = i :=
    exists_congr fun s => and_congr_left fun hi => hsame s hi
  simp only [UpToDate, hall, hsome]

theorem Partway.trans (h : Partway T l₀ l) (h' : Partway T l l') : Partway T l₀ l' where
  keyed := h'.keyed
  legitimate := h'.legitimate
  place i := by
    rcases h'.place i with hsame' | ⟨hstale', hwritten'⟩
    · rcases h.place i with hsame | ⟨hstale, bs, now, hbs, hmem⟩
      · exact Or.inl fun s hi => (hsame' s hi).trans (hsame s hi)
      · exact Or.inr ⟨hstale, bs, now, hbs, (hsame' _ rfl).2 hmem⟩
    · rcases h.place i with hsame | ⟨hstale, -⟩
      · exact Or.inr ⟨fun hcurrent => hstale' ((upToDate_congr hsame).2 hcurrent), hwritten'⟩
      · exact Or.inr ⟨hstale, hwritten'⟩

/-- One write for a tree that was not up to date, in place of a root that the tree went through.
Snapshots of other trees have other roots. -/
theorem Partway.replace (h : Partway T l₀ l) (hapart : Apart T)
    (hT : ∀ {i : Nat} {bs : List String}, T[i]? = some bs → StateOf T i bs)
    (hk : T[k]? = some bs) (hstale : ¬ UpToDate T l₀ k) {old? : Option Hash}
    (hold : ∀ root, old? = some root → ∃ cs, StateOf T k cs ∧ root = Batch.root cs) (now : Nat) :
    Partway T l₀ (Shelf.replace ⟨l⟩ old? (Batch.snapshot bs k now)).snapshots := by
  have hother : ∀ s, s.treeIndex ≠ k →
      (s ∈ (Shelf.replace ⟨l⟩ old? (Batch.snapshot bs k now)).snapshots ↔ s ∈ l) := by
    intro s hindex
    have hroot : ∀ {cs : List String}, s ∈ l → StateOf T k cs → s.rootHash ≠ Batch.root cs := by
      intro cs hs hcs heq
      obtain ⟨ds, hds, hsame⟩ := h.legitimate s hs
      exact hindex (hapart _ _ ds cs hds hcs (by rw [← hsame, heq]))
    rw [mem_replace_iff]
    constructor
    · rintro (rfl | ⟨hs, -⟩)
      · exact absurd rfl hindex
      · exact hs
    · intro hs
      refine Or.inr ⟨hs, hroot hs (hT hk), fun hsome => ?_⟩
      obtain ⟨cs, hcs, heq⟩ := hold _ hsome.symm
      exact hroot hs hcs heq
  refine ⟨h.keyed.replace old? _, fun s hs => ?_, fun i => ?_⟩
  · rcases mem_replace_iff.1 hs with rfl | ⟨hs, -⟩
    · exact ⟨bs, hT hk, rfl⟩
    · exact h.legitimate s hs
  · by_cases hi : i = k
    · subst hi
      exact Or.inr ⟨hstale, bs, now, hk, mem_replace_iff.2 (Or.inl rfl)⟩
    · rcases h.place i with hsame | ⟨hstale, cs, now', hcs, hmem⟩
      · refine Or.inl fun s hindex => ?_
        rw [hother s (by rwa [hindex]), hsame s hindex]
      · exact Or.inr ⟨hstale, cs, now', hcs, (hother _ hi).2 hmem⟩

/-- Of every tree a snapshot is restored. -/
theorem exists_restores (l : List Snapshot) (now : Nat) {i : Nat} (hbs : T[i]? = some bs) :
    ∃ s, Restores T l now s ∧ s.treeIndex = i := by
  by_cases hcurrent : UpToDate T l i
  · obtain ⟨-, -, ⟨s, hs, rfl⟩, -⟩ := id hcurrent
    exact ⟨s, (restores_iff_mem hbs hcurrent).2 hs, rfl⟩
  · exact ⟨Batch.snapshot bs i now, (restores_iff_eq hbs hcurrent).2 rfl, rfl⟩

theorem upToDate_of_restores (hmem : ∀ s, s ∈ l' ↔ Restores T l now s) {i : Nat}
    (hbs : T[i]? = some bs) : UpToDate T l' i := by
  obtain ⟨s, hs, hindex⟩ := exists_restores l now hbs
  refine ⟨bs, hbs, ⟨s, (hmem s).2 hs, hindex⟩, fun t ht htindex => ?_⟩
  exact ((hmem t).1 ht).rootHash_eq (by rw [htindex, hbs])

/-- What is restored over the one store and over the other differs in its time at most. -/
theorem Partway.undated_eq (h : Partway T l₀ l) (hkeyed : Keyed l₀) (hs : Restores T l₀ now s)
    (hs' : Restores T l now' s') (hindex : s.treeIndex = s'.treeIndex) :
    s.undated = s'.undated := by
  obtain ⟨bs, hbs, -⟩ := id hs
  have hbs' := hindex ▸ hbs
  have hroot := hs.rootHash_eq hbs
  have hroot' := hs'.rootHash_eq hbs'
  rcases h.place s.treeIndex with hsame | ⟨hstale, cs, now₁, hcs, hmem⟩
  · have hcurrent := upToDate_congr (T := T) hsame
    by_cases hup : UpToDate T l₀ s.treeIndex
    · have hold := (restores_iff_mem hbs hup).1 hs
      have hold' := (restores_iff_mem hbs' (hindex ▸ hcurrent.2 hup)).1 hs'
      rw [hkeyed.eq_of_rootHash_eq hold ((hsame s' hindex.symm).1 hold') (by rw [hroot, hroot'])]
    · rw [(restores_iff_eq hbs hup).1 hs,
        (restores_iff_eq hbs' (hindex ▸ fun hup' => hup (hcurrent.1 hup'))).1 hs', hindex]
      exact undated_snapshot bs s'.treeIndex now now'
  · obtain rfl : bs = cs := Option.some.inj (hbs.symm.trans hcs)
    rw [(restores_iff_eq hbs hstale).1 hs]
    by_cases hup : UpToDate T l s'.treeIndex
    · -- the next attempt found the tree as one before had written it
      have hfound := (restores_iff_mem hbs' hup).1 hs'
      rw [h.keyed.eq_of_rootHash_eq hfound hmem hroot']
      exact undated_snapshot bs s.treeIndex now now₁
    · rw [(restores_iff_eq hbs' hup).1 hs', hindex]
      exact undated_snapshot bs s'.treeIndex now now'

end Partway

section Stores

variable {σ : Type} [SnapshotStore σ] [LawfulStore σ] {store store₀ store' : σ}
  {T : List (List String)} {l₀ : List Snapshot} {k : Nat} {bs : List String}

/-- However many of the writes for a tree go through. -/
theorem Partway.replaceEach_yields (h : Partway T l₀ (contents store)) (hapart : Apart T)
    (hT : ∀ {i : Nat} {bs : List String}, T[i]? = some bs → StateOf T i bs)
    (hk : T[k]? = some bs) {olds : List (Option Hash)} (hstale : olds ≠ [] → ¬ UpToDate T l₀ k)
    (hold : ∀ root, some root ∈ olds → ∃ cs, StateOf T k cs ∧ root = Batch.root cs) (now : Nat) :
    Yields (fun store' => Partway T l₀ (contents store')) (fun e => Partway T l₀ (contents e.2))
      (replaceEach store (Batch.snapshot bs k now) olds) := by
  induction olds generalizing store with
  | nil => exact h
  | cons old? rest ih =>
      have hnext :
          Partway T l₀ (Shelf.replace ⟨contents store⟩ old? (Batch.snapshot bs k now)).snapshots :=
        h.replace hapart hT hk (hstale (List.cons_ne_nil old? rest))
          (fun root hroot => hold root (by rw [hroot]; exact List.mem_cons_self)) now
      rw [replaceEach]
      rcases replace_cases store old? (Batch.snapshot bs k now) with
        ⟨store₁, hreplace, hcontents⟩ | ⟨e, store₁, hreplace, hcontents⟩
      · simp only [hreplace]
        exact ih (by rwa [hcontents]) (fun _ => hstale (List.cons_ne_nil old? rest))
          fun root hroot => hold root (List.mem_cons_of_mem old? hroot)
      · simp only [hreplace, Yields]
        rwa [hcontents]

/-- The comparison over legitimate snapshots, which may be broken off anywhere. -/
theorem comparison_partway (hlegitimate : Legitimate T (contents store₀)) (hapart : Apart T)
    (hT : ∀ {i : Nat} {bs : List String}, T[i]? = some bs → StateOf T i bs) (now : Nat) :
    Comparison T now
      (fun k (store : σ) waiting => Waits (contents store₀) k waiting ∧
        Partway T (contents store₀) (contents store))
      (fun e => Partway T (contents store₀) (contents e.2)) where
  step {k store waiting produced bs} hI hk hbs hproduced := by
    obtain ⟨hwaits, hpartway⟩ := hI
    rw [hwaits.reconcile_eq store (hproduced.mem_of_legitimate hlegitimate)]
    refine (hpartway.replaceEach_yields hapart hT hk ?_ ?_ now).bind
      fun store' hstore' => ⟨hwaits.later, hstore'⟩
    · exact fun hne hcurrent =>
        hne ((outdated_eq_nil_iff_upToDate hk fun root => hwaits.mem_roots_iff).2 hcurrent)
    · intro root hroot
      obtain ⟨s, hs, hindex, rfl⟩ := hwaits.mem_roots_iff.1 (some_mem_outdated_iff.1 hroot).1
      obtain ⟨cs, hcs, heq⟩ := hlegitimate s hs
      exact ⟨cs, by rwa [hindex] at hcs, heq⟩
  surplus hI _ := hI.2

/-- However a recovery over legitimate snapshots ends. -/
theorem partway_of_recover {config : LogConfig} {now : Nat} {events : List String}
    {result : Except LogError Log} (hkeyed : Keyed (contents store))
    (hlegitimate : Legitimate (ofEvents config.maxLeavesPerTree events).trees (contents store))
    (hapart : Apart (ofEvents config.maxLeavesPerTree events).trees)
    (h : recover store config now events = (result, store')) :
    Partway (ofEvents config.maxLeavesPerTree events).trees (contents store) (contents store') := by
  have hvalid := valid_ofEvents config.maxLeavesPerTree events
  have hrefl := partway_refl hkeyed hlegitimate
  have hresult := recover_yields events
    (comparison_partway hlegitimate hapart hvalid.stateOf now) store
    (yields_load store (fun _ hperm => ⟨waits_zero hperm, hrefl⟩) fun _ _ => hrefl)
  rcases hresult with ⟨_, _, _, hrecover, -, ⟨-, hpartway⟩, -⟩ | ⟨_, _, hrecover, hpartway⟩
  · rw [h] at hrecover
    cases hrecover
    exact hpartway
  · rw [h] at hrecover
    cases hrecover
    exact hpartway

end Stores

/-- What a store that held `l₀` may hold after recoveries of the events that were all
interrupted, each by a failure of the store. An attempt may find what the last one left in
another order. -/
inductive Attempts (config : LogConfig) (events : List String) (l₀ : List Snapshot) :
    List Snapshot → Prop
  | none : Attempts config events l₀ l₀
  | interrupted {σ : Type} [SnapshotStore σ] [LawfulStore σ] {store store' : σ} {now : Nat}
      {recorded : Bool} {receipt? : Option Receipt} {source : StoreError} {l : List Snapshot}
      (before : Attempts config events l₀ l) (reordered : (contents store).Perm l)
      (failure : recover store config now events =
        (.error (.persistence recorded receipt? source), store')) :
      Attempts config events l₀ (contents store')

/-- A recovery of the events over any store that holds the snapshots, listed in any order, gives
the log and leaves the store untouched, be it one that counts its writes or refuses them. -/
def Settled (config : LogConfig) (events : List String) (log : Log) (l : List Snapshot) : Prop :=
  ∀ {σ : Type} [SnapshotStore σ] [LawfulStore σ] (store : σ) (now : Nat)
    {listed : List Snapshot}, listed.Perm l → SnapshotStore.load store = .ok listed →
      recover store config now events = (.ok log, store)

variable {config : LogConfig} {now : Nat} {events : List String} {log : Log}
  {l₀ l : List Snapshot}

theorem partway_of_attempts (hkeyed : Keyed l₀)
    (hlegitimate : Legitimate (ofEvents config.maxLeavesPerTree events).trees l₀)
    (hapart : Apart (ofEvents config.maxLeavesPerTree events).trees)
    (h : Attempts config events l₀ l) :
    Partway (ofEvents config.maxLeavesPerTree events).trees l₀ l := by
  induction h with
  | none => exact partway_refl hkeyed hlegitimate
  | interrupted before reordered failure ih =>
      have hfound := ih.perm reordered
      exact hfound.trans (partway_of_recover hfound.keyed hfound.legitimate hapart failure)

section Stores

variable {σ : Type} [SnapshotStore σ] [LawfulStore σ]

/-- The comparison where all trees are up to date writes nothing. -/
theorem comparison_settled {T : List (List String)} {store₀ : σ}
    (hlegitimate : Legitimate T (contents store₀))
    (hcurrent : ∀ {i : Nat} {bs : List String}, T[i]? = some bs → UpToDate T (contents store₀) i)
    (now : Nat) :
    Comparison T now
      (fun k (store : σ) waiting => Waits (contents store₀) k waiting ∧ store = store₀)
      (fun _ => False) where
  step {k store waiting produced bs} hI hk hbs hproduced := by
    obtain ⟨hwaits, rfl⟩ := hI
    rw [hwaits.reconcile_eq store (hproduced.mem_of_legitimate hlegitimate),
      (outdated_eq_nil_iff_upToDate hk fun root => hwaits.mem_roots_iff).2 (hcurrent hk)]
    exact ⟨hwaits.later, rfl⟩
  surplus {store waiting e} hI hsurplus := by
    obtain ⟨hwaits, rfl⟩ := hI
    obtain ⟨f, hf⟩ := List.exists_mem_of_ne_nil _ (exists_surplus? hsurplus).1
    obtain ⟨s, hs, hle, -⟩ := hwaits.mem_iff.1 hf
    obtain ⟨cs, hcs, -⟩ := hlegitimate s hs
    exact Nat.not_lt.2 hle hcs.lt_length

theorem settled_of_recover {store store' : σ} (hkeyed : Keyed (contents store))
    (hapart : Apart (ofEvents config.maxLeavesPerTree events).trees)
    (h : recover store config now events = (.ok log, store')) :
    Settled config events log (contents store') := by
  intro τ _ _ again now' listed hperm hload
  obtain ⟨-, hlegitimate⟩ := recovered_of_recover h
  obtain ⟨-, hmem⟩ := restored_of_recover hkeyed hapart h
  have hpartway := partway_of_recover hkeyed hlegitimate hapart h
  have hlisted := LawfulStore.load_ok hload
  have hsame : ∀ s, s ∈ contents again ↔ s ∈ contents store' := fun s =>
    hlisted.symm.mem_iff.trans hperm.mem_iff
  have hagain : Legitimate (ofEvents config.maxLeavesPerTree events).trees (contents again) :=
    fun s hs => hpartway.legitimate s ((hsame s).1 hs)
  have hcomp := comparison_settled hagain (fun {i bs} hbs =>
    (upToDate_congr fun s _ => hsame s).2 (upToDate_of_restores hmem hbs)) now'
  have hresult := recover_yields events hcomp again (by
    rw [hload]
    exact ⟨waits_zero hlisted, rfl⟩)
  rcases hresult with ⟨log', _, _, hrecover, -, ⟨-, rfl⟩, -⟩ | ⟨_, _, -, hfalse⟩
  · rw [hrecover, log_eq_of_recover h hrecover]
  · exact hfalse.elim

/-- The recovery of some events over a store, where roots of different trees differ, and any
number of attempts over stores that hold what that one held, each interrupted by a failure and
the next one over what the last one left, in any order. The first attempt that the store does
not fail in comes to the log of the undisturbed recovery, and to the same snapshots but for
their times. After either there is nothing left to write. -/
theorem recover_resumed {store store' : σ} (hkeyed : Keyed (contents store))
    (hapart : Apart (ofEvents config.maxLeavesPerTree events).trees)
    (h : recover store config now events = (.ok log, store')) :
    Settled config events log (contents store') ∧
    ∀ {l : List Snapshot}, Attempts config events (contents store) l →
      ∀ {τ : Type} [SnapshotStore τ] [LawfulStore τ] (healed : τ) (now' : Nat),
        (contents healed).Perm l → Reliable healed →
        ∃ healed', recover healed config now' events = (.ok log, healed') ∧
          ((contents healed').map Snapshot.undated).Perm
            ((contents store').map Snapshot.undated) ∧
          Settled config events log (contents healed') := by
  refine ⟨settled_of_recover hkeyed hapart h, ?_⟩
  intro l hattempts τ _ _ healed now' hperm hreliable
  obtain ⟨-, hlegitimate⟩ := recovered_of_recover h
  have hpartway := (partway_of_attempts hkeyed hlegitimate hapart hattempts).perm hperm
  obtain ⟨log', healed', hrecover⟩ :=
    exists_recover_of_legitimate hreliable config now' hpartway.legitimate
  obtain rfl := log_eq_of_recover h hrecover
  obtain ⟨hkeyed', hmem⟩ := restored_of_recover hkeyed hapart h
  obtain ⟨hkeyed'', hmem'⟩ := restored_of_recover hpartway.keyed hapart hrecover
  refine ⟨healed', hrecover, ?_, settled_of_recover hpartway.keyed hapart hrecover⟩
  rw [List.perm_ext_iff_of_nodup hkeyed''.nodup_undated hkeyed'.nodup_undated]
  intro u
  simp only [List.mem_map]
  constructor
  · rintro ⟨s', hs', rfl⟩
    have hrestores' := (hmem' s').1 hs'
    obtain ⟨bs, hbs, -⟩ := id hrestores'
    obtain ⟨s, hs, hindex⟩ := exists_restores (contents store) now hbs
    exact ⟨s, (hmem s).2 hs, hpartway.undated_eq hkeyed hs hrestores' hindex⟩
  · rintro ⟨s, hs, rfl⟩
    have hrestores := (hmem s).1 hs
    obtain ⟨bs, hbs, -⟩ := id hrestores
    obtain ⟨s', hs', hindex⟩ := exists_restores (contents healed) now' hbs
    exact ⟨s', (hmem' s').2 hs', (hpartway.undated_eq hkeyed hrestores hs' hindex.symm).symm⟩

end Stores

/-- A store that refuses its second write. -/
def faltering : Flaky Shelf :=
  { Flaky.ofInner Shelf.empty with
    refusal? := fun call => if call = 1 then some Flaky.offline else none }

/-- Of the two trees of the blanks the first is written and the second refused. -/
theorem exists_interrupted_faltering : ∃ recorded receipt? source store',
    recover faltering ⟨1⟩ 0 blanks = (.error (.persistence recorded receipt? source), store') ∧
      (contents store').length = 1 := by
  have hfails : (recover faltering ⟨1⟩ 0 blanks).1.isOk = false := by decide +kernel
  have hlength : (contents (recover faltering ⟨1⟩ 0 blanks).2).length = 1 := by decide +kernel
  rcases recover_cases faltering ⟨1⟩ 0 blanks with
    ⟨_, _, hrecover, -⟩ | ⟨source, store', hrecover, -⟩ | ⟨_, _, _, -, hillegitimate⟩
  · rw [hrecover] at hfails
    cases hfails
  · rw [hrecover] at hlength
    exact ⟨false, none, source, store', hrecover, hlength⟩
  · exact absurd (fun s hs => absurd hs List.not_mem_nil) hillegitimate

/-- A store that refuses all writes. -/
def shut (l : List Snapshot) : Flaky Shelf :=
  (Flaky.ofInner ⟨l⟩).failAfter 0

/-- When the store does not refuse any more, the recovery of the blanks is taken up. After that
another one succeeds even if every write is refused and what is there is listed backwards. -/
theorem recover_resumed_faltering :
    Keyed (contents Shelf.empty) ∧ Apart (ofEvents (LogConfig.mk 1).maxLeavesPerTree blanks).trees ∧
    ∃ log shelf, recover Shelf.empty ⟨1⟩ 0 blanks = (.ok log, shelf) ∧
      ∃ recorded receipt? source store', recover faltering ⟨1⟩ 0 blanks =
          (.error (.persistence recorded receipt? source), store') ∧
        (contents store').length = 1 ∧
        ∃ healed', recover store'.heal ⟨1⟩ 7 blanks = (.ok log, healed') ∧
          ((contents healed').map Snapshot.undated).Perm
            ((contents shelf).map Snapshot.undated) ∧
          recover (shut (contents healed').reverse) ⟨1⟩ 8 blanks =
            (.ok log, shut (contents healed').reverse) := by
  have hkeyed : Keyed (contents Shelf.empty) := List.nodup_nil
  obtain ⟨log, shelf, h⟩ : ∃ log shelf, recover Shelf.empty ⟨1⟩ 0 blanks = (.ok log, shelf) :=
    exists_recover_of_legitimate (reliable_shelf Shelf.empty) ⟨1⟩ 0 fun s hs =>
      absurd hs List.not_mem_nil
  obtain ⟨recorded, receipt?, source, store', hfailure, hlength⟩ := exists_interrupted_faltering
  have hbefore : Attempts ⟨1⟩ blanks (contents Shelf.empty) (contents faltering) := .none
  have hattempts : Attempts ⟨1⟩ blanks (contents Shelf.empty) (contents store') :=
    hbefore.interrupted (.refl _) hfailure
  have hreliable : Reliable store'.heal := (reliable_shelf store'.inner).heal
  obtain ⟨-, hall⟩ := recover_resumed hkeyed apart_blanks h
  obtain ⟨healed', hrecover, hperm, hsettled⟩ :=
    hall hattempts store'.heal 7 (.of_eq (Flaky.contents_heal store')) hreliable
  exact ⟨hkeyed, apart_blanks, log, shelf, h, recorded, receipt?, source, store', hfailure,
    hlength, healed', hrecover, hperm,
    hsettled (shut (contents healed').reverse) 8 (List.reverse_perm _) rfl⟩

end Log

end SealedLog
