import SealedLog.Proofs.Chain.Binding
import SealedLog.Proofs.Log.Chaining
import SealedLog.Proofs.Log.Refusal

/-!
# Recovery from a rewritten journal

A recovery that succeeds over the store of a run has gone through a state with the root of the
run's current tree, if that was written: `Filed` says it was, unless a write is pending. What the
journal of the recovery then has in common with the events of the run is what that root binds,
which is less than all of them. Two events of a leaf can be replaced by one, and with events that
read like hashes a level of events by a level of hashes; short of a collision, that is all, and
events that delimit themselves cannot be replaced at all.
-/

namespace SealedLog

namespace Log

open Cut Digest

variable {σ : Type} [SnapshotStore σ] [LawfulStore σ]

/-- Unless a write is pending, there is a snapshot with the root of the current tree. -/
def Filed (log : Log) (l : List Snapshot) : Prop :=
  log.pendingWrite = false → ∃ s ∈ l, s.treeIndex = log.treeIndex ∧ s.rootHash = log.rootHash

theorem persist_filed (log : Log) (store : σ) (now : Nat) :
    ∃ result log' store', log.persist store now = (result, log', store') ∧
      Filed log' (contents store') := by
  rcases persist_cases log store now with
    ⟨store', -, hpersist, hcontents⟩ | ⟨e, store', -, hpersist, -⟩
  · refine ⟨_, _, store', hpersist, fun _ => ⟨log.snapshot now, ?_, rfl, rfl⟩⟩
    rw [hcontents]
    exact mem_replace_iff.2 (Or.inl rfl)
  · exact ⟨_, _, store', hpersist, fun h => by cases h⟩

variable {log : Log} {store : σ}

theorem Filed.retry (h : Filed log (contents store)) (now : Nat) :
    ∃ result log' store', log.retry store now = (result, log', store') ∧
      Filed log' (contents store') := by
  rw [Log.retry]
  split
  · exact persist_filed log store now
  · exact ⟨_, log, store, rfl, h⟩

theorem Filed.of_rollsOver {config : LogConfig} {c : Cut} (h : Filed log (contents store))
    {now : Nat} {result : Except LogError (Option SealedTree)} {log' : Log} {store' : σ}
    (hcase : RollsOver config c log store now result log' store') :
    Filed log' (contents store') := by
  cases hcase with
  | kept => exact h
  | @opened next _ _ _ hwrite =>
      refine fun _ => ⟨next.snapshot now, ?_, rfl, rfl⟩
      rw [LawfulStore.replace_ok hwrite]
      exact mem_replace_iff.2 (Or.inl rfl)
  | refused hfailed => rwa [LawfulStore.replace_error hfailed]

theorem Filed.appendEvent (h : Filed log (contents store)) (now : Nat) (payload : String)
    (sealedTree? : Option SealedTree) :
    ∃ result log' store', log.appendEvent store now payload sealedTree? =
        (result, log', store') ∧ Filed log' (contents store') := by
  rw [Log.appendEvent]
  cases log.tree.append payload with
  | error e => exact ⟨_, log, store, rfl, h⟩
  | ok tree =>
      obtain ⟨result, log', store', hpersist, hfiled⟩ := persist_filed { log with tree } store now
      simp only [hpersist]
      cases result with
      | ok _ => exact ⟨_, log', store', rfl, hfiled⟩
      | error e => exact ⟨_, log', store', rfl, hfiled⟩

theorem Filed.record {config : LogConfig} {c : Cut} (h : Filed log (contents store))
    (hsound : Sound config c log (contents store)) (now : Nat) (payload : String) :
    ∃ result log' store', log.record store now payload = (result, log', store') ∧
      Filed log' (contents store') := by
  obtain ⟨result₁, log₁, store₁, hretry, h₁⟩ := h.retry now
  obtain ⟨_, _, _, hretry', hsound₁⟩ := hsound.retry_sound now
  rw [hretry] at hretry'
  cases hretry'
  cases result₁ with
  | error e =>
      exact ⟨.error (.notRecorded e), log₁, store₁, by simp only [Log.record, hretry], h₁⟩
  | ok _ =>
      obtain ⟨result₂, log₂, store₂, hrollOver, hcase⟩ :=
        hsound₁.follows.rollsOver (retry_pendingWrite hretry) store₁ now
      have h₂ := h₁.of_rollsOver hcase
      cases result₂ with
      | error e =>
          exact ⟨.error e, log₂, store₂, by simp only [Log.record, hretry, hrollOver], h₂⟩
      | ok sealedTree? =>
          obtain ⟨result, log', store', happend, h'⟩ := h₂.appendEvent now payload sealedTree?
          exact ⟨result, log', store', by simp only [Log.record, hretry, hrollOver, happend], h'⟩

variable {config : LogConfig}

/-- The log of a session follows its events, and its store is filed. -/
structure Session.InOrder (config : LogConfig) (s : Session σ) : Prop where
  sound : Sound config (s.cut config) s.log (contents s.store)
  filed : Filed s.log (contents s.store)

theorem Session.InOrder.call {s : Session σ} (h : s.InOrder config) (call : Call) :
    (s.call call).InOrder config := by
  cases call with
  | record now payload =>
      obtain ⟨_, log', store', hrecord, hcases⟩ := h.sound.record_sound payload now
      obtain ⟨_, _, _, hrecord', hfiled⟩ := h.filed.record h.sound now payload
      rw [hrecord] at hrecord'
      cases hrecord'
      rcases hcases with ⟨⟨receipt, rfl⟩ | ⟨receipt, e, rfl⟩, hsound⟩ | ⟨⟨e, rfl⟩, hsound⟩
      · simp only [Session.call, hrecord, Log.accepted, if_true]
        exact ⟨by rwa [Session.cut, ofEvents_concat], hfiled⟩
      · simp only [Session.call, hrecord, Log.accepted, if_true]
        exact ⟨by rwa [Session.cut, ofEvents_concat], hfiled⟩
      · simp only [Session.call, hrecord]
        exact ⟨hsound, hfiled⟩
  | flush now =>
      obtain ⟨result, log', store', hretry, hsound⟩ := h.sound.retry_sound now
      obtain ⟨_, _, _, hretry', hfiled⟩ := h.filed.retry now
      rw [hretry] at hretry'
      cases hretry'
      cases result with
      | ok _ =>
          simp only [Session.call, flush, hretry]
          exact ⟨hsound, hfiled⟩
      | error e =>
          simp only [Session.call, flush, hretry]
          exact ⟨hsound, hfiled⟩

theorem Session.InOrder.run {s : Session σ} (h : s.InOrder config) (calls : List Call) :
    (s.run calls).InOrder config := by
  induction calls generalizing s with
  | nil => exact h
  | cons call calls ih => exact ih (h.call call)

/-- A log that was started on an empty store is in order. -/
theorem inOrder_of_start {opened : σ} {now : Nat} (hempty : contents store = [])
    (hstart : start store config now = (.ok log, opened)) :
    (Session.mk log opened []).InOrder config := by
  obtain ⟨hsynced, -⟩ := start_synced hempty hstart
  refine ⟨hsynced.toBacked.sound, fun hwritten => ?_⟩
  obtain ⟨written, hs⟩ := hsynced.getElem?_contents hwritten
  exact ⟨_, List.mem_of_getElem? hs, rfl, rfl⟩

/-- A journal that a recovery accepts over the store of a run, once nothing is pending, agrees
with the events that the run accepted in what the root of the current tree binds, or a text that
was hashed in the run collides with one that was hashed in the replay. If events do not look
like hashes then the leaves agree, and if they delimit themselves then the journal begins with
the events of the run. -/
theorem agrees_or_collide_of_recover {τ : Type} [SnapshotStore τ] [LawfulStore τ] {opened : σ}
    {now : Nat} (hempty : contents store = [])
    (hstart : start store config now = (.ok log, opened)) (calls : List Call)
    (hwritten : ((Session.mk log opened []).run calls).log.pendingWrite = false) {healed : τ}
    (hcontents : (contents healed).Perm (contents ((Session.mk log opened []).run calls).store))
    {now' : Nat} {events : List String} {log' : Log} {store' : τ}
    (hrecover : recover healed config now' events = (.ok log', store')) :
    (∃ bs, Agrees (((Session.mk log opened []).run calls).cut config)
        (ofEvents config.maxLeavesPerTree events) bs ∧
      (Plain (((Session.mk log opened []).run calls).accepted ++ events) →
        SameLeaves (((Session.mk log opened []).run calls).cut config)
          (ofEvents config.maxLeavesPerTree events) bs) ∧
      (Delimited (((Session.mk log opened []).run calls).accepted ++ events) →
        ((Session.mk log opened []).run calls).accepted <+: events)) ∨
    Collide (hashedTexts (((Session.mk log opened []).run calls).cut config).trees)
      (hashedTexts (ofEvents config.maxLeavesPerTree events).trees) := by
  obtain ⟨hsound, hfiled⟩ := (inOrder_of_start hempty hstart).run calls
  obtain ⟨s, hs, hindex, hroot⟩ := hfiled hwritten
  obtain ⟨bs, hbs, heq⟩ := (recovered_of_recover hrecover).2 s (hcontents.mem_iff.2 hs)
  rw [hindex, hsound.follows.treeIndex_eq] at hbs
  rw [hroot, hsound.follows.rootHash_eq] at heq
  rcases hsound.valid.agrees_or_collide (valid_ofEvents config.maxLeavesPerTree events) hbs heq
    with hagrees | hcol
  · exact Or.inl ⟨bs, hagrees, hagrees.sameLeaves_of_plain, hagrees.prefix_of_delimited⟩
  · exact Or.inr hcol

theorem exists_start_of_fresh {now : Nat} {events : List String} {done : Session Shelf}
    (h : fresh config now events = .ok done) :
    ∃ log opened, start Shelf.empty config now = (.ok log, opened) ∧
      (Session.mk log opened []).run (events.map (Call.record now)) = done := by
  rw [fresh] at h
  cases hstart : start Shelf.empty config now with
  | mk result opened =>
      rw [hstart] at h
      cases result with
      | ok log => exact ⟨log, opened, rfl, Except.ok.inj h⟩
      | error e => cases h

/-- Five events, four of which fill a tree of one leaf. -/
def fiveEvents : List String :=
  ["u", "v", "w", "x", "y"]

theorem delimited_fiveEvents : Delimited (fiveEvents ++ (fiveEvents ++ ["z"])) := by
  refine ⟨fun e he => ?_, by decide⟩
  have hall : ∀ e ∈ fiveEvents ++ (fiveEvents ++ ["z"]),
      (e.toList.head?.any fun first => first ∉ Hex.digits) = true := by decide
  obtain ⟨first, hfirst, hdigit⟩ := (Option.any_eq_true _ _).1 (hall e he)
  exact ⟨first, hfirst, of_decide_eq_true hdigit⟩

/-- A run that seals a tree, and then a journal that has one more event. -/
theorem agrees_or_collide_of_recover_longer :
    ∃ (log : Log) (opened : Shelf), start Shelf.empty ⟨1⟩ 0 = (.ok log, opened) ∧
      ((Session.mk log opened []).run (fiveEvents.map (Call.record 0))).accepted = fiveEvents ∧
      ((Session.mk log opened []).run (fiveEvents.map (Call.record 0))).log.treeIndex = 1 ∧
      ((∃ bs, Agrees (ofEvents 1 fiveEvents) (ofEvents 1 (fiveEvents ++ ["z"])) bs ∧
          SameLeaves (ofEvents 1 fiveEvents) (ofEvents 1 (fiveEvents ++ ["z"])) bs) ∨
        Collide (hashedTexts (ofEvents 1 fiveEvents).trees)
          (hashedTexts (ofEvents 1 (fiveEvents ++ ["z"])).trees)) := by
  obtain ⟨log, opened, hstart, hsynced, hwritten⟩ := exists_start ⟨1⟩ 0
  obtain ⟨haccepted, hpending⟩ := Session.run_record_of_reliable (s := ⟨log, opened, []⟩)
    hsynced.follows (reliable_shelf opened) hwritten fiveEvents 0
  obtain ⟨hsound, -⟩ := (inOrder_of_start rfl hstart).run (fiveEvents.map (Call.record 0))
  have hfollows := hsound.follows
  have hlegitimate := hsound.legitimate
  rw [Session.cut, haccepted] at hfollows hlegitimate
  obtain ⟨log', store', hrecover⟩ := exists_recover_of_legitimate (reliable_shelf _) ⟨1⟩ 1
    (hlegitimate.mono (extends_ofEvents 1 (List.prefix_append fiveEvents ["z"])))
  refine ⟨log, opened, hstart, haccepted, hfollows.treeIndex_eq, ?_⟩
  have hresult := agrees_or_collide_of_recover rfl hstart (fiveEvents.map (Call.record 0)) hpending
    (.refl _) hrecover
  rw [Session.cut, haccepted] at hresult
  rcases hresult with ⟨bs, hagrees, hleaves, -⟩ | hcol
  · exact Or.inl ⟨bs, hagrees, hleaves delimited_fiveEvents.plain⟩
  · exact Or.inr hcol

theorem mem_of_mem_hashedTexts {t : String}
    (ht : t ∈ hashedTexts [["a", "b"]] ++ hashedTexts [["ab"]]) : t ∈ ["", "a", "ab"] := by
  have hone : Batch.texts ["a"] = [["a"]] := Batch.texts_of_length_le (by decide)
  have htwo : Batch.texts ["a", "b"] = [["ab"]] := Batch.texts_of_length_le (by decide)
  have hab : Batch.texts ["ab"] = [["ab"]] := Batch.texts_of_length_le (by decide)
  simp [hashedTexts, hone, htwo, hab] at ht
  rcases ht with rfl | rfl | rfl | rfl | rfl <;> decide

/-- A journal need not begin with the events of the run: `"a"` and `"b"` can be replaced by
`"ab"`, and no two of the texts that are hashed collide. -/
theorem not_prefix_or_collide_of_recover :
    ¬ ∀ (store opened store' : Shelf) (config : LogConfig) (now now' : Nat) (log log' : Log)
      (calls : List Call) (events : List String), contents store = [] →
      start store config now = (.ok log, opened) →
      ((Session.mk log opened []).run calls).log.pendingWrite = false →
      recover ((Session.mk log opened []).run calls).store config now' events =
        (.ok log', store') →
      ((Session.mk log opened []).run calls).accepted <+: events ∨
        Collide (hashedTexts (((Session.mk log opened []).run calls).cut config).trees ++
            hashedTexts (ofEvents config.maxLeavesPerTree events).trees)
          (hashedTexts (((Session.mk log opened []).run calls).cut config).trees ++
            hashedTexts (ofEvents config.maxLeavesPerTree events).trees) := by
  intro h
  have hapart : Apart (ofEvents (LogConfig.mk 1).maxLeavesPerTree ["a", "b"]).trees :=
    apart_of_length_le_one (Nat.le_refl 1)
  obtain ⟨done, hfresh, haccepted, hwritten, hsynced⟩ := fresh_eq_ok hapart 0
  obtain ⟨log, opened, hstart, rfl⟩ := exists_start_of_fresh hfresh
  have hroot : Batch.root ["a", "b"] = Batch.root ["ab"] := by
    rw [Batch.root, Batch.root, Batch.rootText_of_length_le (by decide),
      Batch.rootText_of_length_le (by decide)]
    rfl
  have hlegitimate : Legitimate (ofEvents 1 ["ab"]).trees
      (contents ((Session.mk log opened []).run (["a", "b"].map (Call.record 0))).store) := by
    have hroots := hsynced.recordedRoots_eq hwritten
    intro s hs
    have hmem : (s.treeIndex, s.rootHash) ∈ [(0, Batch.root ["a", "b"])] := by
      have hpair := List.mem_map_of_mem (f := fun s => (s.treeIndex, s.rootHash)) hs
      rwa [← Chain.recordedRoots, hroots] at hpair
    rw [List.mem_singleton, Prod.mk.injEq] at hmem
    refine ⟨["ab"], ⟨⟨["ab"], ?_, List.prefix_refl _⟩, fun _ => by simp⟩, ?_⟩
    · rw [hmem.1]
      rfl
    · rw [hmem.2, hroot]
  obtain ⟨log', store', hrecover⟩ :=
    exists_recover_of_legitimate (reliable_shelf _) ⟨1⟩ 1 hlegitimate
  rcases h _ _ _ _ _ _ _ _ _ _ rfl hstart hwritten hrecover with
    hbegins | ⟨t, ht, u, hu, hne, heq⟩
  · rw [haccepted] at hbegins
    exact absurd hbegins (by decide)
  · rw [Session.cut, haccepted] at ht hu
    have hdistinct := List.inj_on_of_nodup_map Chain.nodup_map_ofText
    exact hne (hdistinct (mem_of_mem_hashedTexts ht) (mem_of_mem_hashedTexts hu) heq)

end Log

end SealedLog
