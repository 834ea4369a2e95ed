import SealedLog.Proofs.Log.Genesis

/-!
# What a log reports

Two things about recording an event that hold over any store, also one that is left in another
state by a write that fails. Whatever the log, an event that is in its tree is reported with a
receipt, and the report says whether a write is due: `record_reported`. And a log that holds
the events of a cut has added the event if it reports so, and is otherwise as it was but for
what it knows of its store: `Follows.exists_added`, `Follows.sameEvents_of_refused`.
-/

namespace SealedLog

namespace Log

open Cut

/-- What recording an event can come to, and what that says of the write. -/
inductive Reported : Except LogError Receipt → Log → Prop
  | written {receipt : Receipt} {log' : Log} (pendingWrite_eq : log'.pendingWrite = false) :
      Reported (.ok receipt) log'
  | unwritten {receipt : Receipt} {e : StoreError} {log' : Log}
      (pendingWrite_eq : log'.pendingWrite = true) :
      Reported (.error (.persistence true (some receipt) e)) log'
  | notRecorded {e : StoreError} {log' : Log} : Reported (.error (.notRecorded e)) log'
  | structural {e : StructuralError} {log' : Log} : Reported (.error (.ofStructural e)) log'

/-- The log has the same events in the same trees. What it knows of its store may differ. -/
structure SameEvents (log log' : Log) : Prop where
  config_eq : log'.config = log.config
  tree_eq : log'.tree = log.tree
  treeIndex_eq : log'.treeIndex = log.treeIndex
  history_eq : log'.history = log.history

theorem SameEvents.refl (log : Log) : log.SameEvents log :=
  ⟨rfl, rfl, rfl, rfl⟩

/-- An event that was added makes a difference. -/
theorem SameEvents.not_added {log log' : Log} (h : log.SameEvents log') {payload : String}
    {sealedTree? : Option SealedTree} : ¬ Added log payload log' sealedTree? := by
  intro hadded
  cases hadded with
  | grown _ _ _ hblocks =>
      rw [h.tree_eq] at hblocks
      have hlength := congrArg List.length hblocks
      rw [List.length_append, List.length_singleton] at hlength
      omega
  | opened _ hindex =>
      rw [h.treeIndex_eq] at hindex
      omega

section Recording

variable {σ : Type} [SnapshotStore σ] {config : LogConfig} {c : Cut} {log : Log}

theorem appendEvent_reported (log : Log) (store : σ) (now : Nat) (payload : String)
    (sealedTree? : Option SealedTree) :
    Reported (log.appendEvent store now payload sealedTree?).1
      (log.appendEvent store now payload sealedTree?).2.1 := by
  cases happend : log.tree.append payload with
  | error e =>
      simp only [appendEvent, happend]
      exact .structural
  | ok tree =>
      simp only [appendEvent, happend, persist]
      split
      next hwrite =>
        split at hwrite <;> cases hwrite
        exact .written rfl
      next hwrite =>
        split at hwrite <;> cases hwrite
        exact .unwritten rfl

/-- A rollover that fails was refused, or the next tree could not be built. -/
theorem reported_of_rollOver {e : LogError} {log' : Log} {store store' : σ} {now : Nat}
    (h : log.rollOver store now = (.error e, log', store')) : Reported (.error e) log' := by
  rw [rollOver] at h
  split at h
  · split at h
    · cases h
      exact .structural
    · split at h
      · cases h
      · cases h
        exact .notRecorded
  · cases h

/-- Whatever the log and the store, an event that is in the tree is reported with a receipt. -/
theorem record_reported (log : Log) (store : σ) (now : Nat) (payload : String) :
    Reported (log.record store now payload).1 (log.record store now payload).2.1 := by
  rcases hretry : log.retry store now with ⟨_ | _, log₁, store₁⟩
  · simp only [record, hretry]
    exact .notRecorded
  · rcases hrollOver : log₁.rollOver store₁ now with ⟨_ | _, log₂, store₂⟩
    · simp only [record, hretry, hrollOver]
      exact reported_of_rollOver hrollOver
    · simp only [record, hretry, hrollOver]
      exact appendEvent_reported log₂ store₂ now payload _

theorem retry_sameEvents (log : Log) (store : σ) (now : Nat) :
    log.SameEvents (log.retry store now).2.1 := by
  rw [retry]
  split
  · rw [persist]
    split <;> exact ⟨rfl, rfl, rfl, rfl⟩
  · exact .refl log

/-- An event that was added to the cut was added to the log. -/
theorem Follows.exists_added {log' : Log} {payload : String} (h : log.Follows config c)
    (hc : c.Valid config.maxLeavesPerTree)
    (h' : log'.Follows config (c.add config.maxLeavesPerTree payload)) :
    ∃ sealedTree?, Added log payload log' sealedTree? := by
  by_cases hfull : capacity config.maxLeavesPerTree ≤ c.current.length
  · rw [add, roll_of_le hfull] at h'
    exact ⟨_, h.added_next ((h.isFull_iff hc).2 hfull) h'⟩
  · have hroom : log.tree.isFull = false :=
      Bool.eq_false_iff.2 fun hf => hfull ((h.isFull_iff hc).1 hf)
    rw [add, roll_of_lt (Nat.lt_of_not_le hfull)] at h'
    exact ⟨_, h.added_push hroom h'⟩

theorem Follows.sameEvents_of_refused (h : log.Follows config c)
    (hc : c.Valid config.maxLeavesPerTree) (store : σ) (now : Nat) (payload : String)
    (hrefused : accepted (log.record store now payload).1 = false) :
    log.SameEvents (log.record store now payload).2.1 := by
  have hsame := retry_sameEvents log store now
  have h₁ := h.retry_follows store now
  rcases hretry : log.retry store now with ⟨_ | _, log₁, store₁⟩ <;> rw [hretry] at hsame h₁
  · simp only [record, hretry]
    exact hsame
  · rcases h₁.rollOver_follows hc (retry_pendingWrite hretry) store₁ now with
      ⟨sealedTree?, log₂, store₂, hrollOver, h₂⟩ | ⟨e, store₂, hrollOver⟩
    · simp only [record, hretry, hrollOver] at hrefused
      rw [accepted_appendEvent h₂] at hrefused
      cases hrefused
    · simp only [record, hretry, hrollOver]
      exact hsame

end Recording

end Log

end SealedLog
