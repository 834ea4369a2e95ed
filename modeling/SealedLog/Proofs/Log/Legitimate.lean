import SealedLog.Log.Record
import SealedLog.Proofs.Log.Following
import SealedLog.Proofs.Store.Lawful
import SealedLog.Proofs.Store.Shelf

/-!
# Legitimate snapshots

A snapshot is legitimate if its root is one that the tree of its index went through. This is
all a recovery asks of a snapshot, and it takes less to keep than the order of a store: no
write puts in a snapshot of anything but a state of the log, and what is lost in a write, if
two roots are the same, is not missed. So nothing about roots is assumed here.
-/

namespace SealedLog

open Cut

/-- Each snapshot has the root of a state of the tree of its index. -/
def Legitimate (T : List (List String)) (l : List Snapshot) : Prop :=
  ∀ s ∈ l, ∃ bs, StateOf T s.treeIndex bs ∧ s.rootHash = Batch.root bs

theorem Legitimate.mono {S T : List (List String)} {l : List Snapshot} (h : Legitimate S l)
    (hext : Extends S T) : Legitimate T l := by
  intro s hs
  obtain ⟨bs, hbs, hroot⟩ := h s hs
  exact ⟨bs, hbs.mono hext, hroot⟩

section Stores

variable {σ : Type} [SnapshotStore σ] [LawfulStore σ]

theorem mem_contents_of_replace {store store' : σ} {old? : Option Hash} {s t : Snapshot}
    {result : Except StoreError Unit}
    (h : SnapshotStore.replace store old? s = (result, store')) (ht : t ∈ contents store') :
    t = s ∨ t ∈ contents store := by
  cases result with
  | ok _ =>
      rw [LawfulStore.replace_ok h] at ht
      exact (mem_replace_iff.1 ht).imp_right And.left
  | error e =>
      rw [LawfulStore.replace_error h] at ht
      exact Or.inr ht

namespace Log

variable {config : LogConfig} {c : Cut} {log : Log} {store : σ}

/-- A log that follows the cut, over a store of legitimate snapshots. -/
structure Sound (config : LogConfig) (c : Cut) (log : Log) (l : List Snapshot) : Prop where
  valid : c.Valid config.maxLeavesPerTree
  follows : log.Follows config c
  legitimate : Legitimate c.trees l

/-- The outcome says that the event is in the tree. -/
def accepted : Except LogError Receipt → Bool
  | .ok _ => true
  | .error (.persistence recorded _ _) => recorded
  | .error _ => false

/-- A write of the current tree is one replacement in the store. -/
theorem persist_cases (log : Log) (store : σ) (now : Nat) :
    (∃ store', SnapshotStore.replace store log.persistedRoot? (log.snapshot now) =
        (.ok (), store') ∧
      log.persist store now = (.ok (),
        { log with persistedRoot? := some log.rootHash, pendingWrite := false }, store') ∧
      contents store' =
        (Shelf.replace ⟨contents store⟩ log.persistedRoot? (log.snapshot now)).snapshots) ∨
    ∃ e store', SnapshotStore.replace store log.persistedRoot? (log.snapshot now) =
        (.error e, store') ∧
      log.persist store now = (.error e, { log with pendingWrite := true }, store') ∧
      contents store' = contents store := by
  rcases replace_cases store log.persistedRoot? (log.snapshot now) with
    ⟨store', hreplace, hcontents⟩ | ⟨e, store', hreplace, hcontents⟩
  · refine Or.inl ⟨store', hreplace, ?_, hcontents⟩
    simp only [persist, hreplace]
    rfl
  · refine Or.inr ⟨e, store', hreplace, ?_, hcontents⟩
    simp only [persist, hreplace]

section Rollover

omit [LawfulStore σ]

theorem retry_pendingWrite {log' : Log} {store' : σ} {now : Nat}
    (h : log.retry store now = (.ok (), log', store')) : log'.pendingWrite = false := by
  rw [retry] at h
  cases hpending : log.pendingWrite with
  | false =>
      rw [hpending] at h
      cases h
      exact hpending
  | true =>
      rw [hpending, if_pos rfl, persist] at h
      split at h <;> cases h
      rfl

/-- A rollover of a log without a pending write. -/
inductive RollsOver (config : LogConfig) (c : Cut) (log : Log) (store : σ) (now : Nat) :
    Except LogError (Option SealedTree) → Log → σ → Prop
  | kept (room : log.tree.isFull = false) : RollsOver config c log store now (.ok none) log store
  | opened {next : Log} {store' : σ} (full : log.tree.isFull = true)
      (follows : next.Follows config c.next)
      (written : SnapshotStore.replace store none (next.snapshot now) = (.ok (), store')) :
      RollsOver config c log store now (.ok (some ⟨log.treeIndex, log.rootHash⟩))
        { next with persistedRoot? := some next.rootHash, pendingWrite := false } store'
  | refused {next : Log} {e : StoreError} {store' : σ}
      (failed : SnapshotStore.replace store none (next.snapshot now) = (.error e, store')) :
      RollsOver config c log store now (.error (.notRecorded e)) log store'

/-- If it fails the log is as it was: the seal is undone. -/
theorem Follows.rollsOver (h : log.Follows config c) (hwritten : log.pendingWrite = false)
    (store : σ) (now : Nat) :
    ∃ result log' store', log.rollOver store now = (result, log', store') ∧
      RollsOver config c log store now result log' store' := by
  cases hfull : log.tree.isFull with
  | false =>
      refine ⟨_, log, store, ?_, .kept hfull⟩
      rw [rollOver, hfull]
      rfl
  | true =>
      obtain ⟨next, hseal, hnext, hnone, -⟩ := h.sealTree_eq
      have hback := undoSeal_of_sealTree hseal hwritten
      -- what a failed write notes in the next log goes with that
      have hundone : ({ next with pendingWrite := true } : Log).undoSeal log.tree
          log.persistedRoot? = log := hback
      rw [← h.treeIndex_eq, ← h.rootHash_eq] at hseal
      rcases hreplace : SnapshotStore.replace store next.persistedRoot? (next.snapshot now) with
        ⟨e | _, store'⟩
      · refine ⟨_, log, store', ?_, .refused (hnone ▸ hreplace)⟩
        simp only [rollOver, hfull, if_true, hseal, persist, hreplace, hundone]
      · refine ⟨_, _, store', ?_, .opened hfull hnext (hnone ▸ hreplace)⟩
        simp only [rollOver, hfull, if_true, hseal, persist, hreplace]
        rfl

theorem Follows.roll_eq (h : log.Follows config c) (hc : c.Valid config.maxLeavesPerTree) :
    c.roll config.maxLeavesPerTree = if log.tree.isFull then c.next else c := by
  rw [roll]
  exact if_congr (h.isFull_iff hc).symm rfl rfl

end Rollover

theorem Follows.legitimate_of_replace (h : log.Follows config c)
    (hc : c.Valid config.maxLeavesPerTree) (hold : Legitimate c.trees (contents store))
    {old? : Option Hash} {now : Nat} {result : Except StoreError Unit} {store' : σ}
    (hreplace : SnapshotStore.replace store old? (log.snapshot now) = (result, store')) :
    Legitimate c.trees (contents store') := by
  intro s hs
  rcases mem_contents_of_replace hreplace hs with rfl | hs
  · rw [h.snapshot_eq]
    exact ⟨c.current, hc.stateOf_current, rfl⟩
  · exact hold s hs

theorem Sound.persist_sound (h : Sound config c log (contents store)) (now : Nat) :
    ∃ result log' store', log.persist store now = (result, log', store') ∧
      Sound config c log' (contents store') := by
  rcases persist_cases log store now with
    ⟨store', hreplace, hpersist, -⟩ | ⟨e, store', hreplace, hpersist, -⟩
  · exact ⟨_, _, store', hpersist, h.valid, h.follows.of_tree_eq rfl rfl rfl rfl,
      h.follows.legitimate_of_replace h.valid h.legitimate hreplace⟩
  · exact ⟨_, _, store', hpersist, h.valid, h.follows.of_tree_eq rfl rfl rfl rfl,
      h.follows.legitimate_of_replace h.valid h.legitimate hreplace⟩

theorem Sound.retry_sound (h : Sound config c log (contents store)) (now : Nat) :
    ∃ result log' store', log.retry store now = (result, log', store') ∧
      Sound config c log' (contents store') := by
  rw [retry]
  split
  · exact h.persist_sound now
  · exact ⟨_, log, store, rfl, h⟩

theorem Sound.rollOver_sound (h : Sound config c log (contents store))
    (hwritten : log.pendingWrite = false) (now : Nat) :
    (∃ sealed? log' store', log.rollOver store now = (.ok sealed?, log', store') ∧
      Sound config (c.roll config.maxLeavesPerTree) log' (contents store')) ∨
    ∃ e store', log.rollOver store now = (.error (.notRecorded e), log, store') ∧
      Sound config c log (contents store') := by
  obtain ⟨_, _, store', hrollOver, hcase⟩ := h.follows.rollsOver hwritten store now
  have hroll := h.follows.roll_eq h.valid
  have hvalid := h.valid.roll.1
  cases hcase with
  | kept hroom =>
      rw [hroll, hroom]
      exact Or.inl ⟨none, log, store, hrollOver, h⟩
  | opened hfull hnext hwrite =>
      rw [hfull, if_pos rfl] at hroll
      rw [hroll] at hvalid ⊢
      exact Or.inl ⟨_, _, store', hrollOver, hvalid, hnext.of_tree_eq rfl rfl rfl rfl,
        hnext.legitimate_of_replace hvalid (h.legitimate.mono (extends_next c)) hwrite⟩
  | refused hfailed =>
      refine Or.inr ⟨_, store', hrollOver, h.valid, h.follows, ?_⟩
      rw [LawfulStore.replace_error hfailed]
      exact h.legitimate

theorem Sound.appendEvent_sound (h : Sound config c log (contents store))
    (hroom : c.current.length < capacity config.maxLeavesPerTree) (payload : String) (now : Nat)
    (sealed? : Option SealedTree) :
    ∃ result log' store', log.appendEvent store now payload sealed? = (result, log', store') ∧
      Sound config (c.push payload) log' (contents store') ∧
      ((∃ receipt, result = .ok receipt) ∨
        ∃ receipt e, result = .error (.persistence true (some receipt) e)) := by
  obtain ⟨tree, happend, hfollows⟩ := h.follows.append_eq payload
  have hsound : Sound config (c.push payload) { log with tree } (contents store) :=
    ⟨h.valid.push hroom payload, hfollows, h.legitimate.mono (extends_push c payload)⟩
  obtain ⟨result, log', store', hpersist, h'⟩ := hsound.persist_sound now
  simp only [appendEvent, happend, hpersist]
  cases result with
  | ok _ => exact ⟨_, log', store', rfl, h', Or.inl ⟨_, rfl⟩⟩
  | error e => exact ⟨_, log', store', rfl, h', Or.inr ⟨_, e, rfl⟩⟩

omit [LawfulStore σ] in
theorem accepted_appendEvent (h : log.Follows config c) (store : σ) (now : Nat)
    (payload : String) (sealed? : Option SealedTree) :
    accepted (log.appendEvent store now payload sealed?).1 = true := by
  obtain ⟨tree, happend, -⟩ := h.append_eq payload
  simp only [appendEvent, happend]
  cases hpersist : persist { log with tree } store now with
  | mk result rest =>
      obtain ⟨log', store'⟩ := rest
      cases result with
      | ok _ => rfl
      | error e => rfl

/-- Recording an event: it is in the tree exactly if the outcome says so, and otherwise the
log follows the same events as before. -/
theorem Sound.record_sound (h : Sound config c log (contents store)) (payload : String)
    (now : Nat) :
    ∃ result log' store', log.record store now payload = (result, log', store') ∧
      (((∃ receipt, result = .ok receipt) ∨
          ∃ receipt e, result = .error (.persistence true (some receipt) e)) ∧
          Sound config (c.add config.maxLeavesPerTree payload) log' (contents store') ∨
        (∃ e, result = .error (.notRecorded e)) ∧ Sound config c log' (contents store')) := by
  obtain ⟨result₁, log₁, store₁, hretry, h₁⟩ := h.retry_sound now
  cases result₁ with
  | error e =>
      exact ⟨_, log₁, store₁, by simp only [record, hretry], Or.inr ⟨⟨e, rfl⟩, h₁⟩⟩
  | ok _ =>
      rcases h₁.rollOver_sound (retry_pendingWrite hretry) now with
        ⟨sealed?, log₂, store₂, hrollOver, h₂⟩ | ⟨e, store₂, hrollOver, h₂⟩
      · obtain ⟨result, log', store', happend, h₃, hresult⟩ :=
          h₂.appendEvent_sound h₁.valid.roll.2 payload now sealed?
        exact ⟨result, log', store', by simp only [record, hretry, hrollOver, happend],
          Or.inl ⟨hresult, h₃⟩⟩
      · exact ⟨_, log₁, store₂, by simp only [record, hretry, hrollOver],
          Or.inr ⟨⟨e, rfl⟩, h₂⟩⟩

end Log

end Stores

end SealedLog
