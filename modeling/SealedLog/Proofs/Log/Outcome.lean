import SealedLog.Proofs.Log.Session
import SealedLog.Proofs.Tree.Levels

/-!
# What recording an event says of it

`record` has three things to say of an event: it is in the log and in the store; it is in the
log, and the write that should have put it into the store failed; it is in neither. `Told` is
what goes with each of them. If the event is in the log then it stands once, at the end, and
the receipt says where; if it is not then the log has the tree, the history and the indices it
had before, and the store may only have caught up with a write that was due anyway.

The logs that this is about, `Reachable`, come from a recovery by any number of calls. Every
call may find another store than the one before left: what a log says of an event does not
depend on what its store held.
-/

namespace SealedLog

/-- A block that is added stands last in the last leaf. -/
theorem Batch.exists_leaves_append (bs : List String) (b : String) :
    ∃ front last, leaves (bs ++ [b]) = front ++ [last ++ [b]] := by
  by_cases hmod : bs.length % leafCapacity = 0
  · exact ⟨leaves bs, [], leaves_append_of_full bs b hmod⟩
  · obtain ⟨front, last, -, -, hnext⟩ := leaves_append_of_room bs b hmod
    exact ⟨front, last, hnext⟩

namespace Log

open Cut

variable {σ : Type} [SnapshotStore σ] [LawfulStore σ]

/-- The logs that a recovery, or a start, and any calls lead to, whatever the stores do. -/
inductive Reachable (σ : Type) [SnapshotStore σ] (config : LogConfig) : Log → Prop
  | recover {store store' : σ} {now : Nat} {events : List String} {log : Log}
      (h : Log.recover store config now events = (.ok log, store')) : Reachable σ config log
  | record {log : Log} (h : Reachable σ config log) (store : σ) (now : Nat)
      (payload : String) : Reachable σ config (log.record store now payload).2.1
  | flush {log : Log} (h : Reachable σ config log) (store : σ) (now : Nat) :
      Reachable σ config (log.flush store now).2.1

/-- An event was added to the tree, or to one that was opened for it behind the root of the
one before. -/
inductive Added (log : Log) (payload : String) (log' : Log) : Option SealedTree → Prop
  | grown (room : log.tree.isFull = false) (treeIndex_eq : log'.treeIndex = log.treeIndex)
      (history_eq : log'.history = log.history)
      (blocks_eq : log'.tree.blocks = log.tree.blocks ++ [payload]) : Added log payload log' none
  | opened (full : log.tree.isFull = true) (treeIndex_eq : log'.treeIndex = log.treeIndex + 1)
      (history_eq : log'.history = log.history.record ⟨log.treeIndex, log.rootHash⟩)
      (blocks_eq : log'.tree.blocks = [log.rootHash, payload]) :
      Added log payload log' (some ⟨log.treeIndex, log.rootHash⟩)

/-- The event is in the log, where the receipt says. -/
structure Taken (log : Log) (payload : String) (receipt : Receipt) (log' : Log) : Prop where
  added : Added log payload log' receipt.sealedTree?
  rootHash_eq : receipt.rootHash = log'.rootHash
  treeIndex_eq : receipt.treeIndex = log'.treeIndex
  leafIndex_eq : receipt.leafIndex + 1 = log'.tree.leafCount
  placed : ∃ leaf, log'.tree.leafBlocks[receipt.leafIndex]? = some leaf ∧
    leaf.getLast? = some payload
  config_eq : log'.config = log.config

/-- The log as it was, over a store that at most got a write of it that was due. -/
inductive CaughtUp (log : Log) (store : σ) (now : Nat) : Log → σ → Prop
  | unchanged {store' : σ} (contents_eq : contents store' = contents store) :
      CaughtUp log store now log store'
  | written {store' : σ} (pending : log.pendingWrite = true)
      (contents_eq : contents store' =
        (Shelf.replace ⟨contents store⟩ log.persistedRoot? (log.snapshot now)).snapshots) :
      CaughtUp log store now
        { log with persistedRoot? := some log.rootHash, pendingWrite := false } store'

/-- What goes with each outcome of recording an event. -/
inductive Told (log : Log) (store : σ) (now : Nat) (payload : String) :
    Except LogError Receipt → Log → σ → Prop
  | written {receipt : Receipt} {log' : Log} {store' : σ}
      (taken : Taken log payload receipt log') (pendingWrite_eq : log'.pendingWrite = false) :
      Told log store now payload (.ok receipt) log' store'
  | unwritten {receipt : Receipt} {e : StoreError} {log' : Log} {store' : σ}
      (taken : Taken log payload receipt log') (pendingWrite_eq : log'.pendingWrite = true) :
      Told log store now payload (.error (.persistence true (some receipt) e)) log' store'
  | refused {e : StoreError} {log' : Log} {store' : σ}
      (caughtUp : CaughtUp log store now log' store') :
      Told log store now payload (.error (.persistence false none e)) log' store'

variable {config : LogConfig} {c : Cut} {log : Log}

section CaughtUp

variable {store store' : σ} {now : Nat} {log' : Log}

/-- Catching up is about the store: the tree and its place in the chain stay. -/
theorem CaughtUp.tree_eq (h : CaughtUp log store now log' store') :
    log'.config = log.config ∧ log'.tree = log.tree ∧ log'.treeIndex = log.treeIndex ∧
      log'.history = log.history := by
  cases h with
  | unchanged => exact ⟨rfl, rfl, rfl, rfl⟩
  | written => exact ⟨rfl, rfl, rfl, rfl⟩

theorem CaughtUp.follows (h : CaughtUp log store now log' store') (hc : log.Follows config c) :
    log'.Follows config c := by
  obtain ⟨hconfig, htree, hindex, hhistory⟩ := h.tree_eq
  exact hc.of_tree_eq hconfig htree hindex hhistory

theorem CaughtUp.of_contents_eq {store'' : σ} (h : CaughtUp log store now log' store')
    (heq : contents store'' = contents store') : CaughtUp log store now log' store'' := by
  cases h with
  | unchanged hcontents => exact .unchanged (by rw [heq, hcontents])
  | written hpending hcontents => exact .written hpending (by rw [heq, hcontents])

end CaughtUp

/-- A retry catches up, or fails and leaves the log as it was. -/
theorem retry_caughtUp (log : Log) (store : σ) (now : Nat) :
    (∃ log' store', log.retry store now = (.ok (), log', store') ∧
      CaughtUp log store now log' store') ∨
    ∃ e store', log.retry store now = (.error e, log, store') ∧
      contents store' = contents store := by
  rw [retry]
  cases hpending : log.pendingWrite with
  | false => exact Or.inl ⟨log, store, rfl, .unchanged rfl⟩
  | true =>
      rw [if_pos rfl]
      rcases persist_cases log store now with
        ⟨store', -, hpersist, hcontents⟩ | ⟨e, store', -, hpersist, hcontents⟩
      · exact Or.inl ⟨_, store', hpersist, .written hpending hcontents⟩
      · refine Or.inr ⟨e, store', ?_, hcontents⟩
        rw [hpersist, ← hpending]

theorem Follows.added_push {log' : Log} {payload : String} (h : log.Follows config c)
    (hroom : log.tree.isFull = false) (h' : log'.Follows config (c.push payload)) :
    Added log payload log' none := by
  refine .grown hroom ?_ (congrArg History.mk ?_) ?_
  · rw [h'.treeIndex_eq, h.treeIndex_eq, closed_push]
  · rw [h'.sealedTrees_eq, h.sealedTrees_eq, sealedTrees, sealedTrees, closed_push]
  · rw [h'.holds.blocks_eq, h.holds.blocks_eq, push]

theorem Follows.added_next {log' : Log} {payload : String} (h : log.Follows config c)
    (hfull : log.tree.isFull = true) (h' : log'.Follows config (c.next.push payload)) :
    Added log payload log' (some ⟨log.treeIndex, log.rootHash⟩) := by
  refine .opened hfull ?_ (congrArg History.mk ?_) ?_
  · rw [h'.treeIndex_eq, h.treeIndex_eq, closed_push, closed_next, length_trees]
  · rw [h'.sealedTrees_eq, h.sealedTrees_eq, h.treeIndex_eq, h.rootHash_eq, ← sealedTrees_next]
    rfl
  · rw [h'.holds.blocks_eq, h.rootHash_eq]
    rfl

theorem Follows.taken {log' : Log} {payload : String} {sealedTree? : Option SealedTree}
    (h : log.Follows config c) {c' : Cut} (h' : log'.Follows config (c'.push payload))
    (hadded : Added log payload log' sealedTree?) :
    Taken log payload ⟨log'.rootHash, log'.treeIndex, log'.tree.lastLeafIndex, sealedTree?⟩
      log' := by
  obtain ⟨front, last, hleaves⟩ := Batch.exists_leaves_append c'.current payload
  have hcount : log'.tree.leafCount = front.length + 1 := by
    rw [h'.holds.leafCount_eq, push, ← Batch.length_leaves, hleaves, List.length_append,
      List.length_singleton]
  have hindex : log'.tree.lastLeafIndex = front.length := by
    rw [Tree.lastLeafIndex, hcount, Nat.add_sub_cancel]
  refine ⟨hadded, rfl, rfl, ?_, ⟨last ++ [payload], ?_, ?_⟩, by rw [h'.config_eq, h.config_eq]⟩
  · rw [hcount, ← hindex]
  · rw [h'.holds.leafBlocks_eq, push, hleaves, hindex, List.getElem?_concat_length]
  · rw [List.getLast?_concat]

/-- An event goes into the current tree, whatever becomes of the write. -/
theorem Follows.appendEvent_told {old : Log} {c' : Cut} {payload : String}
    {sealedTree? : Option SealedTree} (hold : old.Follows config c)
    (h : log.Follows config c')
    (hadded : ∀ {log' : Log}, log'.Follows config (c'.push payload) →
      Added old payload log' sealedTree?) (store₀ store : σ) (now : Nat) :
    ∃ outcome log' store', log.appendEvent store now payload sealedTree? =
        (outcome, log', store') ∧
      Told old store₀ now payload outcome log' store' ∧
      log'.Follows config (c'.push payload) := by
  obtain ⟨tree, happend, hfollows⟩ := h.append_eq payload
  rcases persist_cases { log with tree } store now with
    ⟨store', -, hpersist, -⟩ | ⟨e, store', -, hpersist, -⟩
  · have hdone : Follows { log with
        tree
        persistedRoot? := some tree.rootHash
        pendingWrite := false } config (c'.push payload) :=
      hfollows.of_tree_eq rfl rfl rfl rfl
    refine ⟨_, _, store', ?_, .written (hold.taken hdone (hadded hdone)) rfl, hdone⟩
    simp only [appendEvent, happend, hpersist]
    rfl
  · have hdone : Follows { log with tree, pendingWrite := true } config (c'.push payload) :=
      hfollows.of_tree_eq rfl rfl rfl rfl
    refine ⟨_, _, store', ?_, .unwritten (e := e) (hold.taken hdone (hadded hdone)) rfl, hdone⟩
    simp only [appendEvent, happend, hpersist]
    rfl

/-- What recording an event comes to, step by step: a retry, a rollover and a write. -/
theorem Follows.record_cases (h : log.Follows config c) (store : σ) (now : Nat)
    (payload : String) :
    ∃ outcome log' store' c', log.record store now payload = (outcome, log', store') ∧
      Told log store now payload outcome log' store' ∧ log'.Follows config c' := by
  rcases retry_caughtUp log store now with
    ⟨log₁, store₁, hretry, hcaught⟩ | ⟨e, store₁, hretry, hcontents⟩
  · have h₁ := hcaught.follows h
    have htree := hcaught.tree_eq.2.1
    obtain ⟨_, _, store₂, hrollOver, hcase⟩ :=
      h₁.rollsOver (retry_pendingWrite hretry) store₁ now
    cases hcase with
    | kept hroom =>
        rw [htree] at hroom
        obtain ⟨outcome, log', store', happend, htold, h'⟩ :=
          h.appendEvent_told h₁ (h.added_push hroom) store store₁ now
        refine ⟨outcome, log', store', _, ?_, htold, h'⟩
        simp only [record, hretry, hrollOver, happend]
    | @opened next _ hfull hnext =>
        have hopened : Follows { next with
            persistedRoot? := some next.rootHash
            pendingWrite := false } config c.next :=
          hnext.of_tree_eq rfl rfl rfl rfl
        rw [htree] at hfull
        rw [h₁.treeIndex_eq, h₁.rootHash_eq, ← h.treeIndex_eq, ← h.rootHash_eq] at hrollOver
        obtain ⟨outcome, log', store', happend, htold, h'⟩ :=
          h.appendEvent_told hopened (h.added_next hfull) store store₂ now
        refine ⟨outcome, log', store', _, ?_, htold, h'⟩
        simp only [record, hretry, hrollOver, happend]
    | @refused _ e _ hfailed =>
        have hcontents := LawfulStore.replace_error hfailed
        refine ⟨.error (.notRecorded e), log₁, store₂, c, ?_, ?_, h₁⟩
        · simp only [record, hretry, hrollOver]
        · exact .refused (hcaught.of_contents_eq hcontents)
  · refine ⟨.error (.notRecorded e), log, store₁, c, ?_, ?_, h⟩
    · simp only [record, hretry]
    · exact .refused (.unchanged hcontents)

theorem Follows.flush_follows (h : log.Follows config c) (store : σ) (now : Nat) :
    (log.flush store now).2.1.Follows config c := by
  rw [flush]
  rcases retry_caughtUp log store now with
    ⟨log', store', hretry, hcaught⟩ | ⟨e, store', hretry, -⟩
  · rw [hretry]
    exact hcaught.follows h
  · rw [hretry]
    exact h

/-- A log that was reached holds some events, cut into trees. -/
theorem Reachable.exists_follows (h : Reachable σ config log) : ∃ c, log.Follows config c := by
  induction h with
  | recover hrecover => exact ⟨_, (recovered_of_recover hrecover).1.follows⟩
  | record _ store now payload ih =>
      obtain ⟨c, hfollows⟩ := ih
      obtain ⟨outcome, log', store', c', hrecord, -, h'⟩ :=
        hfollows.record_cases store now payload
      rw [hrecord]
      exact ⟨c', h'⟩
  | flush _ store now ih =>
      obtain ⟨c, hfollows⟩ := ih
      exact ⟨c, hfollows.flush_follows store now⟩

/-- Recording an event on any log that was reached comes to one of the three outcomes of
`Told`, whatever becomes of the writes, and what goes with that outcome is so. -/
theorem Reachable.record_told (h : Reachable σ config log) (store : σ) (now : Nat)
    (payload : String) :
    ∃ outcome log' store', log.record store now payload = (outcome, log', store') ∧
      Told log store now payload outcome log' store' := by
  obtain ⟨c, hfollows⟩ := h.exists_follows
  obtain ⟨outcome, log', store', -, hrecord, htold, -⟩ := hfollows.record_cases store now payload
  exact ⟨outcome, log', store', hrecord, htold⟩

omit [LawfulStore σ] in
/-- The calls of a run reach a log. -/
theorem Reachable.run {s : Session σ} (h : Reachable σ config s.log) (calls : List Call) :
    Reachable σ config (s.run calls).log := by
  induction calls generalizing s with
  | nil => exact h
  | cons call calls ih =>
      refine ih (s := s.call call) ?_
      cases call with
      | record now payload => exact h.record s.store now payload
      | flush now => exact h.flush s.store now

/-- The log that has filled its first tree, when the next one cannot be written. -/
def halted : Session (Watched (Flaky Shelf)) :=
  (Session.mk refusedLog.1 refusedLog.2 []).run (refusedCalls.take 4)

theorem accepted_record_halted :
    accepted (halted.log.record halted.store 5 "x").1 = false := by
  decide +kernel

/-- The event is refused, the tree is not sealed, and it can be sent again. -/
theorem record_told_halted :
    Reachable (Watched (Flaky Shelf)) ⟨1⟩ halted.log ∧
    ∃ e log' store', halted.log.record halted.store 5 "x" =
        (.error (.persistence false none e), log', store') ∧
      CaughtUp halted.log halted.store 5 log' store' := by
  have hstart : Log.recover (Watched.ofInner refusing) ⟨1⟩ 0 [] =
      (.ok refusedLog.1, refusedLog.2) := start_refusing
  have hreachable : Reachable (Watched (Flaky Shelf)) ⟨1⟩ halted.log :=
    Reachable.run (s := ⟨refusedLog.1, refusedLog.2, []⟩) (.recover hstart) _
  refine ⟨hreachable, ?_⟩
  have haccepted := accepted_record_halted
  obtain ⟨outcome, log', store', hrecord, htold⟩ := hreachable.record_told halted.store 5 "x"
  rw [hrecord] at haccepted
  cases htold with
  | written => cases haccepted
  | unwritten => cases haccepted
  | refused caughtUp => exact ⟨_, log', store', hrecord, caughtUp⟩

end Log

end SealedLog
