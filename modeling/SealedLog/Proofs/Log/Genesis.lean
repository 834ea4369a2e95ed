import SealedLog.Proofs.Log.Outcome

/-!
# Recomputing from the first event

`Cut` puts events into trees one at a time, as a log does. `pack` does it from the front and
a tree at a time: as many events as there is room for, and for those that are left a next tree
that starts with the root of this one. The two come to the same trees.

A log that was reached by any calls holds the events that it accepted, cut in this way
(`Holding.follows`): the current tree is the last one, and the history has the root of every
other, as it comes out when that tree is built again from its blocks. What failed on the way,
and how often a tree was sealed in vain, leaves no trace.
-/

namespace SealedLog

namespace Cut

/-- How many events there is room for in a tree, behind its link. -/
def room (maxLeaves : Nat) (link? : Option Hash) : Nat :=
  capacity maxLeaves - link?.toList.length

/-- The blocks of a tree that as many of the events as there is room for go into. -/
def filled (maxLeaves : Nat) (link? : Option Hash) (events : List String) : List String :=
  link?.toList ++ events.take (room maxLeaves link?)

theorem length_toList_le (link? : Option Hash) : link?.toList.length ≤ 1 := by
  cases link? <;> simp

theorem room_pos (maxLeaves : Nat) (link? : Option Hash) : 0 < room maxLeaves link? := by
  have hlink := length_toList_le link?
  simp only [room, capacity, leafCapacity]
  omega

/-- Events cut into trees from the front, where the first tree starts with `link?`. -/
def pack (maxLeaves : Nat) (link? : Option Hash) (events : List String) : List (List String) :=
  if events.length ≤ room maxLeaves link? then [link?.toList ++ events]
  else
    filled maxLeaves link? events ::
      pack maxLeaves (some (Batch.root (filled maxLeaves link? events)))
        (events.drop (room maxLeaves link?))
termination_by events.length
decreasing_by
  have hpos := room_pos maxLeaves link?
  rw [List.length_drop]
  omega

variable {maxLeaves : Nat} {c : Cut} {events : List String}

theorem roll_of_lt (h : c.current.length < capacity maxLeaves) : c.roll maxLeaves = c := by
  rw [roll, if_neg (by omega)]

theorem roll_of_le (h : capacity maxLeaves ≤ c.current.length) : c.roll maxLeaves = c.next := by
  rw [roll, if_pos h]

/-- Events for which there is room all go into the current tree. -/
theorem foldl_add_of_le (h : c.current.length + events.length ≤ capacity maxLeaves) :
    events.foldl (add maxLeaves) c = ⟨c.closed, c.current ++ events⟩ := by
  induction events generalizing c with
  | nil => rw [List.foldl_nil, List.append_nil]
  | cons payload events ih =>
      rw [List.length_cons] at h
      rw [List.foldl_cons, add, roll_of_lt (by omega), ih]
      · rw [push, List.append_assoc, List.singleton_append]
      · simp only [push, List.length_append, List.length_singleton]
        omega

/-- An event that follows on a full tree follows on the next one. -/
theorem foldl_add_of_full (hfull : capacity maxLeaves ≤ c.current.length) (hne : events ≠ []) :
    events.foldl (add maxLeaves) c = events.foldl (add maxLeaves) c.next := by
  obtain ⟨payload, events, rfl⟩ := List.exists_cons_of_ne_nil hne
  have hroom : c.next.current.length < capacity maxLeaves := by
    simp only [next, List.length_singleton, capacity, leafCapacity]
    omega
  rw [List.foldl_cons, List.foldl_cons, add, add, roll_of_le hfull, roll_of_lt hroom]

/-- From a tree with nothing but its link on, events come to be cut as from the front. -/
theorem trees_foldl_add (link? : Option Hash) (events : List String)
    (hcurrent : c.current = link?.toList) :
    (events.foldl (add maxLeaves) c).trees = c.closed ++ pack maxLeaves link? events := by
  induction link?, events using pack.induct maxLeaves generalizing c with
  | case1 link? events hfit =>
      have hpos := room_pos maxLeaves link?
      rw [room] at hfit hpos
      rw [pack, room, if_pos hfit, foldl_add_of_le (by rw [hcurrent]; omega), trees, hcurrent]
  | case2 link? events hlong ih =>
      have hpos := room_pos maxLeaves link?
      have hroom : room maxLeaves link? + link?.toList.length = capacity maxLeaves := by
        rw [room] at hpos ⊢
        omega
      have htake : (events.take (room maxLeaves link?)).length = room maxLeaves link? :=
        List.length_take_of_le (by omega)
      have hfull : (filled maxLeaves link? events).length = capacity maxLeaves := by
        rw [filled, List.length_append, htake]
        omega
      have hrest : events.drop (room maxLeaves link?) ≠ [] := by
        rw [← List.length_pos_iff, List.length_drop]
        omega
      have hfilled : (events.take (room maxLeaves link?)).foldl (add maxLeaves) c =
          ⟨c.closed, filled maxLeaves link? events⟩ := by
        rw [foldl_add_of_le (by rw [hcurrent, htake]; omega), hcurrent, filled]
      rw [pack, if_neg hlong]
      conv_lhs => rw [← List.take_append_drop (room maxLeaves link?) events]
      rw [List.foldl_append, hfilled, foldl_add_of_full (Nat.le_of_eq hfull.symm) hrest, ih rfl,
        closed_next, trees, List.append_assoc]
      rfl

/-- Cut one at a time or a tree at a time, the events come to the same trees. -/
theorem trees_ofEvents (maxLeaves : Nat) (events : List String) :
    (ofEvents maxLeaves events).trees = pack maxLeaves none events :=
  trees_foldl_add none events rfl

end Cut

namespace Log

open Cut

variable {σ : Type} [SnapshotStore σ] {config : LogConfig} {c : Cut} {log : Log}

theorem find?_zipIdx (closed : List (List String)) (k i : Nat) :
    ((closed.zipIdx k).map fun (bs, i) => (⟨i, Batch.root bs⟩ : SealedTree)).find?
        (·.treeIndex == k + i) =
      closed[i]?.map fun bs => ⟨k + i, Batch.root bs⟩ := by
  induction closed generalizing k i with
  | nil => rfl
  | cons bs closed ih =>
      rw [List.zipIdx_cons, List.map_cons, List.find?_cons]
      cases i with
      | zero => simp
      | succ i =>
          have hother : (k == k + (i + 1)) = false := beq_false_of_ne (by omega)
          have hrest := ih (k + 1) i
          rw [Nat.add_right_comm, Nat.add_assoc] at hrest
          simp only [hother, hrest, List.getElem?_cons_succ]

/-- The history of a log has the roots of the closed trees, under their indices. -/
theorem Follows.rootOf?_eq (h : log.Follows config c) (i : Nat) :
    log.history.rootOf? i = c.closed[i]?.map Batch.root := by
  have hfind := find?_zipIdx c.closed 0 i
  rw [Nat.zero_add] at hfind
  rw [History.rootOf?, h.sealedTrees_eq, sealedTrees, hfind, Option.map_map]
  rfl

theorem Follows.map_treeIndex_eq (h : log.Follows config c) :
    log.history.sealedTrees.map SealedTree.treeIndex = List.range log.treeIndex := by
  rw [h.sealedTrees_eq, h.treeIndex_eq, sealedTrees, List.map_map, List.range_eq_range']
  exact List.zipIdx_map_snd 0 c.closed

/-- The logs that a recovery, or a start, and any calls lead to, whatever the stores do, with
the events that they accepted. -/
inductive Holding (σ : Type) [SnapshotStore σ] (config : LogConfig) : List String → Log → Prop
  | recover {store store' : σ} {now : Nat} {events : List String} {log : Log}
      (h : Log.recover store config now events = (.ok log, store')) :
      Holding σ config events log
  | record {events : List String} {log : Log} (h : Holding σ config events log) (store : σ)
      (now : Nat) (payload : String) :
      Holding σ config
        (if accepted (log.record store now payload).1 then events ++ [payload] else events)
        (log.record store now payload).2.1
  | flush {events : List String} {log : Log} (h : Holding σ config events log) (store : σ)
      (now : Nat) : Holding σ config events (log.flush store now).2.1

theorem Holding.run {s : Session σ} (h : Holding σ config s.accepted s.log)
    (calls : List Call) : Holding σ config (s.run calls).accepted (s.run calls).log := by
  induction calls generalizing s with
  | nil => exact h
  | cons call calls ih =>
      refine ih (s := s.call call) ?_
      cases call with
      | record now payload => exact h.record s.store now payload
      | flush now => exact h.flush s.store now

theorem Follows.persist_follows (h : log.Follows config c) (store : σ) (now : Nat) :
    (log.persist store now).2.1.Follows config c := by
  rw [persist]
  split
  · exact h.of_tree_eq rfl rfl rfl rfl
  · exact h.of_tree_eq rfl rfl rfl rfl

theorem Follows.retry_follows (h : log.Follows config c) (store : σ) (now : Nat) :
    (log.retry store now).2.1.Follows config c := by
  rw [retry]
  split
  · exact h.persist_follows store now
  · exact h

/-- A rollover that succeeds leaves a tree with room, one that fails leaves the log alone. -/
theorem Follows.rollOver_follows (h : log.Follows config c)
    (hc : c.Valid config.maxLeavesPerTree) (hwritten : log.pendingWrite = false) (store : σ)
    (now : Nat) :
    (∃ sealedTree? log' store', log.rollOver store now = (.ok sealedTree?, log', store') ∧
      log'.Follows config (c.roll config.maxLeavesPerTree)) ∨
    ∃ e store', log.rollOver store now = (.error (.notRecorded e), log, store') := by
  obtain ⟨_, _, store', hrollOver, hcase⟩ := h.rollsOver hwritten store now
  have hroll := h.roll_eq hc
  cases hcase with
  | kept hroom =>
      rw [hroll, hroom]
      exact Or.inl ⟨none, log, store, hrollOver, h⟩
  | opened hfull hnext =>
      rw [hroll, hfull]
      exact Or.inl ⟨_, _, store', hrollOver, hnext.of_tree_eq rfl rfl rfl rfl⟩
  | refused => exact Or.inr ⟨_, store', hrollOver⟩

theorem Follows.appendEvent_follows (h : log.Follows config c) (store : σ) (now : Nat)
    (payload : String) (sealedTree? : Option SealedTree) :
    (log.appendEvent store now payload sealedTree?).2.1.Follows config (c.push payload) := by
  obtain ⟨tree, happend, hfollows⟩ := h.append_eq payload
  have hpersist := hfollows.persist_follows store now
  simp only [appendEvent, happend]
  split
  next hresult =>
    rw [hresult] at hpersist
    exact hpersist
  next hresult =>
    rw [hresult] at hpersist
    exact hpersist

/-- Recording an event adds it to the trees exactly if the outcome says so. -/
theorem Follows.record_follows (h : log.Follows config c)
    (hc : c.Valid config.maxLeavesPerTree) (store : σ) (now : Nat) (payload : String) :
    (log.record store now payload).2.1.Follows config
      (if accepted (log.record store now payload).1 then c.add config.maxLeavesPerTree payload
        else c) := by
  have h₁ := h.retry_follows store now
  rcases hretry : log.retry store now with ⟨_ | _, log₁, store₁⟩ <;> rw [hretry] at h₁
  · simp only [record, hretry]
    exact h₁
  · rcases h₁.rollOver_follows hc (retry_pendingWrite hretry) store₁ now with
      ⟨sealedTree?, log₂, store₂, hrollOver, h₂⟩ | ⟨e, store₂, hrollOver⟩
    · simp only [record, hretry, hrollOver]
      rw [if_pos (accepted_appendEvent h₂ store₂ now payload sealedTree?)]
      exact h₂.appendEvent_follows store₂ now payload sealedTree?
    · simp only [record, hretry, hrollOver]
      exact h₁

/-- A log that was reached holds the events that it accepted. -/
theorem Holding.follows {events : List String} (h : Holding σ config events log) :
    log.Follows config (ofEvents config.maxLeavesPerTree events) := by
  induction h with
  | @recover store _ now events _ hrecover =>
      have hcomp : Comparison (σ := σ) (ofEvents config.maxLeavesPerTree events).trees now
          (fun _ _ _ => True) (fun _ => True) := by
        refine ⟨fun {k store waiting produced bs} _ _ _ _ => ?_, fun _ _ => trivial⟩
        cases reconcile store waiting produced (Batch.snapshot bs k now) with
        | ok next => trivial
        | error e => trivial
      rcases recover_yields events hcomp store (by cases SnapshotStore.load store <;> trivial) with
        ⟨_, _, _, hok, hrecovered, -, -⟩ | ⟨_, _, herror, -⟩
      · rw [hrecover] at hok
        cases hok
        exact hrecovered.follows
      · rw [hrecover] at herror
        cases herror
  | @record events log _ store now payload ih =>
      have hnext := ih.record_follows (valid_ofEvents _ events) store now payload
      cases haccepted : accepted (log.record store now payload).1 with
      | true =>
          rw [haccepted, if_pos rfl, ← ofEvents_concat] at hnext
          exact hnext
      | false =>
          rw [haccepted] at hnext
          exact hnext
  | flush _ store now ih =>
      have hretry := ih.retry_follows store now
      rw [Log.flush]
      split
      next hresult =>
        rw [hresult] at hretry
        exact hretry
      next hresult =>
        rw [hresult] at hretry
        exact hretry

/-- Blocks that fill a tree make leaves that are full. -/
theorem leaves_of_length_eq {maxLeaves : Nat} {bs : List String}
    (h : bs.length = capacity maxLeaves) :
    (Batch.leaves bs).length = max maxLeaves 1 ∧
      ∀ leaf ∈ Batch.leaves bs, leaf.length = leafCapacity := by
  simp only [capacity] at h
  refine ⟨?_, fun leaf hleaf => Batch.length_of_mem_leaves (by rw [h]; simp) hleaf⟩
  rw [Batch.length_leaves, h, leafCapacity]
  omega

/-- A log that was reached by a recovery, or a start, and any calls over any stores, and the
events that it accepted on the way. Cut from the front into trees, each as large as it may be
and each but the first behind the root of the one before, the events come to one tree more than
the history has entries. The history has the trees up to the current one in order, and under
the index of each the root that comes out when the tree is built from its blocks; each of them
has as many leaves as a tree may have, all of them full. The current tree has the blocks of the
last, and no more leaves than it may have. -/
theorem Holding.retraces {events : List String} (h : Holding σ config events log) :
    (pack config.maxLeavesPerTree none events).length = log.treeIndex + 1 ∧
    log.history.sealedTrees.map SealedTree.treeIndex = List.range log.treeIndex ∧
    (∀ i bs, i < log.treeIndex → (pack config.maxLeavesPerTree none events)[i]? = some bs →
      ∃ t, Tree.ofBlocks bs config.maxLeavesPerTree = .ok t ∧
        log.history.rootOf? i = some t.rootHash ∧
        t.leafBlocks.length = max 1 config.maxLeavesPerTree ∧
        ∀ leaf ∈ t.leafBlocks, leaf.length = leafCapacity) ∧
    (pack config.maxLeavesPerTree none events)[log.treeIndex]? = some log.tree.blocks ∧
    log.tree.leafCount ≤ max 1 config.maxLeavesPerTree := by
  have hfollows := h.follows
  have hvalid := valid_ofEvents config.maxLeavesPerTree events
  have hindex := hfollows.treeIndex_eq
  rw [← trees_ofEvents]
  refine ⟨by rw [length_trees, hindex], hfollows.map_treeIndex_eq, fun i bs hi hbs => ?_, ?_, ?_⟩
  · obtain ⟨t, ht, hholds, -⟩ := Tree.ofBlocks_eq_ok bs config.maxLeavesPerTree
    rw [getElem?_trees_of_lt (by omega)] at hbs
    obtain ⟨hcount, hleaves⟩ := leaves_of_length_eq (hvalid.full (List.mem_of_getElem? hbs))
    refine ⟨t, ht, ?_, ?_, ?_⟩
    · rw [hfollows.rootOf?_eq, hbs, hholds.rootHash_eq]
      rfl
    · rw [hholds.leafBlocks_eq, hcount, Nat.max_comm]
    · rw [hholds.leafBlocks_eq]
      exact hleaves
  · rw [hindex, getElem?_trees_length, hfollows.holds.blocks_eq]
  · have hroom := hvalid.room
    rw [hfollows.holds.leafCount_eq, leafCapacity]
    simp only [capacity, leafCapacity] at hroom
    omega

theorem pack_blanks :
    pack 1 none blanks = [["", "", "", ""], [Digest.emptyRoot, "x"]] := by
  rw [← trees_ofEvents, ofEvents_blanks]
  rfl

/-- The run in which the write of the next tree fails at first, and the tree is sealed twice. -/
theorem Holding.retraces_refusing :
    ∃ log, Holding (Watched (Flaky Shelf)) ⟨1⟩ blanks log ∧ log.treeIndex = 1 ∧
      log.history.rootOf? 0 = some (Batch.root ["", "", "", ""]) ∧
      log.tree.blocks = [Digest.emptyRoot, "x"] := by
  have hstart : Log.recover (Watched.ofInner refusing) ⟨1⟩ 0 [] =
      (.ok refusedLog.1, refusedLog.2) := start_refusing
  have hholding := Holding.run (s := ⟨refusedLog.1, refusedLog.2, []⟩) (.recover hstart)
    refusedCalls
  rw [accepted_refusedCalls] at hholding
  obtain ⟨hcount, -, hsealed, hcurrent, -⟩ := hholding.retraces
  rw [pack_blanks] at hcount hsealed hcurrent
  have hindex : _ = 1 := (Nat.succ.inj hcount).symm
  rw [hindex] at hsealed hcurrent
  obtain ⟨t, ht, hroot, -⟩ := hsealed 0 _ (by decide) rfl
  obtain ⟨t', ht', hholds, -⟩ := Tree.ofBlocks_eq_ok ["", "", "", ""] 1
  rw [ht', Except.ok.injEq] at ht
  refine ⟨_, hholding, hindex, ?_, (Option.some.inj hcurrent).symm⟩
  rw [hroot, ← ht, hholds.rootHash_eq]

end Log

end SealedLog
