import SealedLog.Proofs.Log.Reporting
import SealedLog.Proofs.Tree.Tampering

/-!
# What a log reports as included

A check asks the current tree and no other. So at any point of a run, through any failures of the
store, it finds the events that the log has taken into that tree, from the rollover that opened
it on, and the link to the tree before, which is the root of that tree as a text. An event is
found as long as its tree is the current one. When that is sealed its root is all that the log
keeps of it.

`Enters` says of a run that one of its calls brings an event into the tree of some index.

Main statement: `check_isVerified_iff_of_start`.
-/

namespace SealedLog

/-- A tree that was only appended to verifies the blocks that it holds and nothing else. -/
theorem Tree.Holds.check_isVerified_iff {t : Tree} {bs : List String} (h : t.Holds bs)
    (data : String) : (t.check data).isVerified = true ↔ data ∈ bs := by
  by_cases hdata : data ∈ bs
  · obtain ⟨i, blocks, hfirst⟩ := h.exists_holdsFirst hdata
    rw [h.check_of_holdsFirst hfirst]
    exact iff_of_true rfl hdata
  · have hnone : ∀ blocks ∈ t.leafBlocks, data ∉ blocks := by
      intro blocks hblocks hmem
      rw [← h.blocks_eq] at hdata
      exact hdata (List.mem_flatten.2 ⟨blocks, hblocks, hmem⟩)
    rw [check_eq_notFound hnone]
    exact iff_of_false Bool.false_ne_true hdata

namespace Log

open Cut

theorem flush_sameEvents {σ : Type} [SnapshotStore σ] (log : Log) (store : σ) (now : Nat) :
    log.SameEvents (log.flush store now).2.1 := by
  have hsame := retry_sameEvents log store now
  rcases hretry : log.retry store now with ⟨_ | _, log', store'⟩ <;> rw [hretry] at hsame
  · simp only [flush, hretry]
    exact hsame
  · simp only [flush, hretry]
    exact hsame

namespace Session

variable {σ : Type} [SnapshotStore σ] {config : LogConfig} {s : Session σ} {calls : List Call}
  {data : String} {index : Nat}

theorem run_concat (s : Session σ) (calls : List Call) (call : Call) :
    s.run (calls ++ [call]) = (s.run calls).call call := by
  rw [run, List.foldl_concat, run]

/-- A call of the run records the event, the outcome says that it is in the log, and the current
tree is then the one of that index. -/
def Enters (s : Session σ) (calls : List Call) (data : String) (index : Nat) : Prop :=
  ∃ earlier now later, calls = earlier ++ .record now data :: later ∧
    Log.accepted ((s.run earlier).log.record (s.run earlier).store now data).1 = true ∧
    (s.run (earlier ++ [.record now data])).log.treeIndex = index

theorem not_enters_nil : ¬ s.Enters [] data index := by
  rintro ⟨earlier, now, later, hcalls, -⟩
  exact absurd hcalls.symm (by simp)

/-- An event enters by an earlier call or by the last one. -/
theorem enters_concat_iff {call : Call} : s.Enters (calls ++ [call]) data index ↔
    s.Enters calls data index ∨
    (∃ now, call = .record now data ∧
      Log.accepted ((s.run calls).log.record (s.run calls).store now data).1 = true) ∧
    (s.run (calls ++ [call])).log.treeIndex = index := by
  constructor
  · rintro ⟨earlier, now, later, hcalls, haccepted, hindex⟩
    rcases later.eq_nil_or_concat' with rfl | ⟨later, last, rfl⟩
    · obtain ⟨rfl, hcall⟩ := List.append_inj' hcalls rfl
      obtain rfl := List.singleton_inj.1 hcall
      exact Or.inr ⟨⟨now, rfl, haccepted⟩, hindex⟩
    · rw [← List.cons_append, ← List.append_assoc] at hcalls
      obtain ⟨rfl, -⟩ := List.append_inj' hcalls rfl
      exact Or.inl ⟨earlier, now, later, rfl, haccepted, hindex⟩
  · rintro (⟨earlier, now, later, rfl, haccepted, hindex⟩ | ⟨⟨now, rfl, haccepted⟩, hindex⟩)
    · exact ⟨earlier, now, later ++ [call], by simp, haccepted, hindex⟩
    · exact ⟨calls, now, [], rfl, haccepted, hindex⟩

/-- What one call does to the trees: it adds an event that it accepts, or it leaves them. -/
theorem call_cases (h : Holding σ config s.accepted s.log) (call : Call) :
    (∃ now payload, call = .record now payload ∧
      Log.accepted (s.log.record s.store now payload).1 = true ∧
      ∃ sealedTree?, Added s.log payload (s.call call).log sealedTree?) ∨
    (∀ now payload, call = .record now payload →
      Log.accepted (s.log.record s.store now payload).1 = false) ∧
    s.log.SameEvents (s.call call).log := by
  have hfollows := h.follows
  have hvalid := valid_ofEvents config.maxLeavesPerTree s.accepted
  cases call with
  | record now payload =>
      cases haccepted : Log.accepted (s.log.record s.store now payload).1 with
      | true =>
          have hnext := hfollows.record_follows hvalid s.store now payload
          rw [if_pos haccepted] at hnext
          exact Or.inl ⟨now, payload, rfl, haccepted, hfollows.exists_added hvalid hnext⟩
      | false =>
          refine Or.inr ⟨?_, hfollows.sameEvents_of_refused hvalid s.store now payload haccepted⟩
          rintro _ _ ⟨⟩
          exact haccepted
  | flush now =>
      exact Or.inr ⟨(by rintro _ _ ⟨⟩), flush_sameEvents s.log s.store now⟩

/-- The index of the current tree does not decrease. -/
theorem treeIndex_call_le (h : Holding σ config s.accepted s.log) (call : Call) :
    s.log.treeIndex ≤ (s.call call).log.treeIndex := by
  rcases call_cases h call with ⟨_, _, -, -, _, hadded⟩ | ⟨-, hsame⟩
  · cases hadded with
    | grown _ hindex => exact Nat.le_of_eq hindex.symm
    | opened _ hindex => exact Nat.le_of_lt (by rw [hindex]; exact Nat.lt_succ_self _)
  · exact Nat.le_of_eq hsame.treeIndex_eq.symm

theorem Enters.le_treeIndex (h : Holding σ config s.accepted s.log)
    (henters : s.Enters calls data index) : index ≤ (s.run calls).log.treeIndex := by
  induction calls using List.reverseRecOn with
  | nil => exact absurd henters not_enters_nil
  | append_singleton calls call ih =>
      rcases enters_concat_iff.1 henters with hearlier | ⟨-, rfl⟩
      · rw [run_concat]
        exact (ih hearlier).trans (treeIndex_call_le (h.run calls) call)
      · exact Nat.le_refl _

/-- The blocks of the current tree after a run: the events that entered it, and its link. -/
theorem mem_blocks_run_iff (h : Holding σ config s.accepted s.log)
    (hnone : s.log.tree.blocks = []) (hfirst : s.log.history.sealedTrees = [])
    (calls : List Call) :
    data ∈ (s.run calls).log.tree.blocks ↔
      s.Enters calls data (s.run calls).log.treeIndex ∨
      ∃ t, (s.run calls).log.history.sealedTrees.getLast? = some t ∧ t.rootHash = data := by
  induction calls using List.reverseRecOn with
  | nil =>
      rw [run, List.foldl_nil, hnone, hfirst]
      simp [not_enters_nil]
  | append_singleton calls call ih =>
      have hholding := h.run calls
      rw [enters_concat_iff, run_concat]
      rcases call_cases hholding call with
        ⟨now, payload, rfl, haccepted, sealedTree?, hadded⟩ | ⟨hrefused, hsame⟩
      · have hthis : (∃ now', Call.record now payload = .record now' data ∧ Log.accepted
            ((s.run calls).log.record (s.run calls).store now' data).1 = true) ↔
            data = payload := by
          constructor
          · rintro ⟨_, ⟨⟩, -⟩
            rfl
          · rintro rfl
            exact ⟨now, rfl, haccepted⟩
        cases hadded with
        | grown _ hindex hhistory hblocks =>
            rw [hblocks, hindex, hhistory, List.mem_append, List.mem_singleton, ih, hthis]
            simp only [and_true]
            exact or_right_comm
        | opened _ hindex hhistory hblocks =>
            -- what entered before is in trees of lower index
            have hbefore : ¬ s.Enters calls data ((s.run calls).log.treeIndex + 1) :=
              fun henters => absurd (henters.le_treeIndex h) (Nat.not_succ_le_self _)
            rw [hblocks, hindex, hhistory, hthis, History.record, List.getLast?_concat]
            simp only [List.mem_cons, List.not_mem_nil, or_false, Option.some.injEq, hbefore,
              false_or, and_true, exists_eq_left']
            rw [or_comm, @eq_comm _ data (Log.rootHash _)]
      · have hthis : ¬ ∃ now, call = .record now data ∧ Log.accepted
            ((s.run calls).log.record (s.run calls).store now data).1 = true := by
          rintro ⟨now, hcall, haccepted⟩
          rw [hrefused now data hcall] at haccepted
          cases haccepted
        rw [hsame.tree_eq, hsame.treeIndex_eq, hsame.history_eq, ih]
        simp only [hthis, false_and, or_false]

end Session

variable {σ : Type} [SnapshotStore σ] {config : LogConfig}

/-- At any point of a run from an empty log, through any failures of the store, a text is
reported as included if and only if a call of the run brought it into the tree that is the
current one at that point, or it is the root of the tree that was sealed last. -/
theorem check_isVerified_iff_of_start {store opened : σ} {now : Nat} {log : Log}
    (hstart : start store config now = (.ok log, opened)) (calls : List Call) (data : String)
    {s : Session σ} (hs : (Session.mk log opened []).run calls = s) :
    (s.log.check data).isVerified = true ↔
      (Session.mk log opened []).Enters calls data s.log.treeIndex ∨
      ∃ t, s.log.history.sealedTrees.getLast? = some t ∧ t.rootHash = data := by
  subst hs
  have hholding : Holding σ config [] log := .recover hstart
  have hfollows := hholding.follows
  have hrun := (Holding.run (s := ⟨log, opened, []⟩) hholding calls).follows
  rw [check, hrun.holds.check_isVerified_iff, ← hrun.holds.blocks_eq]
  exact Session.mem_blocks_run_iff hholding hfollows.holds.blocks_eq hfollows.sealedTrees_eq calls

/-- The event that was refused is found once it was sent again. -/
theorem check_isVerified_refusing :
    start (Watched.ofInner refusing) ⟨1⟩ 0 = (.ok refusedLog.1, refusedLog.2) ∧
    (((Session.mk refusedLog.1 refusedLog.2 []).run refusedCalls).log.check "x").isVerified =
      true := by
  refine ⟨start_refusing, (check_isVerified_iff_of_start start_refusing refusedCalls "x" rfl).2
    (Or.inl ⟨refusedCalls.take 6, 7, [], rfl, ?_, ?_⟩)⟩
  · decide +kernel
  · rw [show refusedCalls.take 6 ++ [Call.record 7 "x"] = refusedCalls from rfl]

/-- The events of a full tree and one more. -/
def letters : List String :=
  ["a", "b", "c", "d", "e"]

def lettersLog : Log × Shelf :=
  match start Shelf.empty ⟨1⟩ 0 with
  | (.ok log, store) => (log, store)
  | (.error _, store) => (blank ⟨1⟩, store)

def lettersRun : Session Shelf :=
  (Session.mk lettersLog.1 lettersLog.2 []).run (letters.map (Call.record 0))

/-- All five events are in the log, and of the first four it reports none as included. It does
so of the root of their tree, which is no event. -/
theorem check_of_sealed :
    start Shelf.empty ⟨1⟩ 0 = (.ok lettersLog.1, lettersLog.2) ∧ lettersRun.accepted = letters ∧
    (∀ data ∈ letters.take 4, (lettersRun.log.check data).isVerified = false) ∧
    Batch.root (letters.take 4) ∉ letters ∧
    (lettersRun.log.check (Batch.root (letters.take 4))).isVerified = true := by
  decide +kernel

end Log

end SealedLog
