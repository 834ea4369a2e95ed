import SealedLog.Log.Basic
import SealedLog.Proofs.Log.Cut
import SealedLog.Proofs.Tree.Content

/-!
# Logs that follow a cut

A log follows a cut when its current tree holds the current blocks and its history the roots
of the closed trees. What it knows of its store is not part of this. A log has two moves, to
seal its tree and to append to it, and after either it follows the cut that made the same
move; neither can fail. A seal can be taken back, and that is as if it had not been.
-/

namespace SealedLog

def Cut.sealedTrees (c : Cut) : List SealedTree :=
  c.closed.zipIdx.map fun (bs, i) => ⟨i, Batch.root bs⟩

theorem Cut.sealedTrees_next (c : Cut) :
    c.next.sealedTrees = c.sealedTrees ++ [⟨c.closed.length, Batch.root c.current⟩] := by
  simp [sealedTrees, trees, List.zipIdx_append]

@[simp]
theorem History.pop_record (h : History) (t : SealedTree) : (h.record t).pop = (some t, h) := by
  simp [pop, record]

namespace Log

/-- The log holds the events of the cut, tree by tree. -/
structure Follows (log : Log) (config : LogConfig) (c : Cut) : Prop where
  config_eq : log.config = config
  holds : log.tree.Holds c.current
  maxLeaves_eq : log.tree.maxLeaves = max config.maxLeavesPerTree 1
  treeIndex_eq : log.treeIndex = c.closed.length
  sealedTrees_eq : log.history.sealedTrees = c.sealedTrees

variable {log : Log} {config : LogConfig} {c : Cut}

theorem follows_blank (config : LogConfig) : (blank config).Follows config .empty where
  config_eq := rfl
  holds := Tree.holds_withCapacity _
  maxLeaves_eq := rfl
  treeIndex_eq := rfl
  sealedTrees_eq := rfl

/-- What a log knows of its store does not matter. -/
theorem Follows.of_tree_eq (h : log.Follows config c) {log' : Log}
    (hconfig : log'.config = log.config) (htree : log'.tree = log.tree)
    (hindex : log'.treeIndex = log.treeIndex) (hhistory : log'.history = log.history) :
    log'.Follows config c where
  config_eq := by rw [hconfig, h.config_eq]
  holds := by
    rw [htree]
    exact h.holds
  maxLeaves_eq := by rw [htree, h.maxLeaves_eq]
  treeIndex_eq := by rw [hindex, h.treeIndex_eq]
  sealedTrees_eq := by rw [hhistory, h.sealedTrees_eq]

theorem Follows.isFull_iff (h : log.Follows config c) (hc : c.Valid config.maxLeavesPerTree) :
    log.tree.isFull = true ↔ Cut.capacity config.maxLeavesPerTree ≤ c.current.length := by
  have hroom := hc.room
  rw [h.holds.isFull_iff (by rw [h.maxLeaves_eq]; omega), h.maxLeaves_eq]
  simp only [Cut.capacity, leafCapacity] at hroom ⊢
  omega

theorem Follows.snapshot_eq (h : log.Follows config c) (now : Nat) :
    log.snapshot now = Batch.snapshot c.current c.closed.length now := by
  rw [snapshot, h.holds.ofTree_eq, h.treeIndex_eq]

theorem Follows.rootHash_eq (h : log.Follows config c) :
    log.rootHash = Batch.root c.current :=
  h.holds.rootHash_eq

theorem Follows.append_eq (h : log.Follows config c) (payload : String) :
    ∃ tree, log.tree.append payload = .ok tree ∧
      Follows { log with tree } config (c.push payload) := by
  obtain ⟨tree, happend, hholds, hmax⟩ := h.holds.append payload
  exact ⟨tree, happend, h.config_eq, hholds, by rw [hmax, h.maxLeaves_eq], h.treeIndex_eq,
    h.sealedTrees_eq⟩

theorem Follows.sealTree_eq (h : log.Follows config c) :
    ∃ next, log.sealTree = .ok (next, ⟨c.closed.length, Batch.root c.current⟩) ∧
      next.Follows config c.next ∧ next.persistedRoot? = none ∧
      next.pendingWrite = log.pendingWrite := by
  obtain ⟨tree, happend, hholds, hmax⟩ :=
    (Tree.holds_withCapacity config.maxLeavesPerTree).append (Batch.root c.current)
  refine ⟨{ log with
    tree
    treeIndex := log.treeIndex + 1
    history := log.history.record ⟨c.closed.length, Batch.root c.current⟩
    persistedRoot? := none }, ?_, ⟨h.config_eq, hholds, hmax, ?_, ?_⟩, rfl, rfl⟩
  · simp only [sealTree, h.config_eq, h.holds.rootHash_eq, h.treeIndex_eq, happend, bind,
      Except.bind]
    rfl
  · simp only [h.treeIndex_eq, Cut.closed_next, Cut.length_trees]
  · simp only [History.record, h.sealedTrees_eq, Cut.sealedTrees_next]

/-- To put a sealed tree back is to undo the seal, if the tree had been written. -/
theorem undoSeal_of_sealTree {next : Log} {sealedTree : SealedTree}
    (hseal : log.sealTree = .ok (next, sealedTree)) (hwritten : log.pendingWrite = false) :
    next.undoSeal log.tree log.persistedRoot? = log := by
  simp only [sealTree, bind, Except.bind] at hseal
  split at hseal
  · cases hseal
  · cases hseal
    simp only [undoSeal, History.pop_record, Nat.add_sub_cancel, ← hwritten]

end Log

end SealedLog
