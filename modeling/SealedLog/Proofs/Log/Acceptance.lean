import SealedLog.Proofs.Log.Refusal
import Mathlib.Order.Bounds.Basic

/-!
# Which stores a recovery accepts

A journal explains a snapshot if the replay of its events has the snapshot's root at the tree of
the snapshot's index: at the first tree from the empty root on, at any other from the root of the
tree that holds nothing but its link. A recovery over a store that does not fail accepts exactly
the stores of which every snapshot is explained. Otherwise it names the first tree of which one
is not, whether the replay comes to that tree or not.

The trees are compared one after the other and what is left over is looked at last, but what is
left over belongs to trees beyond the replay: so the first fault that is found is also the one of
the lowest index.

Main statement: `recover_accepts_iff`.
-/

namespace SealedLog

open Cut

namespace Log

/-- In the course of a replay of the events the tree of the snapshot's index has its root. -/
def Explains (config : LogConfig) (events : List String) (s : Snapshot) : Prop :=
  ∃ bs t, StateOf (ofEvents config.maxLeavesPerTree events).trees s.treeIndex bs ∧
    Tree.ofBlocks bs config.maxLeavesPerTree = .ok t ∧ s.rootHash = t.rootHash

/-- The inconsistency is about a tree, and says of it that the replay did not have the root of
one of its snapshots, or how many these are if the replay did not come to the tree. -/
inductive Blames (config : LogConfig) (events : List String) (l : List Snapshot) (index : Nat) :
    String → Prop
  | unproduced {s : Snapshot}
      (reached : index < (ofEvents config.maxLeavesPerTree events).trees.length) (mem : s ∈ l)
      (treeIndex_eq : s.treeIndex = index) (fault : ¬ Explains config events s) :
      Blames config events l index (unproducedDetail s.rootHash)
  | surplus (beyond : (ofEvents config.maxLeavesPerTree events).trees.length ≤ index) :
      Blames config events l index (surplusDetail (l.countP (·.treeIndex == index)))

/-- The indices of the snapshots that are not explained. -/
def faultyIndices (config : LogConfig) (events : List String) (l : List Snapshot) : Set Nat :=
  {i | ∃ s ∈ l, s.treeIndex = i ∧ ¬ Explains config events s}

variable {config : LogConfig} {events : List String} {l : List Snapshot} {s : Snapshot} {k : Nat}

theorem explains_iff : Explains config events s ↔
    (found s).IsLegitimate (ofEvents config.maxLeavesPerTree events).trees := by
  constructor
  · rintro ⟨bs, t, hbs, hbuild, hroot⟩
    obtain ⟨_, hbuild', hholds, -⟩ := Tree.ofBlocks_eq_ok bs config.maxLeavesPerTree
    rw [hbuild, Except.ok.injEq] at hbuild'
    subst hbuild'
    exact ⟨bs, hbs, by rw [← hholds.rootHash_eq, ← hroot]; rfl⟩
  · rintro ⟨bs, hbs, hroot⟩
    obtain ⟨t, hbuild, hholds, -⟩ := Tree.ofBlocks_eq_ok bs config.maxLeavesPerTree
    exact ⟨bs, t, hbs, hbuild, by rw [hholds.rootHash_eq, ← hroot]; rfl⟩

theorem Explains.lt_length (h : Explains config events s) :
    s.treeIndex < (ofEvents config.maxLeavesPerTree events).trees.length := by
  obtain ⟨bs, -, hbs, -⟩ := h
  exact hbs.lt_length

/-- A fault is the first one if the trees before it have none. -/
theorem isLeast_faultyIndices (hs : s ∈ l) (hfault : ¬ Explains config events s)
    (hbefore : ∀ t ∈ l, t.treeIndex < s.treeIndex → Explains config events t) :
    IsLeast (faultyIndices config events l) s.treeIndex := by
  refine ⟨⟨s, hs, rfl, hfault⟩, ?_⟩
  rintro _ ⟨t, ht, rfl, htfault⟩
  exact Nat.le_of_not_lt fun hlt => htfault (hbefore t ht hlt)

/-- All snapshots of a tree that was not compared are left over. -/
theorem Waits.countP_eq {waiting : List Found} {index : Nat} (h : Waits l k waiting)
    (hle : k ≤ index) :
    waiting.countP (·.treeIndex == index) = l.countP (·.treeIndex == index) := by
  rw [List.Perm.countP_eq _ h, List.countP_map, List.countP_filter]
  apply List.countP_congr
  intro s _
  rw [Function.comp_apply, Bool.and_eq_true, beq_iff_eq, beq_iff_eq, decide_eq_true_eq]
  constructor
  · exact And.left
  · intro hindex
    exact ⟨hindex, by rwa [← hindex] at hle⟩

variable {σ : Type} [SnapshotStore σ] [LawfulStore σ]

/-- The comparison over a store that does not fail: the trees compared so far have no fault. -/
theorem comparison_isLeast (config : LogConfig) (events : List String) (now : Nat) (store₀ : σ) :
    Comparison (ofEvents config.maxLeavesPerTree events).trees now
      (fun k (store : σ) waiting => Waits (contents store₀) k waiting ∧
        Reliable store ∧ ∀ s ∈ contents store₀, s.treeIndex < k → Explains config events s)
      (fun e => ∃ index detail, e.1 = .recoveryInconsistency index detail ∧
        IsLeast (faultyIndices config events (contents store₀)) index ∧
        Blames config events (contents store₀) index detail) where
  step {k store waiting produced bs} hI hk hbs hproduced := by
    obtain ⟨hwaits, hreliable, hbefore⟩ := hI
    have hresult := reconcile_yields store waiting produced (Batch.snapshot bs k now)
    cases hreconcile : reconcile store waiting produced (Batch.snapshot bs k now) with
    | ok next =>
        rw [hreconcile] at hresult
        obtain ⟨hlater, hhere, -, hnext⟩ := hresult
        refine ⟨hlater ▸ hwaits.later, hnext hreliable, fun s hs hlt => ?_⟩
        rcases Nat.lt_or_eq_of_le (Nat.le_of_lt_succ hlt) with hlt | hindex
        · exact hbefore s hs hlt
        · have hmem := hwaits.mem_iff.2 ⟨s, hs, Nat.le_of_eq hindex.symm, rfl⟩
          subst hindex
          exact explains_iff.2 ((hproduced s.rootHash).1 (hhere _ hmem rfl))
    | error e =>
        rw [hreconcile] at hresult
        rcases hresult with ⟨-, hfailing⟩ | ⟨f, hf, hindex, hroot, rfl⟩
        · exact absurd hreliable hfailing
        · obtain ⟨s, hs, -, rfl⟩ := hwaits.mem_iff.1 hf
          obtain rfl : s.treeIndex = k := hindex
          have hfault : ¬ Explains config events s := fun hexplains =>
            hroot ((hproduced s.rootHash).2 (explains_iff.1 hexplains))
          exact ⟨s.treeIndex, _, rfl, isLeast_faultyIndices hs hfault hbefore,
            .unproduced hbs.lt_length hs rfl hfault⟩
  surplus {store waiting e} hI hsurplus := by
    obtain ⟨hwaits, -, hbefore⟩ := hI
    obtain ⟨index, hindex, rfl⟩ := Option.map_eq_some_iff.1 hsurplus
    obtain ⟨hmem, hmin⟩ := List.min?_eq_some_iff.1 hindex
    obtain ⟨f, hf, hplace⟩ := List.mem_map.1 hmem
    obtain ⟨s, hs, hle, rfl⟩ := hwaits.mem_iff.1 hf
    obtain rfl : s.treeIndex = index := hplace
    have hfault : ¬ Explains config events s := fun hexplains =>
      absurd hexplains.lt_length (Nat.not_lt.2 hle)
    refine ⟨_, _, rfl, isLeast_faultyIndices hs hfault fun t ht hlt => hbefore t ht ?_, ?_⟩
    · -- a snapshot of a tree beyond the replay would be left over too
      by_contra htree
      have hmem := hwaits.mem_iff.2 ⟨t, ht, Nat.le_of_not_lt htree, rfl⟩
      exact absurd (hmin _ (List.mem_map_of_mem hmem)) (Nat.not_le.2 hlt)
    · rw [hwaits.countP_eq hle]
      exact .surplus hle

/-- A recovery over a store that does not fail succeeds if and only if the journal explains every
snapshot of the store. If it does not explain one, the recovery ends in an inconsistency, which
is that of the lowest index with such a snapshot. -/
theorem recover_accepts_iff {store : σ} (hreliable : Reliable store) (config : LogConfig)
    (now : Nat) (events : List String) :
    ((∃ log store', recover store config now events = (.ok log, store')) ↔
      ∀ s ∈ contents store, Explains config events s) ∧
    ((∃ s ∈ contents store, ¬ Explains config events s) →
      ∃ index detail store',
        recover store config now events = (.error (.recoveryInconsistency index detail), store') ∧
        IsLeast (faultyIndices config events (contents store)) index ∧
        Blames config events (contents store) index detail) := by
  obtain ⟨listed, hload⟩ := hreliable.exists_load
  have hresult := recover_yields events (comparison_isLeast config events now store) store (by
    rw [hload]
    exact ⟨waits_zero (LawfulStore.load_ok hload), hreliable, fun s _ hlt =>
      absurd hlt (Nat.not_lt_zero _)⟩)
  rcases hresult with
    ⟨log, store', waiting, hrecover, -, ⟨hwaits, -, hall⟩, hsurplus⟩ |
      ⟨_, store', hrecover, index, detail, rfl, hleast, hblames⟩
  · have hexplains : ∀ s ∈ contents store, Explains config events s := by
      intro s hs
      refine hall s hs ?_
      by_contra hlt
      have hmem := hwaits.mem_iff.2 ⟨s, hs, Nat.le_of_not_lt hlt, rfl⟩
      rw [(surplus?_eq_none_iff _).1 hsurplus] at hmem
      exact absurd hmem List.not_mem_nil
    refine ⟨iff_of_true ⟨log, store', hrecover⟩ hexplains, ?_⟩
    rintro ⟨s, hs, hfault⟩
    exact absurd (hexplains s hs) hfault
  · obtain ⟨s, hs, -, hfault⟩ := hleast.1
    refine ⟨iff_of_false ?_ fun hall => hfault (hall s hs), fun _ =>
      ⟨index, detail, store', hrecover, hleast, hblames⟩⟩
    rintro ⟨log, store'', hok⟩
    rw [hrecover] at hok
    cases hok

/-- The journal explains both snapshots of the store; without its last event it does not come to
the second tree, and that is the one that is named. -/
theorem recover_accepts_shelved :
    Reliable shelved ∧ (∃ log store', recover shelved ⟨1⟩ 1 blanks = (.ok log, store')) ∧
    ∃ store', recover shelved ⟨1⟩ 1 (blanks.take 4) =
      (.error (.recoveryInconsistency 1 (surplusDetail 1)), store') := by
  have hreliable := reliable_shelf shelved
  refine ⟨hreliable, (recover_accepts_iff hreliable ⟨1⟩ 1 blanks).1.2 fun s hs =>
    explains_iff.2 (legitimate_shelved s hs), ?_⟩
  have hone : (ofEvents (LogConfig.mk 1).maxLeavesPerTree (blanks.take 4)).trees =
      [["", "", "", ""]] := rfl
  obtain ⟨s, hs, hindex⟩ := mem_shelved.2.1
  have hfault : ¬ Explains ⟨1⟩ (blanks.take 4) s := fun hexplains => by
    have hlt := hexplains.lt_length
    rw [hone, hindex] at hlt
    exact absurd hlt (by decide)
  obtain ⟨index, detail, store', hrecover, hleast, hblames⟩ :=
    (recover_accepts_iff hreliable ⟨1⟩ 1 (blanks.take 4)).2 ⟨s, hs, hfault⟩
  have hle : index ≤ 1 := hleast.2 ⟨s, hs, hindex, hfault⟩
  -- the root of the first tree is one that the replay has
  have hne : index ≠ 0 := by
    rintro rfl
    obtain ⟨t, ht, htindex, htfault⟩ := hleast.1
    refine htfault (explains_iff.2 ⟨["", "", "", ""], ?_, ?_⟩)
    · rw [hone]
      exact ⟨⟨_, by rw [show (found t).treeIndex = 0 from htindex]; rfl, List.prefix_refl _⟩,
        fun _ => by simp⟩
    · exact (mem_shelved.2.2 t ht htindex).trans root_blank.symm
  obtain rfl : index = 1 := by omega
  have hcount : (contents shelved).countP (·.treeIndex == 1) = 1 := by
    have hroots := congrArg (List.countP (·.1 == 1)) recordedRoots_shelved
    rw [Chain.recordedRoots, List.countP_map] at hroots
    exact hroots
  cases hblames with
  | unproduced reached => exact absurd reached (by rw [hone]; decide)
  | surplus => exact ⟨store', by rw [hrecover, hcount]⟩

end Log

end SealedLog
