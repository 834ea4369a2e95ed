import SealedLog.Chain.Audit
import SealedLog.Proofs.Tree.Content

/-!
# Chains without faults

What it means that `audit` has nothing to report. `IsGenuine` says it of one snapshot, that
it is the state of the tree over its own blocks, and `Intact` of a list of them in order:
the indices go up by one from zero, and every tree but the first begins with the root of the
tree before it.
-/

namespace SealedLog

namespace Chain

theorem firstDifference?_eq_none_iff (xs ys : List (List Hash)) :
    firstDifference? xs ys = none ↔ xs = ys := by
  rw [firstDifference?, List.find?_eq_none]
  constructor
  · intro h
    apply List.ext_getElem?
    intro l
    by_cases hl : l < max xs.length ys.length
    · simpa using h l (List.mem_range.2 hl)
    · rw [List.getElem?_eq_none (by omega), List.getElem?_eq_none (by omega)]
  · rintro rfl l -
    simp

def recordedRoots (snapshots : List Snapshot) : List (Nat × Hash) :=
  snapshots.map fun s => (s.treeIndex, s.rootHash)

/-- The hashes of a snapshot are those of the tree over its blocks. -/
structure IsGenuine (s : Snapshot) : Prop where
  root_eq : s.rootHash = Batch.root s.blocks
  levels_eq : s.levelHashes = Batch.levelHashes s.blocks

theorem contentFaults_eq_nil_iff (s : Snapshot) : contentFaults s = [] ↔ IsGenuine s := by
  obtain ⟨rebuilt, hrebuilt, hholds, -⟩ := Tree.ofBlocks_eq_ok s.blocks Tree.defaultMaxLeaves
  simp only [contentFaults, hrebuilt, hholds.rootHash_eq, hholds.levelHashes_eq]
  constructor
  · intro h
    obtain ⟨hroot, hlevels⟩ := List.append_eq_nil_iff.1 h
    refine ⟨?_, ?_⟩
    · split at hroot
      · next heq => exact heq.symm
      · simp at hroot
    · rw [Option.toList_eq_nil_iff, Option.map_eq_none_iff, firstDifference?_eq_none_iff]
        at hlevels
      exact hlevels.symm
  · rintro ⟨hroot, hlevels⟩
    have hnone := (firstDifference?_eq_none_iff _ _).2 hlevels.symm
    rw [hroot, if_pos rfl, hnone]
    rfl

theorem isGenuine_snapshot (bs : List String) (treeIndex now : Nat) :
    IsGenuine (Batch.snapshot bs treeIndex now) where
  root_eq := by
    rw [Snapshot.blocks, Batch.snapshot, Batch.flatten_leaves]
  levels_eq := by
    rw [Snapshot.blocks, Batch.snapshot, Batch.flatten_leaves]

theorem firstBlock?_snapshot (bs : List String) (treeIndex now : Nat) :
    (Batch.snapshot bs treeIndex now).firstBlock? = bs.head? := by
  rw [Snapshot.firstBlock?, Batch.snapshot]
  cases bs with
  | nil => rw [Batch.leaves_nil]; rfl
  | cons b bs => rw [Batch.leaves_of_ne_nil (by simp)]; rfl

def nextIndex (previous? : Option Snapshot) : Nat :=
  previous?.elim 0 fun previous => previous.treeIndex + 1

/-- The snapshots are an unbroken chain of genuine ones after `previous?`. -/
def Intact : (previous? : Option Snapshot) → List Snapshot → Prop
  | _, [] => True
  | previous?, s :: rest =>
    s.treeIndex = nextIndex previous? ∧
      (∀ previous ∈ previous?, s.firstBlock? = some previous.rootHash) ∧
      IsGenuine s ∧ Intact (some s) rest

theorem missingTrees_eq_nil_iff (first next : Nat) :
    missingTrees first next = [] ↔ next ≤ first := by
  rw [missingTrees, List.map_eq_nil_iff, List.range'_eq_nil_iff]
  omega

/-- Nothing is reported about a snapshot in its place if it is the next of the chain. -/
theorem faultsOf_eq_nil_iff {previous? : Option Snapshot} {s : Snapshot}
    (hplace : nextIndex previous? ≤ s.treeIndex) :
    faultsOf previous? s = [] ↔ s.treeIndex = nextIndex previous? ∧
      (∀ previous ∈ previous?, s.firstBlock? = some previous.rootHash) ∧ IsGenuine s := by
  rw [faultsOf, List.append_eq_nil_iff, List.map_eq_nil_iff, contentFaults_eq_nil_iff,
    ← and_assoc]
  apply and_congr_left
  intro _
  cases previous? with
  | none =>
      rw [linkFaults, missingTrees_eq_nil_iff]
      simp [nextIndex]
  | some previous =>
      have hdue : nextIndex (some previous) = previous.treeIndex + 1 := rfl
      rw [hdue] at hplace ⊢
      rw [linkFaults, List.append_eq_nil_iff, missingTrees_eq_nil_iff]
      constructor
      · rintro ⟨hle, hlink⟩
        have hindex : s.treeIndex = previous.treeIndex + 1 := by omega
        refine ⟨hindex, ?_⟩
        intro p hp
        rw [Option.mem_some_iff] at hp
        subst hp
        by_cases hfirst : s.firstBlock? = some previous.rootHash
        · exact hfirst
        · rw [if_pos ⟨hindex, hfirst⟩] at hlink
          simp at hlink
      · rintro ⟨hindex, hlink⟩
        refine ⟨by omega, ?_⟩
        rw [if_neg]
        rintro ⟨-, hne⟩
        exact hne (hlink previous rfl)

/-- A list in the order of its indices is reported about if and only if it is broken. -/
theorem faults_auditFrom_eq_nil_iff {previous? : Option Snapshot} {l : List Snapshot}
    (hsorted : (previous?.toList ++ l).Pairwise fun a b => a.treeIndex ≤ b.treeIndex) :
    (auditFrom previous? l).faults = [] ↔ Intact previous? l := by
  induction l generalizing previous? with
  | nil => simp [auditFrom, Intact]
  | cons s rest ih =>
      have hrest : (s :: rest).Pairwise fun a b => a.treeIndex ≤ b.treeIndex :=
        hsorted.sublist (List.sublist_append_right _ _)
      rw [auditFrom, Intact]
      cases hrep : repeats previous? s with
      | true =>
          simp only [if_true]
          refine ⟨fun h => by simp at h, ?_⟩
          rintro ⟨hindex, -⟩
          cases previous? with
          | none => simp [repeats] at hrep
          | some previous =>
              rw [repeats, Option.any_some, beq_iff_eq] at hrep
              change s.treeIndex = previous.treeIndex + 1 at hindex
              omega
      | false =>
          have hplace : nextIndex previous? ≤ s.treeIndex := by
            cases previous? with
            | none => exact Nat.zero_le _
            | some previous =>
                rw [repeats, Option.any_some, beq_eq_false_iff_ne] at hrep
                have hle : previous.treeIndex ≤ s.treeIndex :=
                  (List.pairwise_cons.1 hsorted).1 s (by simp)
                change previous.treeIndex + 1 ≤ s.treeIndex
                omega
          simp only [Bool.false_eq_true, if_false]
          have htail : (auditFrom (some s) rest).faults = [] ↔ Intact (some s) rest := ih hrest
          rw [List.append_eq_nil_iff, faultsOf_eq_nil_iff hplace, htail, and_assoc, and_assoc]

theorem treesChecked_auditFrom {previous? : Option Snapshot} {l : List Snapshot}
    (h : Intact previous? l) : (auditFrom previous? l).treesChecked = l.length := by
  induction l generalizing previous? with
  | nil => rfl
  | cons s rest ih =>
      obtain ⟨hindex, -, -, hrest⟩ := h
      have hrep : repeats previous? s = false := by
        cases previous? with
        | none => rfl
        | some previous =>
            change s.treeIndex = previous.treeIndex + 1 at hindex
            rw [repeats, Option.any_some, beq_eq_false_iff_ne]
            omega
      rw [auditFrom, hrep]
      simp only [Bool.false_eq_true, if_false]
      rw [ih hrest, List.length_cons]

theorem pairwise_byIndex (snapshots : List Snapshot) :
    (byIndex snapshots).Pairwise fun a b => a.treeIndex ≤ b.treeIndex := by
  have hsorted : (byIndex snapshots).Pairwise fun a b =>
      decide (a.treeIndex ≤ b.treeIndex) = true :=
    List.pairwise_mergeSort
      (fun a b c hab hbc => by
        rw [decide_eq_true_eq] at hab hbc ⊢
        omega)
      (fun a b => by
        rw [Bool.or_eq_true, decide_eq_true_eq, decide_eq_true_eq]
        omega) snapshots
  exact hsorted.imp of_decide_eq_true

/-- The audit reports nothing if and only if the snapshots are an unbroken chain. -/
theorem faults_audit_eq_nil_iff (snapshots : List Snapshot) :
    (audit snapshots).faults = [] ↔ Intact none (byIndex snapshots) :=
  faults_auditFrom_eq_nil_iff (pairwise_byIndex snapshots)

theorem mem_byIndex {snapshots : List Snapshot} {s : Snapshot} :
    s ∈ byIndex snapshots ↔ s ∈ snapshots :=
  List.mem_mergeSort

theorem audit_of_intact {l : List Snapshot}
    (hsorted : l.Pairwise fun a b => a.treeIndex ≤ b.treeIndex) (h : Intact none l) :
    audit l = ⟨l.length, []⟩ := by
  have hsort : byIndex l = l :=
    List.mergeSort_of_pairwise (hsorted.imp fun hle => decide_eq_true hle)
  have hfaults := (faults_audit_eq_nil_iff l).2 (by rwa [hsort])
  have hchecked := treesChecked_auditFrom h
  rw [audit, hsort] at hfaults ⊢
  rw [← hchecked, ← hfaults]

theorem intact_of_getElem? {previous? : Option Snapshot} {l : List Snapshot}
    (hplace : ∀ {i : Nat} {s : Snapshot}, l[i]? = some s →
      s.treeIndex = nextIndex previous? + i ∧ IsGenuine s)
    (hfirst : ∀ previous ∈ previous?, ∀ s ∈ l.head?, s.firstBlock? = some previous.rootHash)
    (hlink : ∀ {i : Nat} {s t : Snapshot}, l[i]? = some s → l[i + 1]? = some t →
      t.firstBlock? = some s.rootHash) : Intact previous? l := by
  induction l generalizing previous? with
  | nil => trivial
  | cons a rest ih =>
      obtain ⟨hindex, hgenuine⟩ := hplace (i := 0) (s := a) rfl
      rw [Nat.add_zero] at hindex
      refine ⟨hindex, fun previous hprevious => hfirst previous hprevious a rfl, hgenuine,
        ih ?_ ?_ ?_⟩
      · intro i s hi
        obtain ⟨hs, hg⟩ := hplace (i := i + 1) (s := s) hi
        refine ⟨?_, hg⟩
        change s.treeIndex = a.treeIndex + 1 + i
        omega
      · intro previous hprevious s hs
        rw [Option.mem_some_iff] at hprevious
        rw [← hprevious]
        refine hlink (i := 0) rfl ?_
        rwa [List.getElem?_cons_succ, ← List.head?_eq_getElem?]
      · intro i s t hs ht
        exact hlink (i := i + 1) hs ht

/-- In an unbroken chain every snapshot is genuine, and its index is its place. -/
theorem Intact.of_getElem? {previous? : Option Snapshot} {l : List Snapshot}
    (h : Intact previous? l) {i : Nat} {s : Snapshot} (hi : l[i]? = some s) :
    IsGenuine s ∧ s.treeIndex = nextIndex previous? + i := by
  induction l generalizing previous? i with
  | nil => simp at hi
  | cons a rest ih =>
      obtain ⟨hindex, -, hgenuine, hrest⟩ := h
      cases i with
      | zero =>
          rw [List.getElem?_cons_zero, Option.some.injEq] at hi
          rw [← hi]
          exact ⟨hgenuine, hindex⟩
      | succ i =>
          rw [List.getElem?_cons_succ] at hi
          obtain ⟨hs, hplace⟩ := ih hrest hi
          change s.treeIndex = a.treeIndex + 1 + i at hplace
          exact ⟨hs, by omega⟩

/-- Every tree of an unbroken chain but the first begins with the root of the one before. -/
theorem Intact.firstBlock? {previous? : Option Snapshot} {l : List Snapshot}
    (h : Intact previous? l) {i : Nat} {s t : Snapshot} (hs : l[i]? = some s)
    (ht : l[i + 1]? = some t) : t.firstBlock? = some s.rootHash := by
  induction l generalizing previous? i with
  | nil => simp at hs
  | cons a rest ih =>
      obtain ⟨-, -, -, hrest⟩ := h
      rw [List.getElem?_cons_succ] at ht
      cases i with
      | zero =>
          rw [List.getElem?_cons_zero, Option.some.injEq] at hs
          cases rest with
          | nil => simp at ht
          | cons b rest =>
              rw [List.getElem?_cons_zero, Option.some.injEq] at ht
              rw [← ht, ← hs]
              exact hrest.2.1 a rfl
      | succ i =>
          rw [List.getElem?_cons_succ] at hs
          exact ih hrest hs ht

end Chain

end SealedLog
