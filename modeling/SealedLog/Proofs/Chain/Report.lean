import SealedLog.Proofs.Chain.Intact
import Mathlib.Data.Finset.Card
import Mathlib.Data.Nat.Find

/-!
# What an audit reports

The report of an audit, said tree by tree. An audit goes through the snapshots in one pass
and remembers the last one that stood for a tree; here the faults at an index are read off
the whole list: which snapshot stands for that tree and for the one before, what its blocks
hash to, and how many more snapshots there are.

`audit_eq_report` says that the two come to the same, whatever the list. Two things follow: an
audit has nothing to report about exactly those lists that hold one self-consistent snapshot
for each index of an initial run, linked to one another; and where no index is repeated the
order of the list does not matter.
-/

namespace SealedLog

namespace Chain

/-- The snapshot that stands for a tree is the first one of its index. -/
def representative? (snapshots : List Snapshot) (i : Nat) : Option Snapshot :=
  snapshots.find? (·.treeIndex == i)

/-- The snapshot that stands for the tree before the one of an index. -/
def predecessor? (snapshots : List Snapshot) : Nat → Option Snapshot
  | 0 => none
  | i + 1 => representative? snapshots i

/-- The number of snapshots of one index. -/
def copies (snapshots : List Snapshot) (i : Nat) : Nat :=
  snapshots.countP (·.treeIndex == i)

/-- The number above the largest index, or zero if there is no snapshot. -/
def bound (snapshots : List Snapshot) : Nat :=
  snapshots.foldr (fun s n => max (s.treeIndex + 1) n) 0

theorem exists_getElem?_ne {xs ys : List (List Hash)} (h : xs ≠ ys) :
    ∃ l : Nat, xs[l]? ≠ ys[l]? := by
  by_contra hall
  push Not at hall
  exact h (List.ext_getElem? hall)

/-- The lowest level at which two lists of levels differ. -/
def lowestDifference? (xs ys : List (List Hash)) : Option Nat :=
  if h : xs = ys then none else some (Nat.find (exists_getElem?_ne h))

/-- What is wrong at one index. -/
def kindsAt (snapshots : List Snapshot) (i : Nat) : List FaultKind :=
  match representative? snapshots i with
  | none => [.missingTree]
  | some s =>
    (if (predecessor? snapshots i).any (fun p => s.firstBlock? != some p.rootHash) then
      [.brokenLink] else []) ++
    (if Batch.root s.blocks = s.rootHash then []
      else [.rootMismatch s.rootHash (Batch.root s.blocks)]) ++
    ((lowestDifference? (Batch.levelHashes s.blocks) s.levelHashes).map .levelMismatch).toList ++
    List.replicate (copies snapshots i - 1) .duplicateTree

def faultsAt (snapshots : List Snapshot) (i : Nat) : List ChainFault :=
  (kindsAt snapshots i).map (⟨i, ·⟩)

/-- The report by indices: each index that occurs is one tree checked, and the faults come
in the order of the indices up to the largest. -/
def report (snapshots : List Snapshot) : ChainReport where
  treesChecked := (snapshots.map Snapshot.treeIndex).toFinset.card
  faults := (List.range (bound snapshots)).flatMap (faultsAt snapshots)

/-! ## The levels -/

theorem firstDifference?_eq_lowestDifference? (xs ys : List (List Hash)) :
    firstDifference? xs ys = lowestDifference? xs ys := by
  rw [lowestDifference?]
  split
  · next h => exact (firstDifference?_eq_none_iff xs ys).2 h
  · next h =>
      obtain ⟨hdiffer, hbelow⟩ := (Nat.find_eq_iff (exists_getElem?_ne h)).1 rfl
      have hlt : Nat.find (exists_getElem?_ne h) < max xs.length ys.length := by
        by_contra hge
        rw [List.getElem?_eq_none (by omega), List.getElem?_eq_none (by omega)] at hdiffer
        exact hdiffer rfl
      rw [firstDifference?, List.find?_range_eq_some]
      refine ⟨by simpa using hdiffer, List.mem_range.2 hlt, fun l hl => ?_⟩
      simpa using hbelow l hl

theorem contentFaults_eq (s : Snapshot) :
    contentFaults s =
      (if Batch.root s.blocks = s.rootHash then []
        else [.rootMismatch s.rootHash (Batch.root s.blocks)]) ++
      ((lowestDifference? (Batch.levelHashes s.blocks) s.levelHashes).map
        .levelMismatch).toList := by
  obtain ⟨rebuilt, hrebuilt, hholds, -⟩ := Tree.ofBlocks_eq_ok s.blocks Tree.defaultMaxLeaves
  simp only [contentFaults, hrebuilt, hholds.rootHash_eq, hholds.levelHashes_eq,
    firstDifference?_eq_lowestDifference?]

/-! ## Snapshots by index -/

theorem representative?_eq_head?_filter (snapshots : List Snapshot) (i : Nat) :
    representative? snapshots i = (snapshots.filter (·.treeIndex == i)).head? :=
  List.head?_filter.symm

theorem copies_eq_length_filter (snapshots : List Snapshot) (i : Nat) :
    copies snapshots i = (snapshots.filter (·.treeIndex == i)).length :=
  List.countP_eq_length_filter

theorem representative?_cons_self (s : Snapshot) (l : List Snapshot) :
    representative? (s :: l) s.treeIndex = some s := by
  simp [representative?]

theorem representative?_cons_of_ne {s : Snapshot} {i : Nat} (h : s.treeIndex ≠ i)
    (l : List Snapshot) : representative? (s :: l) i = representative? l i := by
  simp [representative?, h]

theorem copies_cons_self (s : Snapshot) (l : List Snapshot) :
    copies (s :: l) s.treeIndex = copies l s.treeIndex + 1 := by
  simp [copies]

theorem copies_cons_of_ne {s : Snapshot} {i : Nat} (h : s.treeIndex ≠ i) (l : List Snapshot) :
    copies (s :: l) i = copies l i := by
  simp [copies, h]

theorem representative?_eq_none {l : List Snapshot} {i : Nat}
    (h : ∀ s ∈ l, s.treeIndex ≠ i) : representative? l i = none := by
  rw [representative?, List.find?_eq_none]
  intro s hs
  simpa using h s hs

@[simp] theorem bound_cons (s : Snapshot) (l : List Snapshot) :
    bound (s :: l) = max (s.treeIndex + 1) (bound l) := rfl

theorem bound_perm {xs ys : List Snapshot} (h : xs.Perm ys) : bound xs = bound ys := by
  have : LeftCommutative fun (s : Snapshot) n => max (s.treeIndex + 1) n :=
    ⟨fun _ _ _ => Nat.max_left_comm _ _ _⟩
  exact h.foldr_eq 0

/-- What is wrong at an index depends on who stands for it and for the one before, and on the
number of copies. -/
theorem faultsAt_congr {xs ys : List Snapshot} {i : Nat}
    (hrepresentative : ∀ j, i ≤ j + 1 → representative? xs j = representative? ys j)
    (hcopies : copies xs i = copies ys i) : faultsAt xs i = faultsAt ys i := by
  have hpredecessor : predecessor? xs i = predecessor? ys i := by
    cases i with
    | zero => rfl
    | succ i => exact hrepresentative i (Nat.le_refl _)
  rw [faultsAt, faultsAt, kindsAt, kindsAt, hrepresentative i (Nat.le_succ i), hpredecessor,
    hcopies]

/-- Sorting keeps the order of the snapshots of one index. -/
theorem filter_byIndex (snapshots : List Snapshot) (i : Nat) :
    (byIndex snapshots).filter (·.treeIndex == i) = snapshots.filter (·.treeIndex == i) := by
  have hsame : (snapshots.filter (·.treeIndex == i)).Pairwise fun a b =>
      decide (a.treeIndex ≤ b.treeIndex) = true := by
    refine List.pairwise_of_forall_mem_list fun a ha b hb => ?_
    rw [List.mem_filter, beq_iff_eq] at ha hb
    rw [decide_eq_true_eq, ha.2, hb.2]
  have hsublist : (snapshots.filter (·.treeIndex == i)).Sublist (byIndex snapshots) :=
    List.sublist_mergeSort
      (fun a b c hab hbc => by
        rw [decide_eq_true_eq] at hab hbc ⊢
        omega)
      (fun a b => by
        rw [Bool.or_eq_true, decide_eq_true_eq, decide_eq_true_eq]
        omega)
      hsame List.filter_sublist
  have hfiltered := hsublist.filter (·.treeIndex == i)
  rw [List.filter_filter] at hfiltered
  simp only [Bool.and_self] at hfiltered
  refine (hfiltered.eq_of_length ?_).symm
  exact ((List.mergeSort_perm _ _).filter _).length_eq.symm

theorem faultsAt_byIndex (snapshots : List Snapshot) (i : Nat) :
    faultsAt (byIndex snapshots) i = faultsAt snapshots i := by
  apply faultsAt_congr
  · intro j _
    rw [representative?_eq_head?_filter, representative?_eq_head?_filter, filter_byIndex]
  · rw [copies_eq_length_filter, copies_eq_length_filter, filter_byIndex]

/-! ## The pass -/

section Pass

variable {previous? : Option Snapshot} {s : Snapshot} {rest : List Snapshot}

theorem faultsAt_of_absent {l : List Snapshot} {i : Nat} (h : ∀ s ∈ l, s.treeIndex ≠ i) :
    faultsAt l i = [⟨i, .missingTree⟩] := by
  rw [faultsAt, kindsAt, representative?_eq_none h]
  rfl

theorem linkFaults_eq (previous? : Option Snapshot) (s : Snapshot) :
    linkFaults previous? s = missingTrees (nextIndex previous?) s.treeIndex ++
      if (previous?.filter (·.treeIndex + 1 == s.treeIndex)).any
        (fun p => s.firstBlock? != some p.rootHash) then [⟨s.treeIndex, .brokenLink⟩] else [] := by
  cases previous? with
  | none => simp [linkFaults, nextIndex]
  | some p =>
      by_cases hnext : p.treeIndex + 1 = s.treeIndex
      · simp [linkFaults, nextIndex, Option.filter, hnext]
      · simp [linkFaults, nextIndex, Option.filter, hnext, Ne.symm hnext]

/-- In order, only the snapshot just before can stand for the tree before. -/
theorem predecessor?_eq_filter
    (hsorted : (previous?.toList ++ s :: rest).Pairwise fun a b => a.treeIndex ≤ b.treeIndex)
    (hplace : nextIndex previous? ≤ s.treeIndex) :
    predecessor? (previous?.toList ++ s :: rest) s.treeIndex =
      previous?.filter (·.treeIndex + 1 == s.treeIndex) := by
  have hlater : ∀ t ∈ s :: rest, s.treeIndex ≤ t.treeIndex := by
    intro t ht
    rcases List.mem_cons.1 ht with rfl | ht
    · exact Nat.le_refl _
    · exact (List.pairwise_cons.1 (hsorted.sublist (List.sublist_append_right _ _))).1 t ht
  cases hindex : s.treeIndex with
  | zero =>
      cases previous? with
      | none => rfl
      | some p => simp [predecessor?, Option.filter]
  | succ i =>
      have habsent : representative? (s :: rest) i = none :=
        representative?_eq_none fun t ht => by
          have hle := hlater t ht
          omega
      cases previous? with
      | none => exact habsent
      | some p =>
          change representative? (p :: s :: rest) i = _
          by_cases hp : p.treeIndex = i
          · subst hp
            simp [representative?_cons_self, Option.filter]
          · rw [representative?_cons_of_ne hp, habsent]
            simp [Option.filter, hp]

/-- A snapshot that stands for its tree accounts for what is wrong from the index after the
one before it up to its own, together with those that repeat its index. -/
theorem faultsOf_append_replicate
    (hsorted : (previous?.toList ++ s :: rest).Pairwise fun a b => a.treeIndex ≤ b.treeIndex)
    (hplace : nextIndex previous? ≤ s.treeIndex) :
    faultsOf previous? s ++ List.replicate (copies rest s.treeIndex)
        ⟨s.treeIndex, .duplicateTree⟩ =
      (List.range' (nextIndex previous?) (s.treeIndex + 1 - nextIndex previous?)).flatMap
        (faultsAt (previous?.toList ++ s :: rest)) := by
  have hrest : ∀ t ∈ rest, s.treeIndex ≤ t.treeIndex :=
    (List.pairwise_cons.1 (hsorted.sublist (List.sublist_append_right _ _))).1
  have hbefore : ∀ p ∈ previous?, p.treeIndex < nextIndex previous? := by
    rintro p rfl
    exact Nat.lt_succ_self _
  have hgap : (List.range' (nextIndex previous?) (s.treeIndex - nextIndex previous?)).flatMap
      (faultsAt (previous?.toList ++ s :: rest)) =
        missingTrees (nextIndex previous?) s.treeIndex := by
    rw [missingTrees, List.map_eq_flatMap]
    refine List.flatMap_congr fun i hi => faultsAt_of_absent fun t ht => ?_
    rw [List.mem_range'_1] at hi
    rcases List.mem_append.1 ht with ht | ht
    · have hlt := hbefore t (by simpa using ht)
      omega
    · rcases List.mem_cons.1 ht with rfl | ht
      · omega
      · have hle := hrest t ht
        omega
  have hself : representative? (previous?.toList ++ s :: rest) s.treeIndex = some s ∧
      copies (previous?.toList ++ s :: rest) s.treeIndex = copies rest s.treeIndex + 1 := by
    cases previous? with
    | none => exact ⟨representative?_cons_self s rest, copies_cons_self s rest⟩
    | some p =>
        have hne : p.treeIndex ≠ s.treeIndex := by
          have hlt := hbefore p rfl
          omega
        exact ⟨(representative?_cons_of_ne hne _).trans (representative?_cons_self s rest),
          (copies_cons_of_ne hne _).trans (copies_cons_self s rest)⟩
  rw [show s.treeIndex + 1 - nextIndex previous? =
      (s.treeIndex - nextIndex previous?) + 1 by omega, List.range'_1_concat,
    List.flatMap_append, hgap, show nextIndex previous? + (s.treeIndex - nextIndex previous?) =
      s.treeIndex by omega, List.flatMap_singleton, faultsOf, linkFaults_eq, faultsAt, kindsAt,
    hself.1, hself.2, predecessor?_eq_filter hsorted hplace, contentFaults_eq]
  simp only [List.map_append, List.append_assoc, Nat.add_sub_cancel, List.map_replicate]
  congr 2
  split <;> rfl

theorem exists_of_repeats (h : repeats previous? s = true) :
    ∃ p, previous? = some p ∧ p.treeIndex = s.treeIndex := by
  cases previous? with
  | none => cases h
  | some p => exact ⟨p, rfl, by simpa [repeats] using h⟩

theorem nextIndex_le_of_repeats_eq_false
    (hsorted : (previous?.toList ++ s :: rest).Pairwise fun a b => a.treeIndex ≤ b.treeIndex)
    (h : repeats previous? s = false) : nextIndex previous? ≤ s.treeIndex := by
  cases previous? with
  | none => exact Nat.zero_le _
  | some p =>
      have hle : p.treeIndex ≤ s.treeIndex :=
        (List.pairwise_cons.1 hsorted).1 s (List.mem_cons_self ..)
      have hne : p.treeIndex ≠ s.treeIndex := by simpa [repeats] using h
      exact Nat.lt_of_le_of_ne hle hne

/-- A repetition does not matter to the indices above it. -/
theorem faultsAt_cons_cons {p : Snapshot} {i : Nat} (hp : p.treeIndex = s.treeIndex)
    (hi : p.treeIndex < i) (rest : List Snapshot) :
    faultsAt (p :: s :: rest) i = faultsAt (p :: rest) i := by
  refine faultsAt_congr (fun j hj => ?_) ?_
  · by_cases hpj : p.treeIndex = j
    · subst hpj
      rw [representative?_cons_self, representative?_cons_self]
    · rw [representative?_cons_of_ne hpj, representative?_cons_of_ne hpj,
        representative?_cons_of_ne (by omega)]
  · rw [copies_cons_of_ne (by omega), copies_cons_of_ne (by omega), copies_cons_of_ne (by omega)]

/-- What comes before the tree that stands for an index does not matter above that index. -/
theorem faultsAt_append {i : Nat} (hplace : nextIndex previous? ≤ s.treeIndex)
    (hi : s.treeIndex < i) (rest : List Snapshot) :
    faultsAt (previous?.toList ++ s :: rest) i = faultsAt (s :: rest) i := by
  cases previous? with
  | none => rfl
  | some p =>
      have hlt : p.treeIndex < s.treeIndex := hplace
      refine faultsAt_congr (fun j hj => ?_) ?_
      · exact representative?_cons_of_ne (by omega) _
      · exact copies_cons_of_ne (by omega) _

theorem copies_eq_zero {l : List Snapshot} {i : Nat} (h : ∀ s ∈ l, i < s.treeIndex) :
    copies l i = 0 := by
  refine List.countP_eq_zero.2 fun s hs => ?_
  have hlt := h s hs
  simp only [beq_iff_eq]
  omega

theorem range'_append_range' {a b : Nat} (h : a ≤ b) (c : Nat) :
    List.range' a (b - a) ++ List.range' b (c - b) = List.range' a (max b c - a) := by
  obtain ⟨n, rfl⟩ := Nat.exists_eq_add_of_le h
  rw [Nat.add_sub_cancel_left, List.range'_append_1]
  congr 1
  omega

/-- A list in the order of its indices is reported on index by index, after the repetitions
of the snapshot before it. -/
theorem faults_auditFrom_eq {l : List Snapshot}
    (hsorted : (previous?.toList ++ l).Pairwise fun a b => a.treeIndex ≤ b.treeIndex) :
    (auditFrom previous? l).faults =
      (previous?.toList.flatMap fun p =>
        List.replicate (copies l p.treeIndex) ⟨p.treeIndex, .duplicateTree⟩) ++
      (List.range' (nextIndex previous?) (bound l - nextIndex previous?)).flatMap
        (faultsAt (previous?.toList ++ l)) := by
  induction l generalizing previous? with
  | nil => cases previous? <;> simp [auditFrom, bound, copies]
  | cons s rest ih =>
      have hrest := hsorted.sublist (List.sublist_append_right previous?.toList (s :: rest))
      rw [auditFrom]
      cases hrep : repeats previous? s with
      | true =>
          obtain ⟨p, rfl, hp⟩ := exists_of_repeats hrep
          have htail := @ih (some p)
            (hsorted.sublist ((List.sublist_cons_self s rest).cons_cons p))
          have hsame : ∀ i ∈ List.range' (p.treeIndex + 1) (bound rest - (p.treeIndex + 1)),
              faultsAt (p :: rest) i = faultsAt (p :: s :: rest) i := fun i hi =>
            (faultsAt_cons_cons hp (List.mem_range'_1.1 hi).1 rest).symm
          have hbound : bound (s :: rest) - (p.treeIndex + 1) =
              bound rest - (p.treeIndex + 1) := by
            rw [bound_cons]
            omega
          simp only [Option.toList_some, List.flatMap_singleton, List.singleton_append, nextIndex,
            Option.elim_some] at htail ⊢
          rw [if_pos trivial, htail, hbound, List.flatMap_congr hsame, hp, copies_cons_self,
            List.replicate_succ, List.cons_append]
      | false =>
          have hplace := nextIndex_le_of_repeats_eq_false hsorted hrep
          have hfirst : (previous?.toList.flatMap fun p =>
              List.replicate (copies (s :: rest) p.treeIndex)
                (⟨p.treeIndex, .duplicateTree⟩ : ChainFault)) = [] := by
            refine List.flatMap_eq_nil_iff.2 fun p hp => ?_
            obtain rfl : previous? = some p := by simpa using hp
            rw [copies_eq_zero fun t ht => ?_, List.replicate_zero]
            have hlt : p.treeIndex < s.treeIndex := hplace
            rcases List.mem_cons.1 ht with rfl | ht
            · exact hlt
            · exact Nat.lt_of_lt_of_le hlt ((List.pairwise_cons.1 hrest).1 t ht)
          have hsame : ∀ i ∈ List.range' (s.treeIndex + 1) (bound rest - (s.treeIndex + 1)),
              faultsAt (s :: rest) i = faultsAt (previous?.toList ++ s :: rest) i := fun i hi =>
            (faultsAt_append hplace (List.mem_range'_1.1 hi).1 rest).symm
          have htail := @ih (some s) hrest
          simp only [Option.toList_some, List.flatMap_singleton, List.singleton_append, nextIndex,
            Option.elim_some] at htail
          rw [if_neg (by simp), hfirst, List.nil_append]
          simp only [htail]
          rw [← List.append_assoc, faultsOf_append_replicate hsorted hplace,
            List.flatMap_congr hsame, ← List.flatMap_append,
            range'_append_range' (Nat.le_succ_of_le hplace), bound_cons]

/-- Every index that occurs is one tree checked. -/
theorem treesChecked_auditFrom_eq {l : List Snapshot}
    (hsorted : (previous?.toList ++ l).Pairwise fun a b => a.treeIndex ≤ b.treeIndex) :
    (auditFrom previous? l).treesChecked + previous?.toList.length =
      ((previous?.toList ++ l).map Snapshot.treeIndex).toFinset.card := by
  induction l generalizing previous? with
  | nil => cases previous? <;> simp [auditFrom]
  | cons s rest ih =>
      have hrest := hsorted.sublist (List.sublist_append_right previous?.toList (s :: rest))
      rw [auditFrom]
      cases hrep : repeats previous? s with
      | true =>
          obtain ⟨p, rfl, hp⟩ := exists_of_repeats hrep
          have htail := @ih (some p)
            (hsorted.sublist ((List.sublist_cons_self s rest).cons_cons p))
          rw [if_pos rfl]
          simpa [hp] using htail
      | false =>
          have hplace := nextIndex_le_of_repeats_eq_false hsorted hrep
          have htail : (auditFrom (some s) rest).treesChecked + 1 =
              ((s :: rest).map Snapshot.treeIndex).toFinset.card := @ih (some s) hrest
          rw [if_neg (by simp)]
          simp only [htail]
          cases previous? with
          | none => rfl
          | some p =>
              have hlt : p.treeIndex < s.treeIndex := hplace
              have hnew : p.treeIndex ∉ ((s :: rest).map Snapshot.treeIndex).toFinset := by
                rw [List.mem_toFinset]
                intro hmem
                obtain ⟨t, ht, hindex⟩ := List.mem_map.1 hmem
                rcases List.mem_cons.1 ht with rfl | ht
                · omega
                · have hlater := (List.pairwise_cons.1 hrest).1 t ht
                  omega
              exact (Finset.card_insert_of_notMem hnew).symm.trans
                (congrArg Finset.card (List.toFinset_cons ..).symm)

end Pass

theorem audit_eq (snapshots : List Snapshot) : audit snapshots = report snapshots := by
  have hsorted : ((none : Option Snapshot).toList ++ byIndex snapshots).Pairwise
      fun a b => a.treeIndex ≤ b.treeIndex := pairwise_byIndex snapshots
  have hperm : (byIndex snapshots).Perm snapshots := List.mergeSort_perm _ _
  have hchecked : (audit snapshots).treesChecked = (report snapshots).treesChecked := by
    have h := treesChecked_auditFrom_eq hsorted
    simp only [Option.toList_none, List.length_nil, Nat.add_zero, List.nil_append] at h
    rw [audit, h, report, List.toFinset_eq_of_perm _ _ (hperm.map _)]
  have hfaults : (audit snapshots).faults = (report snapshots).faults := by
    have h := faults_auditFrom_eq hsorted
    simp only [Option.toList_none, List.flatMap_nil, List.nil_append, nextIndex, Option.elim_none,
      Nat.sub_zero] at h
    rw [audit, h, report, bound_perm hperm, List.range_eq_range']
    exact List.flatMap_congr fun i _ => faultsAt_byIndex snapshots i
  exact congrArg₂ ChainReport.mk hchecked hfaults

/-! ## What follows -/

theorem map_treeIndex_eq_range {l : List Snapshot} (h : Intact none l) :
    l.map Snapshot.treeIndex = List.range l.length := by
  apply List.ext_getElem?
  intro i
  rw [List.getElem?_map]
  by_cases hi : i < l.length
  · have hplace := (h.of_getElem? (List.getElem?_eq_getElem hi)).2
    rw [List.getElem?_eq_getElem hi, List.getElem?_range hi, Option.map_some, hplace]
    simp [nextIndex]
  · rw [List.getElem?_eq_none (by omega), List.getElem?_eq_none (by simpa using hi)]
    rfl

/-- Every index of an initial run is there once, every snapshot is genuine, and each begins
with the root of the one before. -/
structure IsChain (snapshots : List Snapshot) : Prop where
  indices : (snapshots.map Snapshot.treeIndex).Perm (List.range snapshots.length)
  genuine : ∀ s ∈ snapshots, IsGenuine s
  linked : ∀ s ∈ snapshots, ∀ t ∈ snapshots, t.treeIndex = s.treeIndex + 1 →
    t.firstBlock? = some s.rootHash

theorem intact_byIndex_iff (snapshots : List Snapshot) :
    Intact none (byIndex snapshots) ↔ IsChain snapshots := by
  have hperm : (byIndex snapshots).Perm snapshots := List.mergeSort_perm _ _
  constructor
  · intro h
    have hplace : ∀ {s : Snapshot}, s ∈ snapshots → (byIndex snapshots)[s.treeIndex]? = some s := by
      intro s hs
      obtain ⟨i, hi⟩ := List.getElem?_of_mem (mem_byIndex.2 hs)
      have hindex := (h.of_getElem? hi).2
      rw [nextIndex, Option.elim_none, Nat.zero_add] at hindex
      rwa [hindex]
    refine ⟨?_, fun s hs => (h.of_getElem? (hplace hs)).1, fun s hs t ht hnext => ?_⟩
    · rw [← hperm.length_eq, ← map_treeIndex_eq_range h]
      exact (hperm.map _).symm
    · have ht' := hplace ht
      rw [hnext] at ht'
      exact h.firstBlock? (hplace hs) ht'
  · intro h
    have hindices : (byIndex snapshots).map Snapshot.treeIndex = List.range snapshots.length := by
      refine List.Perm.eq_of_pairwise (fun a b _ _ => Nat.le_antisymm)
        (List.pairwise_map.2 (pairwise_byIndex snapshots)) ?_ ((hperm.map _).trans h.indices)
      exact List.pairwise_lt_range.imp Nat.le_of_lt
    have hplace : ∀ {i : Nat} {s : Snapshot}, (byIndex snapshots)[i]? = some s →
        s.treeIndex = i := by
      intro i s hi
      have hmap := congrArg (·[i]?) hindices
      have hlt := (List.getElem?_eq_some_iff.1 hi).1
      rw [hperm.length_eq] at hlt
      simpa [hi, List.getElem?_range hlt] using hmap
    refine intact_of_getElem? (fun {i s} hi => ⟨?_, ?_⟩) (fun _ hnone => by cases hnone)
      (fun {i s t} hs ht => ?_)
    · rw [hplace hi, nextIndex, Option.elim_none, Nat.zero_add]
    · exact h.genuine s (mem_byIndex.1 (List.mem_of_getElem? hi))
    · refine h.linked s (mem_byIndex.1 (List.mem_of_getElem? hs)) t
        (mem_byIndex.1 (List.mem_of_getElem? ht)) ?_
      rw [hplace hs, hplace ht]

/-- Where no index is repeated, the order of the indices is the only one. -/
theorem byIndex_eq_of_perm {xs ys : List Snapshot} (h : xs.Perm ys)
    (hnodup : (xs.map Snapshot.treeIndex).Nodup) : byIndex xs = byIndex ys := by
  have hsame : (byIndex xs).Perm (byIndex ys) :=
    (List.mergeSort_perm _ _).trans (h.trans (List.mergeSort_perm _ _).symm)
  refine hsame.eq_of_pairwise (fun a b ha hb hab hba => ?_) (pairwise_byIndex xs)
    (pairwise_byIndex ys)
  exact List.inj_on_of_nodup_map hnodup (mem_byIndex.1 ha) (h.mem_iff.2 (mem_byIndex.1 hb))
    (Nat.le_antisymm hab hba)

/-- The audit of any list of snapshots checks one tree for every index that occurs, and lists
exactly the faults there are, index by index up to the largest: the tree is missing, or the
snapshot that stands for it does not begin with the root of the one that stands for the tree
before, does not have the root of its blocks, differs from the levels over them and at which
level first, and how often it is repeated. It lists none exactly for a chain. Where no index
is repeated every snapshot is checked and the order of the list does not matter. -/
theorem audit_eq_report (snapshots : List Snapshot) :
    audit snapshots = report snapshots ∧
    ((audit snapshots).isIntact = true ↔ IsChain snapshots) ∧
    ((snapshots.map Snapshot.treeIndex).Nodup →
      (audit snapshots).treesChecked = snapshots.length ∧
      ∀ other, snapshots.Perm other → audit other = audit snapshots) := by
  refine ⟨audit_eq snapshots, ?_, fun hnodup => ⟨?_, fun other hperm => ?_⟩⟩
  · rw [ChainReport.isIntact, List.isEmpty_iff, faults_audit_eq_nil_iff, intact_byIndex_iff]
  · rw [audit_eq, report, List.toFinset_card_of_nodup hnodup, List.length_map]
  · rw [audit, audit, byIndex_eq_of_perm hperm hnodup]

/-- Two snapshots that came in the wrong order, the second of them no continuation of the
first. -/
theorem audit_eq_report_swapped :
    (([⟨"x", 1, [["y"]], [], 0⟩, ⟨Digest.emptyRoot, 0, [], [], 0⟩] : List Snapshot).map
      Snapshot.treeIndex).Nodup ∧
    audit [⟨Digest.emptyRoot, 0, [], [], 0⟩, ⟨"x", 1, [["y"]], [], 0⟩] =
      audit [⟨"x", 1, [["y"]], [], 0⟩, ⟨Digest.emptyRoot, 0, [], [], 0⟩] := by
  have hnodup : (([⟨"x", 1, [["y"]], [], 0⟩, ⟨Digest.emptyRoot, 0, [], [], 0⟩] :
      List Snapshot).map Snapshot.treeIndex).Nodup := by decide
  exact ⟨hnodup, ((audit_eq_report _).2.2 hnodup).2 _ (List.Perm.swap _ _ _)⟩

end Chain

end SealedLog
