import SealedLog.Proofs.Log.Recording
import SealedLog.Proofs.Log.Replaying

/-!
# Recovery brings the store up to date

Over a store that some interrupted run left behind, a recovery does what the run would have
done. The store has the final snapshots of some trees and a state of the next; going through
the trees, the recovery passes over the former, replaces the latter unless its root is right,
and puts in what is missing. `Mending` is the state of a store on the way. At each moment the
store is as a run would have left it, so a recovery may be cut off and started again.
-/

namespace SealedLog

namespace Log

open Cut

/-- The store held `l₀` and holds `l` after the comparison of `k` trees. -/
structure Mending (L : Likeness) (T : List (List String)) (l₀ l : List Snapshot) (k : Nat) :
    Prop where
  kept : Kept L T l
  le_length : k ≤ l.length
  final : ∀ {i : Nat} {s : Snapshot}, i < k → l[i]? = some s →
    ∃ bs, T[i]? = some bs ∧ StateOf T i bs ∧ L.holds s bs
  ahead : ∀ {i : Nat}, k ≤ i → l[i]? = l₀[i]?

variable {L : Likeness} {T : List (List String)} {l₀ l : List Snapshot} {k : Nat}
  {bs : List String}

theorem mending_zero (h : Kept L T l₀) : Mending L T l₀ l₀ 0 where
  kept := h
  le_length := Nat.zero_le _
  final hlt := absurd hlt (Nat.not_lt_zero _)
  ahead _ := rfl

/-- The tree `k` is next, and its final state is put behind all others. -/
theorem Mending.concat {front : List Snapshot} (hkept : Kept L T front)
    (hlength : front.length = k)
    (hfinal : ∀ {i : Nat} {s : Snapshot}, front[i]? = some s →
      ∃ bs, T[i]? = some bs ∧ StateOf T i bs ∧ L.holds s bs)
    (hk : T[k]? = some bs) (hbs : StateOf T k bs) (hl₀ : ∀ {i : Nat}, k < i → l₀[i]? = none)
    (now : Nat) : Mending L T l₀ (front ++ [Batch.snapshot bs k now]) (k + 1) := by
  subst hlength
  refine ⟨hkept.concat hfinal hbs now, by simp, ?_, ?_⟩
  · intro i s hi hs
    rcases Nat.lt_or_eq_of_le (Nat.le_of_lt_succ hi) with hlt | rfl
    · rw [List.getElem?_append_left hlt] at hs
      exact hfinal hs
    · rw [List.getElem?_concat_length, Option.some.injEq] at hs
      exact ⟨bs, hk, hbs, by rw [← hs]; exact L.snapshot bs _ now⟩
  · intro i hi
    rw [hl₀ (by omega), List.getElem?_eq_none]
    simp only [List.length_append, List.length_singleton]
    omega

theorem Mending.getElem?_eq_none (h : Mending L T l₀ l k) (hlength : l.length ≤ k + 1) {i : Nat}
    (hi : k < i) : l₀[i]? = none := by
  rw [← h.ahead (Nat.le_of_lt hi)]
  exact List.getElem?_eq_none (by omega)

/-- A tree without a snapshot gets one, and then all trees behind it are without. -/
theorem Mending.replace_none (h : Mending L T l₀ l k) (hapart : Apart T) (hk : T[k]? = some bs)
    (hbs : StateOf T k bs) (hnone : l[k]? = none) (now : Nat) :
    Mending L T l₀ (Shelf.replace ⟨l⟩ none (Batch.snapshot bs k now)).snapshots (k + 1) := by
  have hlength : l.length = k :=
    Nat.le_antisymm (List.getElem?_eq_none_iff.1 hnone) h.le_length
  have hreplace := h.kept.replace_none hapart (show StateOf T l.length bs by rwa [hlength]) now
  rw [hlength] at hreplace
  rw [hreplace]
  refine Mending.concat h.kept hlength (fun {i s} hi => ?_) hk hbs
    (h.getElem?_eq_none (by omega)) now
  have hlt := (List.getElem?_eq_some_iff.1 hi).1
  exact h.final (by omega) hi

/-- A snapshot with the right root is passed over. -/
theorem Mending.pass (h : Mending L T l₀ l k) (hk : T[k]? = some bs) (hbs : StateOf T k bs)
    {s : Snapshot} (hs : l[k]? = some s) (hlike : L.holds s bs) :
    Mending L T l₀ l (k + 1) := by
  refine ⟨h.kept, (List.getElem?_eq_some_iff.1 hs).1, ?_, fun hi => h.ahead (by omega)⟩
  intro i t hi ht
  rcases Nat.lt_or_eq_of_le (Nat.le_of_lt_succ hi) with hi | rfl
  · exact h.final hi ht
  · rw [hs, Option.some.injEq] at ht
    exact ⟨bs, hk, hbs, by rwa [← ht]⟩

/-- A snapshot with another root than that of the final state is replaced. It is the last. -/
theorem Mending.replace_stale (h : Mending L T l₀ l k) (hapart : Apart T) (hk : T[k]? = some bs)
    (hbs : StateOf T k bs) {s : Snapshot} (hs : l[k]? = some s)
    (hroot : s.rootHash ≠ Batch.root bs) (now : Nat) :
    Mending L T l₀ (Shelf.replace ⟨l⟩ (some s.rootHash) (Batch.snapshot bs k now)).snapshots
      (k + 1) := by
  have hend : l.length = k + 1 := by
    have hlt := (List.getElem?_eq_some_iff.1 hs).1
    obtain ⟨cs, -, hlike, hfinal⟩ := h.kept.state hs
    by_cases hlast : k + 1 < l.length
    · rw [hfinal hlast, Option.some.injEq] at hk
      rw [← hk] at hroot
      exact absurd (L.root_eq hlike) hroot
    · omega
  obtain ⟨front, s', rfl⟩ : ∃ front s', l = front ++ [s'] := by
    have hne : l ≠ [] := by
      rw [← List.length_pos_iff]
      omega
    exact ⟨_, _, (List.dropLast_append_getLast hne).symm⟩
  have hlength : front.length = k := by
    rw [List.length_append, List.length_singleton] at hend
    omega
  rw [← hlength, List.getElem?_concat_length, Option.some.injEq] at hs
  subst hs
  have hreplace := h.kept.replace_last hapart (show StateOf T _ bs by rwa [hlength]) now
  rw [hlength] at hreplace
  rw [hreplace]
  refine Mending.concat h.kept.of_concat hlength (fun {i t} hi => ?_) hk hbs
    (h.getElem?_eq_none (by omega)) now
  have hlt := (List.getElem?_eq_some_iff.1 hi).1
  exact h.final (by omega) (by rw [List.getElem?_append_left hlt, hi])

theorem filter_treeIndex_eq {l : List Snapshot} (first : Nat)
    (h : ∀ {i : Nat} {s : Snapshot}, l[i]? = some s → s.treeIndex = first + i) (k : Nat) :
    l.filter (·.treeIndex == first + k) = l[k]?.toList := by
  induction l generalizing first k with
  | nil => simp
  | cons a rest ih =>
      have ha : a.treeIndex = first := h (i := 0) rfl
      have hrest : ∀ {i : Nat} {s : Snapshot}, rest[i]? = some s →
          s.treeIndex = first + 1 + i := by
        intro i s hi
        rw [h (i := i + 1) hi]
        omega
      cases k with
      | zero =>
          rw [List.filter_cons_of_pos (by simp [ha]), List.getElem?_cons_zero, Option.toList_some,
            List.filter_eq_nil_iff.2]
          intro s hs
          obtain ⟨i, hi⟩ := List.getElem?_of_mem hs
          rw [hrest hi, beq_iff_eq]
          omega
      | succ k =>
          rw [List.filter_cons_of_neg (by simp [ha]), List.getElem?_cons_succ,
            show first + (k + 1) = first + 1 + k by omega, ih (first + 1) hrest]

/-- What a recovery still waits to compare after `k` trees: what the store had of the others, in
the order in which it listed that. -/
def Waits (l₀ : List Snapshot) (k : Nat) (waiting : List Found) : Prop :=
  waiting.Perm ((l₀.filter fun s => decide (k ≤ s.treeIndex)).map found)

theorem waits_zero {listed : List Snapshot} (h : listed.Perm l₀) :
    Waits l₀ 0 (listed.map fun s => ⟨s.treeIndex, s.rootHash⟩) := by
  rw [Waits, List.filter_eq_self.2 fun s _ => by simp]
  exact h.map found

section Waits

variable {waiting : List Found}

theorem Waits.mem_iff (h : Waits l₀ k waiting) {f : Found} :
    f ∈ waiting ↔ ∃ s ∈ l₀, k ≤ s.treeIndex ∧ found s = f := by
  rw [List.Perm.mem_iff h]
  simp [and_assoc]

theorem Waits.later (h : Waits l₀ k waiting) :
    Waits l₀ (k + 1) (waiting.filter (·.treeIndex != k)) := by
  refine (List.Perm.filter _ h).trans (.of_eq ?_)
  rw [List.filter_map, List.filter_filter]
  congr 1
  apply List.filter_congr
  intro s _
  rw [Bool.eq_iff_iff, Function.comp_apply, Bool.and_eq_true, bne_iff_ne, decide_eq_true_eq,
    decide_eq_true_eq]
  simp only [found]
  omega

theorem Waits.mem_roots_iff (h : Waits l₀ k waiting) {root : Hash} :
    root ∈ (waiting.filter (·.treeIndex == k)).map Found.root ↔
      ∃ s ∈ l₀, s.treeIndex = k ∧ s.rootHash = root := by
  simp only [List.mem_map, List.mem_filter, h.mem_iff, beq_iff_eq]
  constructor
  · rintro ⟨_, ⟨⟨s, hs, -, rfl⟩, hindex⟩, rfl⟩
    exact ⟨s, hs, hindex, rfl⟩
  · rintro ⟨s, hs, hindex, rfl⟩
    exact ⟨found s, ⟨⟨s, hs, Nat.le_of_eq hindex.symm, rfl⟩, hindex⟩, rfl⟩

/-- The roots found for the next tree: that of its snapshot, if it has one. -/
theorem Waits.roots_eq (h : Waits l₀ k waiting) (hkept : Kept L T l₀) :
    (waiting.filter (·.treeIndex == k)).map Found.root =
      l₀[k]?.toList.map Snapshot.rootHash := by
  have hfilter := filter_treeIndex_eq 0 (fun {i s} (hi : l₀[i]? = some s) => by
    rw [hkept.index hi, Nat.zero_add]) k
  rw [Nat.zero_add] at hfilter
  have hboth : ((l₀.filter fun s => decide (k ≤ s.treeIndex)).map found).filter
      (·.treeIndex == k) = (l₀.filter (·.treeIndex == k)).map found := by
    rw [List.filter_map, List.filter_filter]
    congr 1
    apply List.filter_congr
    intro s _
    by_cases hs : s.treeIndex = k <;> simp [found, hs]
  have hperm := (List.Perm.filter (·.treeIndex == k) h).map Found.root
  rw [hboth, hfilter, List.map_map] at hperm
  -- at most one root is listed, so its place is not in question
  cases hplace : l₀[k]? with
  | none =>
      rw [hplace] at hperm
      exact hperm.eq_nil
  | some s =>
      rw [hplace] at hperm
      exact hperm.eq_singleton

theorem Waits.eq_nil (h : Waits l₀ T.length waiting) (hkept : Kept L T l₀) : waiting = [] := by
  refine List.eq_nil_iff_forall_not_mem.2 fun f hf => ?_
  obtain ⟨s, hs, hle, -⟩ := h.mem_iff.1 hf
  obtain ⟨i, hi⟩ := List.getElem?_of_mem hs
  have hlt := (List.getElem?_eq_some_iff.1 hi).1
  have hlength := hkept.length_le
  rw [hkept.index hi] at hle
  omega

/-- The comparison of the next tree, where every root found for it was produced. -/
theorem Waits.reconcile_eq {σ : Type} [SnapshotStore σ] (h : Waits l₀ k waiting) (store : σ)
    {produced : List Hash} (hproduced : ∀ s ∈ l₀, s.treeIndex = k → s.rootHash ∈ produced)
    (bs : List String) (now : Nat) :
    reconcile store waiting produced (Batch.snapshot bs k now) =
      replaceEach store (Batch.snapshot bs k now)
          (outdated ((waiting.filter (·.treeIndex == k)).map Found.root) (Batch.root bs)) >>=
        fun store => .ok (store, waiting.filter (·.treeIndex != k)) := by
  refine Log.reconcile_eq fun f hf hindex => ?_
  obtain ⟨s, hs, -, rfl⟩ := h.mem_iff.1 hf
  exact hproduced s hs hindex

end Waits

section Stores

variable {σ : Type} [SnapshotStore σ] [LawfulStore σ] {store₀ store : σ}

/-- One replacement: the store changes as a shelf, or it fails. -/
theorem replaceEach_singleton_yields {P : List Snapshot → Prop} (store : σ) (old? : Option Hash)
    (snapshot : Snapshot) (hP : P (contents store))
    (hP' : P (Shelf.replace ⟨contents store⟩ old? snapshot).snapshots) :
    Yields (fun store' =>
        contents store' = (Shelf.replace ⟨contents store⟩ old? snapshot).snapshots ∧
          Writes P store store')
      (fun e => (∃ reason, e.1 = .notRecorded reason) ∧ ¬ Reliable store ∧ Writes P store e.2)
      (replaceEach store snapshot [old?]) := by
  rw [replaceEach]
  rcases replace_cases store old? snapshot with
    ⟨store', hreplace, hcontents⟩ | ⟨e, store', hreplace, hcontents⟩
  · simp only [hreplace]
    exact ⟨hcontents, .of_replace hreplace (by rwa [hcontents])⟩
  · simp only [hreplace]
    exact ⟨⟨e, rfl⟩, not_reliable_of_replace hreplace, .of_replace hreplace (by rwa [hcontents])⟩

/-- The comparison with one write, after which the store is to be mended one tree further. -/
theorem Mending.replaceEach_yields {later : List Found} {old? : Option Hash}
    {snapshot : Snapshot} (h : Mending L T (contents store₀) (contents store) k)
    (hlater : Waits (contents store₀) (k + 1) later) (hwrites : Writes (Kept L T) store₀ store)
    (hnext : Mending L T (contents store₀)
      (Shelf.replace ⟨contents store⟩ old? snapshot).snapshots (k + 1)) :
    Yields (fun next => Mending L T (contents store₀) (contents next.1) (k + 1) ∧
        Waits (contents store₀) (k + 1) next.2 ∧ Writes (Kept L T) store₀ next.1)
      (fun e => (∃ reason, e.1 = .notRecorded reason) ∧ ¬ Reliable store₀ ∧
        Writes (Kept L T) store₀ e.2)
      (replaceEach store snapshot [old?] >>= fun store => .ok (store, later)) := by
  have hyields := replaceEach_singleton_yields store old? snapshot h.kept hnext.kept
  cases hresult : replaceEach store snapshot [old?] with
  | ok store' =>
      rw [hresult] at hyields
      refine ⟨?_, hlater, hwrites.trans hyields.2⟩
      rw [hyields.1]
      exact hnext
  | error e =>
      rw [hresult] at hyields
      exact ⟨hyields.1, fun hrel => hyields.2.1 (hwrites.reliable hrel),
        hwrites.trans hyields.2.2⟩

/-- The comparison with a store that is kept: it goes on, or the store fails. -/
theorem comparison_mending (hkept : Kept L T (contents store₀)) (hapart : Apart T)
    (hlike : ∀ {s : Snapshot} {bs : List String}, s ∈ contents store₀ →
      s.rootHash = Batch.root bs → L.holds s bs) (now : Nat) :
    Comparison T now
      (fun k store waiting => Mending L T (contents store₀) (contents store) k ∧
        Waits (contents store₀) k waiting ∧ Writes (Kept L T) store₀ store)
      (fun e : LogError × σ => (∃ reason, e.1 = .notRecorded reason) ∧ ¬ Reliable store₀ ∧
        Writes (Kept L T) store₀ e.2) where
  step {k store waiting produced bs} hI hk hbs hproduced := by
    obtain ⟨hmending, hwaits, hwrites⟩ := hI
    have hall : ∀ s ∈ contents store₀, s.treeIndex = k → s.rootHash ∈ produced := by
      intro s hs hindex
      obtain ⟨i, hi⟩ := List.getElem?_of_mem hs
      obtain ⟨cs, hcs, hholds, -⟩ := hkept.state hi
      have hplace : i = k := (hkept.index hi).symm.trans hindex
      exact (hproduced _).2 ⟨cs, by rwa [← hplace], L.root_eq hholds⟩
    rw [hwaits.reconcile_eq store hall, hwaits.roots_eq hkept, ← hmending.ahead (Nat.le_refl k)]
    cases hfound : (contents store)[k]? with
    | none =>
        exact hmending.replaceEach_yields hwaits.later hwrites
          (hmending.replace_none hapart hk hbs hfound now)
    | some s =>
        by_cases hcurrent : s.rootHash = Batch.root bs
        · have houtdated : outdated ((some s).toList.map Snapshot.rootHash) (Batch.root bs) =
              [] := by
            simp [outdated, hcurrent]
          rw [houtdated]
          have hmem : s ∈ contents store₀ :=
            List.mem_of_getElem? ((hmending.ahead (Nat.le_refl k)).symm.trans hfound)
          exact ⟨hmending.pass hk hbs hfound (hlike hmem hcurrent), hwaits.later, hwrites⟩
        · have houtdated : outdated ((some s).toList.map Snapshot.rootHash) (Batch.root bs) =
              [some s.rootHash] := by
            simp [outdated, hcurrent]
          rw [houtdated]
          exact hmending.replaceEach_yields hwaits.later hwrites
            (hmending.replace_stale hapart hk hbs hfound hcurrent now)
  surplus {store waiting e} hI hsurplus := by
    rw [hI.2.1.eq_nil hkept] at hsurplus
    cases hsurplus

/-- A store after all trees were compared is in step with the log. -/
theorem Mending.synced {config : LogConfig} {c : Cut} {log : Log}
    (h : Mending L c.trees l₀ l c.trees.length) (hlog : Recovered config c log) :
    Synced L config c log l := by
  have hlength : l.length = c.closed.length + 1 := by
    rw [← length_trees]
    exact Nat.le_antisymm h.kept.length_le h.le_length
  have hlast : ∀ s ∈ l[c.closed.length]?, L.holds s c.current := by
    intro s hs
    obtain ⟨bs, hbs, -, hholds⟩ := h.final (by rw [length_trees]; omega) hs
    rw [getElem?_trees_length, Option.some.injEq] at hbs
    rwa [hbs]
  refine ⟨⟨hlog.valid, hlog.follows, h.kept, hlength, fun s hs => ?_⟩, fun _ s hs => ?_⟩
  · rw [hlog.persistedRoot?_eq, L.root_eq (hlast s hs)]
  · exact hlast s hs

/-- A recovery over a store that is kept ends in step with the store, unless the store fails;
and either way it does not leave the store in another state than a run would. A snapshot that
was there already stays as it is if its root is right, so that has to be likeness enough. -/
theorem recover_mended {config : LogConfig} {events : List String}
    (hkept : Kept L (ofEvents config.maxLeavesPerTree events).trees (contents store))
    (hapart : Apart (ofEvents config.maxLeavesPerTree events).trees)
    (hlike : ∀ {s : Snapshot} {bs : List String}, s ∈ contents store →
      s.rootHash = Batch.root bs → L.holds s bs) (now : Nat) :
    (∃ log store', recover store config now events = (.ok log, store') ∧
      Synced L config (ofEvents config.maxLeavesPerTree events) log (contents store') ∧
      log.pendingWrite = false ∧
      Writes (Kept L (ofEvents config.maxLeavesPerTree events).trees) store store') ∨
    ∃ reason store', recover store config now events = (.error (.notRecorded reason), store') ∧
      ¬ Reliable store ∧
      Writes (Kept L (ofEvents config.maxLeavesPerTree events).trees) store store' := by
  have hcomp := comparison_mending hkept hapart hlike now
  have hresult := recover_yields events hcomp store
    (yields_load store (fun _ hperm => ⟨mending_zero hkept, waits_zero hperm, .refl store⟩)
      fun e hload => ⟨⟨e, rfl⟩, not_reliable_of_load hload, .refl store⟩)
  rcases hresult with
    ⟨log, store', waiting, hrecover, hrecovered, ⟨hmending, -, hwrites⟩, -⟩ |
      ⟨e, store', hrecover, ⟨reason, hreason⟩, hfailing, hwrites⟩
  · exact Or.inl ⟨log, store', hrecover, hmending.synced hrecovered,
      hrecovered.pendingWrite_eq, hwrites⟩
  · cases hreason
    exact Or.inr ⟨reason, store', hrecover, hfailing, hwrites⟩

end Stores

end Log

end SealedLog
