import SealedLog.Proofs.Log.Crash

/-!
# What a refused recovery leaves behind

A recovery compares a tree with the store and writes it before it goes on to the next, so by the
time it finds an inconsistency it may have written all trees before that one. `Touched` bounds
what is different then: the store may have gained the final states of these trees and lost
snapshots with a root that they went through. Where there was nothing to write, each of these
trees being `UpToDate`, the store is the one that was found, and where roots of different trees
differ this is the only case in which it holds what it held before.

The last theorem says both, and when the harm is none: a recovery that would have succeeded
on the store before the refused one succeeds after it if the trees that were written are states
of its own, as they are with the same settings and a journal that goes on where the refused one
ended. With other settings they need not be, and then one refused attempt makes the store unfit
for the right one.
-/

namespace SealedLog

open Cut

namespace Log

theorem outdated_eq_nil_iff {roots : List Hash} {current : Hash} :
    outdated roots current = [] ↔ roots ≠ [] ∧ ∀ root ∈ roots, root = current := by
  rw [outdated]
  split
  · next hnil => simp [List.isEmpty_iff.1 hnil]
  · next hne =>
      rw [List.isEmpty_iff] at hne
      simp [hne, List.filter_eq_nil_iff]

theorem some_mem_outdated_iff {roots : List Hash} {current root : Hash} :
    some root ∈ outdated roots current ↔ root ∈ roots ∧ root ≠ current := by
  rw [outdated]
  split
  · next hnil => simp [List.isEmpty_iff.1 hnil]
  · next hne => simp [and_comm]

variable {σ : Type} [SnapshotStore σ] [LawfulStore σ]

/-- What the store holds after it was written to in place of some roots, one at least. -/
theorem replaceEach_cons_yields (store : σ) (snapshot : Snapshot) (old? : Option Hash)
    (rest : List (Option Hash)) :
    Yields (fun store' => ∀ t, t ∈ contents store' ↔ t = snapshot ∨
        t ∈ contents store ∧ t.rootHash ≠ snapshot.rootHash ∧ some t.rootHash ∉ old? :: rest)
      (fun e => ∃ reason, e.1 = .notRecorded reason)
      (replaceEach store snapshot (old? :: rest)) := by
  induction rest generalizing store old? with
  | nil =>
      rw [replaceEach]
      rcases replace_cases store old? snapshot with
        ⟨store', hreplace, hcontents⟩ | ⟨e, store', hreplace, -⟩
      · simp only [hreplace]
        intro t
        rw [hcontents, mem_replace_iff, List.mem_singleton]
      · simp only [hreplace]
        exact ⟨e, rfl⟩
  | cons next rest ih =>
      rw [replaceEach]
      rcases replace_cases store old? snapshot with
        ⟨store₁, hreplace, hcontents⟩ | ⟨e, store', hreplace, -⟩
      · simp only [hreplace]
        have hrest := ih store₁ next
        cases hresult : replaceEach store₁ snapshot (next :: rest) with
        | error e =>
            rw [hresult] at hrest
            exact hrest
        | ok store' =>
            rw [hresult] at hrest
            intro t
            rw [hrest t, hcontents, mem_replace_iff, List.mem_cons (a := some t.rootHash)
              (b := old?)]
            tauto
      · simp only [hreplace]
        exact ⟨e, rfl⟩

/-- Something was found for the tree of index `i`, and all of it has the root of the final
state. -/
def UpToDate (T : List (List String)) (l : List Snapshot) (i : Nat) : Prop :=
  ∃ bs, T[i]? = some bs ∧ (∃ s ∈ l, s.treeIndex = i) ∧
    ∀ s ∈ l, s.treeIndex = i → s.rootHash = Batch.root bs

/-- Nothing is written for a tree that is up to date, and for no other. -/
theorem outdated_eq_nil_iff_upToDate {T : List (List String)} {l : List Snapshot} {k : Nat}
    {bs : List String} (hk : T[k]? = some bs) {roots : List Hash}
    (hroots : ∀ root, root ∈ roots ↔ ∃ s ∈ l, s.treeIndex = k ∧ s.rootHash = root) :
    outdated roots (Batch.root bs) = [] ↔ UpToDate T l k := by
  rw [outdated_eq_nil_iff]
  constructor
  · rintro ⟨hne, hall⟩
    obtain ⟨root, hroot⟩ := List.exists_mem_of_ne_nil _ hne
    obtain ⟨s, hs, hindex, -⟩ := (hroots root).1 hroot
    exact ⟨bs, hk, ⟨s, hs, hindex⟩, fun t ht htindex =>
      hall _ ((hroots _).2 ⟨t, ht, htindex, rfl⟩)⟩
  · rintro ⟨cs, hcs, ⟨s, hs, hindex⟩, hall⟩
    obtain rfl : bs = cs := Option.some.inj (hk.symm.trans hcs)
    refine ⟨List.ne_nil_of_mem ((hroots _).2 ⟨s, hs, hindex, rfl⟩), fun root hroot => ?_⟩
    obtain ⟨t, ht, htindex, rfl⟩ := (hroots root).1 hroot
    exact hall t ht htindex

/-- The store held `l`, and holds `l'` after the first `k` trees were compared and written. -/
structure Touched (T : List (List String)) (k now : Nat) (l l' : List Snapshot) : Prop where
  added : ∀ s ∈ l', s ∈ l ∨ ∃ i bs, i < k ∧ T[i]? = some bs ∧ s = Batch.snapshot bs i now
  lost : ∀ s ∈ l, s ∈ l' ∨ ∃ i bs, i < k ∧ StateOf T i bs ∧ s.rootHash = Batch.root bs

variable {T : List (List String)} {k now : Nat} {l l' : List Snapshot} {bs : List String}

theorem Touched.mono {n : Nat} (h : Touched T k now l l') (hle : k ≤ n) :
    Touched T n now l l' where
  added s hs := (h.added s hs).imp id fun ⟨i, bs, hi, hbs⟩ => ⟨i, bs, by omega, hbs⟩
  lost s hs := (h.lost s hs).imp id fun ⟨i, bs, hi, hbs⟩ => ⟨i, bs, by omega, hbs⟩

/-- Only the trees that were compared are touched. -/
theorem Touched.mem_iff_of_apart (h : Touched T k now l l') (hapart : Apart T) {s : Snapshot}
    {j : Nat} (hj : k ≤ j) (hs : s.treeIndex = j) (hbs : StateOf T j bs)
    (hroot : s.rootHash = Batch.root bs) : s ∈ l' ↔ s ∈ l := by
  constructor
  · intro hmem
    rcases h.added s hmem with hold | ⟨i, cs, hi, -, rfl⟩
    · exact hold
    · change i = j at hs
      omega
  · intro hmem
    rcases h.lost s hmem with hnew | ⟨i, cs, hi, hcs, heq⟩
    · exact hnew
    · have hij := hapart i j cs bs hcs hbs (by rw [← heq, hroot])
      omega

/-- What holds once the first `k` trees were compared: how much of the store is touched, when
none of it is, and that these trees are up to date now. -/
structure Examined (T : List (List String)) (now : Nat) (store₀ store : σ) (k : Nat) : Prop where
  touched : Touched T k now (contents store₀) (contents store)
  unchanged : (∀ i < k, UpToDate T (contents store₀) i) → store = store₀
  upToDate : Apart T → ∀ i < k, UpToDate T (contents store) i

theorem examined_zero (T : List (List String)) (now : Nat) (store : σ) :
    Examined T now store store 0 where
  touched := ⟨fun _ => Or.inl, fun _ => Or.inl⟩
  unchanged _ := rfl
  upToDate _ _ hi := absurd hi (Nat.not_lt_zero _)

/-- An inconsistency was found in the tree of the given index: a snapshot of it is not
legitimate, and the trees before it, as far as there are any, were examined. -/
structure Refused (T : List (List String)) (now : Nat) (store₀ store : σ) (index : Nat) :
    Prop where
  fault : ∃ s ∈ contents store₀, s.treeIndex = index ∧ ¬ (found s).IsLegitimate T
  examined : Examined T now store₀ store (min index T.length)

variable {store₀ store store' : σ}

/-- What the store has for the next tree was found there. -/
theorem Examined.mem_of_treeIndex_eq (h : Examined T now store₀ store k) {s : Snapshot}
    (hs : s ∈ contents store) (hindex : s.treeIndex = k) : s ∈ contents store₀ := by
  rcases h.touched.added s hs with hold | ⟨i, cs, hi, -, rfl⟩
  · exact hold
  · exact absurd hindex (Nat.ne_of_lt hi)

/-- The next tree is passed over if it is up to date. -/
theorem Examined.pass (h : Examined T now store₀ store k)
    (hT : ∀ {i : Nat} {bs : List String}, T[i]? = some bs → StateOf T i bs)
    (hcurrent : UpToDate T (contents store₀) k) : Examined T now store₀ store (k + 1) where
  touched := h.touched.mono (Nat.le_succ k)
  unchanged hall := h.unchanged fun i hi => hall i (Nat.lt_succ_of_lt hi)
  upToDate hapart i hi := by
    rcases Nat.lt_or_eq_of_le (Nat.le_of_lt_succ hi) with hlt | rfl
    · exact h.upToDate hapart i hlt
    · obtain ⟨bs, hbs, ⟨s, hs, hindex⟩, hall⟩ := hcurrent
      refine ⟨bs, hbs, ⟨s, ?_, hindex⟩, fun t ht htindex => ?_⟩
      · exact (h.touched.mem_iff_of_apart hapart (Nat.le_refl i) hindex (hT hbs)
          (hall s hs hindex)).2 hs
      · exact hall t (h.mem_of_treeIndex_eq ht htindex) htindex

/-- The next tree is written in place of what is outdated of it, or as the first of its index. -/
theorem Examined.rewrite (h : Examined T now store₀ store k)
    (hT : ∀ {i : Nat} {bs : List String}, T[i]? = some bs → StateOf T i bs)
    (hk : T[k]? = some bs) {roots : List Hash}
    (hroots : ∀ root, root ∈ roots ↔ ∃ s ∈ contents store₀, s.treeIndex = k ∧ s.rootHash = root)
    (hstates : ∀ root ∈ roots, ∃ cs, StateOf T k cs ∧ root = Batch.root cs)
    (hne : outdated roots (Batch.root bs) ≠ [])
    (hcontents : ∀ t, t ∈ contents store' ↔ t = Batch.snapshot bs k now ∨
      t ∈ contents store ∧ t.rootHash ≠ Batch.root bs ∧
        some t.rootHash ∉ outdated roots (Batch.root bs)) :
    Examined T now store₀ store' (k + 1) where
  touched := by
    have hwide := h.touched.mono (Nat.le_succ k)
    refine ⟨fun t ht => ?_, fun t ht => ?_⟩
    · rcases (hcontents t).1 ht with rfl | ⟨hold, -, -⟩
      · exact Or.inr ⟨k, bs, Nat.lt_succ_self k, hk, rfl⟩
      · exact hwide.added t hold
    · rcases hwide.lost t ht with hold | hlost
      · by_cases hcurrent : t.rootHash = Batch.root bs
        · exact Or.inr ⟨k, bs, Nat.lt_succ_self k, hT hk, hcurrent⟩
        · by_cases hold' : t.rootHash ∈ roots
          · obtain ⟨cs, hcs, hroot⟩ := hstates _ hold'
            exact Or.inr ⟨k, cs, Nat.lt_succ_self k, hcs, hroot⟩
          · exact Or.inl ((hcontents t).2 (Or.inr ⟨hold, hcurrent, fun hmem =>
              hold' (some_mem_outdated_iff.1 hmem).1⟩))
      · exact Or.inr hlost
  unchanged hall :=
    absurd ((outdated_eq_nil_iff_upToDate hk hroots).2 (hall k (Nat.lt_succ_self k))) hne
  upToDate hapart i hi := by
    rcases Nat.lt_or_eq_of_le (Nat.le_of_lt_succ hi) with hlt | rfl
    · obtain ⟨cs, hcs, ⟨s, hs, hindex⟩, hall⟩ := h.upToDate hapart i hlt
      have hroot := hall s hs hindex
      -- no root of another tree is touched
      have hother : ∀ ds, StateOf T k ds → s.rootHash ≠ Batch.root ds := fun ds hds heq =>
        absurd (hapart i k cs ds (hT hcs) hds (by rw [← hroot, heq])) (Nat.ne_of_lt hlt)
      refine ⟨cs, hcs, ⟨s, (hcontents s).2 (Or.inr ⟨hs, hother bs (hT hk), fun hmem => ?_⟩),
        hindex⟩, fun t ht htindex => ?_⟩
      · obtain ⟨ds, hds, heq⟩ := hstates _ (some_mem_outdated_iff.1 hmem).1
        exact hother ds hds heq
      · rcases (hcontents t).1 ht with rfl | ⟨hold, -, -⟩
        · exact absurd htindex (Nat.ne_of_gt hlt)
        · exact hall t hold htindex
    · refine ⟨bs, hk, ⟨_, (hcontents _).2 (Or.inl rfl), rfl⟩, fun t ht htindex => ?_⟩
      rcases (hcontents t).1 ht with rfl | ⟨hold, hcurrent, hkept⟩
      · rfl
      · have hmem := (hroots _).2 ⟨t, h.mem_of_treeIndex_eq hold htindex, htindex, rfl⟩
        exact absurd (some_mem_outdated_iff.2 ⟨hmem, hcurrent⟩) hkept

/-- The writes for the next tree, if any are due. -/
theorem Examined.replaceEach_yields (h : Examined T now store₀ store k)
    (hT : ∀ {i : Nat} {bs : List String}, T[i]? = some bs → StateOf T i bs)
    (hk : T[k]? = some bs) {roots : List Hash}
    (hroots : ∀ root, root ∈ roots ↔ ∃ s ∈ contents store₀, s.treeIndex = k ∧ s.rootHash = root)
    (hstates : ∀ root ∈ roots, ∃ cs, StateOf T k cs ∧ root = Batch.root cs) :
    Yields (fun store' => Examined T now store₀ store' (k + 1))
      (fun e => ∃ reason, e.1 = .notRecorded reason)
      (replaceEach store (Batch.snapshot bs k now) (outdated roots (Batch.root bs))) := by
  cases houtdated : outdated roots (Batch.root bs) with
  | nil => exact h.pass hT ((outdated_eq_nil_iff_upToDate hk hroots).1 houtdated)
  | cons old? rest =>
      have hyields := replaceEach_cons_yields store (Batch.snapshot bs k now) old? rest
      cases hresult : replaceEach store (Batch.snapshot bs k now) (old? :: rest) with
      | ok store' =>
          rw [hresult, ← houtdated] at hyields
          exact h.rewrite hT hk hroots hstates (by rw [houtdated]; simp) hyields
      | error e =>
          rw [hresult] at hyields
          exact hyields

/-- The comparison that keeps track of what is touched. -/
theorem comparison_examined (T : List (List String)) (now : Nat) (store₀ : σ)
    (hT : ∀ {i : Nat} {bs : List String}, T[i]? = some bs → StateOf T i bs) :
    Comparison T now
      (fun k store waiting => Waits (contents store₀) k waiting ∧ Examined T now store₀ store k)
      (fun e : LogError × σ => (∃ reason, e.1 = .notRecorded reason) ∨
        ∃ index detail, e.1 = .recoveryInconsistency index detail ∧
          Refused T now store₀ e.2 index) where
  step {k store waiting produced bs} hI hk hbs hproduced := by
    obtain ⟨hwaits, hexamined⟩ := hI
    by_cases hall : ∀ s ∈ contents store₀, s.treeIndex = k → s.rootHash ∈ produced
    · rw [hwaits.reconcile_eq store hall]
      have hroots : ∀ root ∈ (waiting.filter (·.treeIndex == k)).map Found.root,
          ∃ cs, StateOf T k cs ∧ root = Batch.root cs := by
        intro root hroot
        obtain ⟨s, hs, hindex, rfl⟩ := hwaits.mem_roots_iff.1 hroot
        exact (hproduced s.rootHash).1 (hall s hs hindex)
      have hyields := hexamined.replaceEach_yields hT hk (fun root => hwaits.mem_roots_iff) hroots
      cases hresult : replaceEach store (Batch.snapshot bs k now)
          (outdated ((waiting.filter (·.treeIndex == k)).map Found.root) (Batch.root bs)) with
      | ok store' =>
          rw [hresult] at hyields
          exact ⟨hwaits.later, hyields⟩
      | error e =>
          rw [hresult] at hyields
          exact Or.inl hyields
    · have hresult := reconcile_yields store waiting produced (Batch.snapshot bs k now)
      cases hreconcile : reconcile store waiting produced (Batch.snapshot bs k now) with
      | ok next =>
          rw [hreconcile] at hresult
          refine absurd (fun s hs hindex => hresult.2.1 (found s) ?_ hindex) hall
          exact hwaits.mem_iff.2 ⟨s, hs, Nat.le_of_eq hindex.symm, rfl⟩
      | error e =>
          rw [hreconcile] at hresult
          rcases hresult with ⟨hreason, -⟩ | ⟨f, hf, hindex, hroot, rfl⟩
          · exact Or.inl hreason
          · obtain ⟨s, hs, -, rfl⟩ := hwaits.mem_iff.1 hf
            have hlt := (List.getElem?_eq_some_iff.1 hk).1
            refine Or.inr ⟨k, _, rfl, ⟨s, hs, hindex, ?_⟩, ?_⟩
            · rintro ⟨cs, hcs, heq⟩
              have hplace : s.treeIndex = k := hindex
              exact hroot ((hproduced _).2 ⟨cs, by rwa [← hplace], heq⟩)
            · rwa [Nat.min_eq_left (Nat.le_of_lt hlt)]
  surplus {store waiting e} hI hsurplus := by
    obtain ⟨hwaits, hexamined⟩ := hI
    obtain ⟨index, hindex, rfl⟩ := Option.map_eq_some_iff.1 hsurplus
    obtain ⟨f, hf, rfl⟩ := List.mem_map.1 (List.min?_mem hindex)
    obtain ⟨s, hs, hle, rfl⟩ := hwaits.mem_iff.1 hf
    have hmin : min (found s).treeIndex T.length = T.length := Nat.min_eq_right hle
    refine Or.inr ⟨_, _, rfl, ⟨s, hs, rfl, ?_⟩, ?_⟩
    · rintro ⟨cs, hcs, -⟩
      exact absurd hcs.lt_length (Nat.not_lt.2 hle)
    · rwa [hmin]

theorem recover_refused_cases {config : LogConfig} {events : List String} {index : Nat}
    {detail : String} (hrefused : recover store config now events =
      (.error (.recoveryInconsistency index detail), store')) :
    Refused (ofEvents config.maxLeavesPerTree events).trees now store store' index := by
  have hvalid := valid_ofEvents config.maxLeavesPerTree events
  have hcomp := comparison_examined _ now store hvalid.stateOf
  have hresult := recover_yields events hcomp store
    (yields_load store (fun _ hperm => ⟨waits_zero hperm, examined_zero _ now store⟩)
      fun e _ => Or.inl ⟨e, rfl⟩)
  rcases hresult with ⟨log, store'', waiting, hrecover, -⟩ | ⟨e, store'', hrecover, hQ⟩
  · rw [hrefused] at hrecover
    cases hrecover
  · rw [hrefused] at hrecover
    cases hrecover
    rcases hQ with ⟨reason, hreason⟩ | ⟨_, _, heq, h⟩
    · cases hreason
    · cases heq
      exact h

/-- What a refused recovery comes to. There is a snapshot of the tree it names that is not
legitimate. What it leaves behind is a store that is touched by no more than the trees before
that one; the very store that was found if these were up to date, which, if roots of
different trees differ, is the only case in which it holds what it held; and a store that is as
good as it was for any other recovery of which the trees that were written are states. -/
theorem recover_refused {config : LogConfig} {events : List String} {index : Nat}
    {detail : String} (hrefused : recover store config now events =
      (.error (.recoveryInconsistency index detail), store')) :
    (∃ s ∈ contents store, s.treeIndex = index ∧
      ¬ (found s).IsLegitimate (ofEvents config.maxLeavesPerTree events).trees) ∧
    Touched (ofEvents config.maxLeavesPerTree events).trees index now (contents store)
      (contents store') ∧
    ((∀ i < min index (ofEvents config.maxLeavesPerTree events).trees.length,
      UpToDate (ofEvents config.maxLeavesPerTree events).trees (contents store) i) →
        store' = store) ∧
    (Apart (ofEvents config.maxLeavesPerTree events).trees →
      contents store' = contents store →
        ∀ i < min index (ofEvents config.maxLeavesPerTree events).trees.length,
          UpToDate (ofEvents config.maxLeavesPerTree events).trees (contents store) i) ∧
    ∀ (config' : LogConfig) (now' : Nat) (events' : List String),
      (∀ i bs, i < index → (ofEvents config.maxLeavesPerTree events).trees[i]? = some bs →
        StateOf (ofEvents config'.maxLeavesPerTree events').trees i bs) →
      Legitimate (ofEvents config'.maxLeavesPerTree events').trees (contents store) →
      Reliable store' →
        ∃ log store'', recover store' config' now' events' = (.ok log, store'') := by
  obtain ⟨hfault, hexamined⟩ := recover_refused_cases hrefused
  have htouched := hexamined.touched.mono (Nat.min_le_left _ _)
  refine ⟨hfault, htouched, hexamined.unchanged, fun hapart hsame => ?_, ?_⟩
  · rw [← hsame]
    exact hexamined.upToDate hapart
  · intro config' now' events' hstates hlegitimate hreliable
    have hafter : Legitimate (ofEvents config'.maxLeavesPerTree events').trees
        (contents store') := by
      intro s hs
      rcases htouched.added s hs with hold | ⟨i, bs, hi, hbs, rfl⟩
      · exact hlegitimate s hold
      · exact ⟨bs, hstates i bs hi hbs, rfl⟩
    exact exists_recover_of_legitimate hreliable config' now' hafter

/-- The store of a log with trees of one leaf that recorded a full tree of blanks and an event
behind it. -/
def shelved : Shelf :=
  match fresh ⟨1⟩ 0 blanks with
  | .ok done => done.store
  | .error _ => Shelf.empty

theorem apart_shelved : Apart (ofEvents (LogConfig.mk 1).maxLeavesPerTree blanks).trees :=
  apart_blanks

theorem legitimate_shelved : Legitimate (ofEvents 1 blanks).trees (contents shelved) := by
  obtain ⟨done, hfresh, -, -, hsynced⟩ := fresh_eq_ok apart_shelved 0
  simp only [shelved, hfresh]
  exact hsynced.kept.legitimate

theorem recordedRoots_shelved : Chain.recordedRoots (contents shelved) =
    [(0, Digest.emptyRoot), (1, Batch.root [Digest.emptyRoot, "x"])] := by
  obtain ⟨done, hfresh, -, hwritten, hsynced⟩ := fresh_eq_ok apart_shelved 0
  simp only [shelved, hfresh]
  rw [hsynced.recordedRoots_eq hwritten]
  change (ofEvents 1 blanks).trees.zipIdx.map _ = _
  rw [ofEvents_blanks, ← root_blank]
  rfl

/-- The first tree in the store is full of blanks, and there is a second. -/
theorem mem_shelved :
    (∃ s ∈ contents shelved, s.treeIndex = 0) ∧ (∃ s ∈ contents shelved, s.treeIndex = 1) ∧
      ∀ s ∈ contents shelved, s.treeIndex = 0 → s.rootHash = Digest.emptyRoot := by
  have hmem : ∀ pair, pair ∈ Chain.recordedRoots (contents shelved) ↔
      pair = (0, Digest.emptyRoot) ∨ pair = (1, Batch.root [Digest.emptyRoot, "x"]) := by
    simp [recordedRoots_shelved]
  refine ⟨?_, ?_, fun s hs hindex => ?_⟩
  · obtain ⟨s, hs, heq⟩ := List.mem_map.1 ((hmem _).2 (Or.inl rfl))
    exact ⟨s, hs, congrArg Prod.fst heq⟩
  · obtain ⟨s, hs, heq⟩ := List.mem_map.1 ((hmem _).2 (Or.inr rfl))
    exact ⟨s, hs, congrArg Prod.fst heq⟩
  · rcases (hmem _).1 (List.mem_map.2 ⟨s, hs, rfl⟩) with heq | heq
    · exact congrArg Prod.snd heq
    · have hone : s.treeIndex = 1 := congrArg Prod.fst heq
      omega

/-- A journal with a single tree is refused over the two in the store. -/
theorem exists_refused_shelved (config : LogConfig) (now : Nat) {events : List String}
    (hone : (ofEvents config.maxLeavesPerTree events).trees.length = 1) :
    ∃ index detail store', recover shelved config now events =
      (.error (.recoveryInconsistency index detail), store') := by
  refine exists_refused_of_not_legitimate (reliable_shelf shelved) config now
    fun hlegitimate => ?_
  obtain ⟨s, hs, hindex⟩ := mem_shelved.2.1
  obtain ⟨bs, hbs, -⟩ := hlegitimate s hs
  have hlt := hbs.lt_length
  omega

/-- A journal that ends with the first tree is refused, and nothing is written. -/
theorem recover_refused_shelved :
    ∃ index detail, recover shelved ⟨1⟩ 1 (blanks.take 4) =
      (.error (.recoveryInconsistency index detail), shelved) := by
  have hone : (ofEvents 1 (blanks.take 4)).trees = [["", "", "", ""]] := rfl
  obtain ⟨index, detail, store', hrefused⟩ :=
    exists_refused_shelved ⟨1⟩ 1 (congrArg List.length hone)
  obtain ⟨-, -, hunchanged, -⟩ := recover_refused hrefused
  have hsame : store' = shelved := by
    refine hunchanged fun i hi => ?_
    obtain rfl : i = 0 := by
      rw [hone, List.length_singleton] at hi
      omega
    refine ⟨["", "", "", ""], rfl, mem_shelved.1, fun s hs hindex => ?_⟩
    rw [mem_shelved.2.2 s hs hindex, root_blank]
  exact ⟨index, detail, by rw [hrefused, hsame]⟩

theorem ofText_x : Digest.ofText "x" =
    "2d711642b726b04401627ca9fbac32f5c8530fb1903cc4db02258717921a4881" := by
  decide +kernel

theorem root_blanks_ne : Batch.root blanks ≠ Digest.emptyRoot := by
  have htexts : Batch.texts blanks =
      [["", "x"], [Digest.ofText "" ++ Digest.ofText "x"]] := by
    rw [Batch.texts, Batch.leafTexts, if_neg (by decide), Batch.leaves_of_ne_nil (by decide),
      Batch.leaves_of_length_le (by decide) (by decide)]
    change Batch.textsOver ["", "x"] = _
    rw [Batch.textsOver_of_lt (by decide), Batch.textsOver_of_le (by decide)]
    rfl
  have hroot : Batch.root blanks =
      Digest.ofText (Digest.emptyRoot ++
        "2d711642b726b04401627ca9fbac32f5c8530fb1903cc4db02258717921a4881") := by
    rw [Batch.root, Batch.rootText, htexts, ← ofText_x, ← Digest.ofText_empty]
    rfl
  rw [hroot]
  decide +kernel

/-- A recovery with trees of two leaves is refused since it does not come to a second tree. But
by then it has put its own first tree in place of the one in the store, and the recovery with
trees of one leaf, which would have succeeded, is refused from then on. -/
theorem not_contents_eq_of_refused :
    (∃ log store', recover shelved ⟨1⟩ 1 blanks = (.ok log, store')) ∧
    ∃ index detail store', recover shelved ⟨2⟩ 1 blanks =
        (.error (.recoveryInconsistency index detail), store') ∧
      contents store' ≠ contents shelved ∧
      ∃ index' detail' store'', recover store' ⟨1⟩ 2 blanks =
        (.error (.recoveryInconsistency index' detail'), store'') := by
  refine ⟨exists_recover_of_legitimate (reliable_shelf shelved) ⟨1⟩ 1 legitimate_shelved, ?_⟩
  have hone : (ofEvents 2 blanks).trees = [blanks] := rfl
  obtain ⟨index, detail, store', hrefused⟩ :=
    exists_refused_shelved ⟨2⟩ 1 (congrArg List.length hone)
  have h := recover_refused_cases hrefused
  change Refused (ofEvents 2 blanks).trees 1 shelved store' index at h
  rw [hone] at h
  obtain ⟨⟨s, hs, hindex, hfault⟩, hexamined⟩ := h
  -- the first tree in the store is no fault: it has the root of the empty tree
  have hpos : 0 < index := by
    rw [Nat.pos_iff_ne_zero]
    rintro rfl
    refine hfault ⟨[], ⟨⟨blanks, ?_, List.nil_prefix⟩, fun hlt => ?_⟩, ?_⟩
    · change [blanks][s.treeIndex]? = some blanks
      rw [hindex]
      rfl
    · change 0 < s.treeIndex at hlt
      omega
    · rw [Batch.root_nil]
      exact mem_shelved.2.2 s hs hindex
  obtain ⟨bs, hbs, ⟨t, ht, htindex⟩, hall⟩ :=
    hexamined.upToDate (apart_of_length_le_one (Nat.le_refl 1)) 0
      (by rw [List.length_singleton]; omega)
  obtain rfl : blanks = bs := Option.some.inj hbs
  have hroot := hall t ht htindex
  refine ⟨index, detail, store', hrefused, fun hsame => ?_, ?_⟩
  · rw [hsame] at ht
    exact root_blanks_ne (by rw [← hroot, mem_shelved.2.2 t ht htindex])
  · refine exists_refused_of_not_legitimate (reliable_shelf store') ⟨1⟩ 2 fun hlegitimate => ?_
    obtain ⟨cs, hcs, heq⟩ := hlegitimate t ht
    exact root_blanks_ne (by rw [← hroot, heq, (root_eq_emptyRoot_iff hcs).2 htindex])

end Log

end SealedLog
