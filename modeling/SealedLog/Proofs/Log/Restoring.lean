import SealedLog.Proofs.Log.Refusal

/-!
# What a recovery makes of any store

`Mending` is about a store that some run left behind. Here the store may hold any snapshots of
any trees, several of one tree or made up ones among them, as long as no two have the same root;
a recovery that succeeds has found them all legitimate. Of each tree it leaves one snapshot.
Which one depends on roots alone: a single snapshot that was found under the final root of its
tree stays as it is, whatever it has for blocks, and in all other cases the snapshot is that of
the replayed tree (`Restores`).

Main statement: `contents_of_recover`.
-/

namespace SealedLog

open Cut

namespace Log

theorem Yields.and {ε α : Type} {P P' : α → Prop} {Q Q' : ε → Prop} {x : Except ε α}
    (h : Yields P Q x) (h' : Yields P' Q' x) : Yields (fun a => P a ∧ P' a) Q x := by
  cases x with
  | ok a => exact ⟨h, h'⟩
  | error e => exact h

/-- The snapshot of its tree that a recovery leaves in a store that held `l₀`. -/
def Restores (T : List (List String)) (l₀ : List Snapshot) (now : Nat) (s : Snapshot) : Prop :=
  ∃ bs, T[s.treeIndex]? = some bs ∧
    (UpToDate T l₀ s.treeIndex ∧ s ∈ l₀ ∨
      ¬ UpToDate T l₀ s.treeIndex ∧ s = Batch.snapshot bs s.treeIndex now)

/-- The store held `l₀`, and holds `l` after the first `k` trees were compared and written. -/
structure Restored (T : List (List String)) (l₀ l : List Snapshot) (now k : Nat) : Prop where
  keyed : Keyed l
  mem_iff : ∀ s, s ∈ l ↔
    s ∈ l₀ ∧ k ≤ s.treeIndex ∨ Restores T l₀ now s ∧ s.treeIndex < k

variable {T : List (List String)} {l₀ l l' : List Snapshot} {now k : Nat} {s : Snapshot}
  {bs : List String}

theorem restored_zero (hkeyed : Keyed l₀) : Restored T l₀ l₀ now 0 where
  keyed := hkeyed
  mem_iff s := by simp

theorem restores_iff_mem (hbs : T[s.treeIndex]? = some bs) (hcurrent : UpToDate T l₀ s.treeIndex) :
    Restores T l₀ now s ↔ s ∈ l₀ := by
  constructor
  · rintro ⟨_, -, ⟨-, hold⟩ | ⟨hstale, -⟩⟩
    · exact hold
    · exact absurd hcurrent hstale
  · intro hold
    exact ⟨bs, hbs, Or.inl ⟨hcurrent, hold⟩⟩

theorem restores_iff_eq (hbs : T[s.treeIndex]? = some bs) (hstale : ¬ UpToDate T l₀ s.treeIndex) :
    Restores T l₀ now s ↔ s = Batch.snapshot bs s.treeIndex now := by
  constructor
  · rintro ⟨cs, hcs, ⟨hcurrent, -⟩ | ⟨-, heq⟩⟩
    · exact absurd hcurrent hstale
    · obtain rfl : bs = cs := Option.some.inj (hbs.symm.trans hcs)
      exact heq
  · intro heq
    exact ⟨bs, hbs, Or.inr ⟨hstale, heq⟩⟩

theorem Restores.rootHash_eq (h : Restores T l₀ now s) (hbs : T[s.treeIndex]? = some bs) :
    s.rootHash = Batch.root bs := by
  obtain ⟨cs, hcs, ⟨⟨ds, hds, -, hall⟩, hs⟩ | ⟨-, heq⟩⟩ := h
  · obtain rfl : bs = ds := Option.some.inj (hbs.symm.trans hds)
    exact hall s hs rfl
  · obtain rfl : bs = cs := Option.some.inj (hbs.symm.trans hcs)
    rw [heq]
    rfl

theorem Restored.legitimate (h : Restored T l₀ l now k) (hl₀ : Legitimate T l₀)
    (hT : ∀ {i : Nat} {bs : List String}, T[i]? = some bs → StateOf T i bs) : Legitimate T l := by
  intro s hs
  rcases (h.mem_iff s).1 hs with ⟨hold, -⟩ | ⟨hrestores, -⟩
  · exact hl₀ s hold
  · obtain ⟨bs, hbs, -⟩ := id hrestores
    exact ⟨bs, hT hbs, hrestores.rootHash_eq hbs⟩

/-- What is to be shown of the next tree: the snapshots of other trees are left alone, and of
this one there is what is to be there. -/
theorem Restored.succ (h : Restored T l₀ l now k) (hkeyed : Keyed l')
    (hother : ∀ s, s.treeIndex ≠ k → (s ∈ l' ↔ s ∈ l))
    (hplace : ∀ s, s.treeIndex = k → (s ∈ l' ↔ Restores T l₀ now s)) :
    Restored T l₀ l' now (k + 1) where
  keyed := hkeyed
  mem_iff s := by
    by_cases hindex : s.treeIndex = k
    · have hnot : ¬ k + 1 ≤ s.treeIndex := by omega
      have hlt : s.treeIndex < k + 1 := by omega
      rw [hplace s hindex, and_iff_left hlt, or_iff_right fun hold => hnot hold.2]
    · have hle : k ≤ s.treeIndex ↔ k + 1 ≤ s.treeIndex := by omega
      have hlt : s.treeIndex < k ↔ s.treeIndex < k + 1 := by omega
      rw [hother s hindex, h.mem_iff, hle, hlt]

/-- The next tree is passed over if it is up to date. -/
theorem Restored.pass (h : Restored T l₀ l now k) (hk : T[k]? = some bs)
    (hcurrent : UpToDate T l₀ k) : Restored T l₀ l now (k + 1) := by
  refine h.succ h.keyed (fun s _ => Iff.rfl) fun s hindex => ?_
  subst hindex
  rw [h.mem_iff, restores_iff_mem hk hcurrent, and_iff_left (Nat.le_refl _),
    or_iff_left fun hbefore => Nat.lt_irrefl _ hbefore.2]

/-- The next tree is written in place of what is outdated of it, or as the first of its index.
Snapshots of other trees have other roots. -/
theorem Restored.rewrite (h : Restored T l₀ l now k) (hl₀ : Legitimate T l₀) (hapart : Apart T)
    (hT : ∀ {i : Nat} {bs : List String}, T[i]? = some bs → StateOf T i bs)
    (hk : T[k]? = some bs) {roots : List Hash}
    (hroots : ∀ root, root ∈ roots ↔ ∃ s ∈ l₀, s.treeIndex = k ∧ s.rootHash = root)
    (hstale : ¬ UpToDate T l₀ k) (hkeyed : Keyed l')
    (hmem : ∀ t, t ∈ l' ↔ t = Batch.snapshot bs k now ∨
      t ∈ l ∧ t.rootHash ≠ Batch.root bs ∧ some t.rootHash ∉ outdated roots (Batch.root bs)) :
    Restored T l₀ l' now (k + 1) := by
  refine h.succ hkeyed (fun s hindex => ?_) fun s hindex => ?_
  · have hroot : ∀ {cs : List String}, s ∈ l → StateOf T k cs → s.rootHash ≠ Batch.root cs := by
      intro cs hs hcs heq
      obtain ⟨ds, hds, hsame⟩ := h.legitimate hl₀ hT s hs
      exact hindex (hapart _ _ ds cs hds hcs (by rw [← hsame, heq]))
    rw [hmem]
    constructor
    · rintro (rfl | ⟨hs, -⟩)
      · exact absurd rfl hindex
      · exact hs
    · intro hs
      refine Or.inr ⟨hs, hroot hs (hT hk), fun hold => ?_⟩
      obtain ⟨t, ht, htindex, heq⟩ := (hroots _).1 (some_mem_outdated_iff.1 hold).1
      obtain ⟨cs, hcs, hsame⟩ := hl₀ t ht
      rw [htindex] at hcs
      exact hroot hs hcs (by rw [← heq, hsame])
  · subst hindex
    rw [hmem, restores_iff_eq hk hstale, or_iff_left]
    -- what was found of the tree is under its final root or outdated
    rintro ⟨hs, hne, hkept⟩
    rcases (h.mem_iff s).1 hs with ⟨hold, -⟩ | ⟨-, hlt⟩
    · have hfound := (hroots s.rootHash).2 ⟨s, hold, rfl, rfl⟩
      exact absurd (some_mem_outdated_iff.2 ⟨hfound, hne⟩) hkept
    · exact absurd hlt (Nat.lt_irrefl _)

section Stores

variable {σ : Type} [SnapshotStore σ] [LawfulStore σ] {store₀ store store' : σ}

theorem replaceEach_keyed {store : σ} (hkeyed : Keyed (contents store)) (snapshot : Snapshot)
    (olds : List (Option Hash)) :
    Yields (fun store' => Keyed (contents store')) (fun _ => True)
      (replaceEach store snapshot olds) := by
  induction olds generalizing store with
  | nil => exact hkeyed
  | cons old? rest ih =>
      rw [replaceEach]
      rcases replace_cases store old? snapshot with
        ⟨store₁, hreplace, hcontents⟩ | ⟨e, store₁, hreplace, -⟩
      · simp only [hreplace]
        exact ih (by rw [hcontents]; exact hkeyed.replace old? snapshot)
      · simp only [hreplace]
        trivial

/-- The writes for the next tree, if any are due. -/
theorem Restored.replaceEach_yields (h : Restored T l₀ (contents store) now k)
    (hl₀ : Legitimate T l₀) (hapart : Apart T)
    (hT : ∀ {i : Nat} {bs : List String}, T[i]? = some bs → StateOf T i bs)
    (hk : T[k]? = some bs) {roots : List Hash}
    (hroots : ∀ root, root ∈ roots ↔ ∃ s ∈ l₀, s.treeIndex = k ∧ s.rootHash = root) :
    Yields (fun store' => Restored T l₀ (contents store') now (k + 1)) (fun _ => True)
      (replaceEach store (Batch.snapshot bs k now) (outdated roots (Batch.root bs))) := by
  have hcurrent := outdated_eq_nil_iff_upToDate hk hroots
  cases houtdated : outdated roots (Batch.root bs) with
  | nil => exact h.pass hk (hcurrent.1 houtdated)
  | cons old? rest =>
      have hstale : ¬ UpToDate T l₀ k := by
        rw [← hcurrent, houtdated]
        simp
      have hyields := (replaceEach_cons_yields store (Batch.snapshot bs k now) old? rest).and
        (replaceEach_keyed h.keyed (Batch.snapshot bs k now) (old? :: rest))
      cases hresult : replaceEach store (Batch.snapshot bs k now) (old? :: rest) with
      | ok store' =>
          rw [hresult, ← houtdated] at hyields
          exact h.rewrite hl₀ hapart hT hk hroots hstale hyields.2 hyields.1
      | error e => trivial

/-- The comparison over legitimate snapshots. -/
theorem comparison_restored (hlegitimate : Legitimate T (contents store₀)) (hapart : Apart T)
    (hT : ∀ {i : Nat} {bs : List String}, T[i]? = some bs → StateOf T i bs) (now : Nat) :
    Comparison T now
      (fun k (store : σ) waiting => Waits (contents store₀) k waiting ∧
        Restored T (contents store₀) (contents store) now k)
      (fun _ => True) where
  step {k store waiting produced bs} hI hk hbs hproduced := by
    obtain ⟨hwaits, hrestored⟩ := hI
    rw [hwaits.reconcile_eq store (hproduced.mem_of_legitimate hlegitimate)]
    exact (hrestored.replaceEach_yields hlegitimate hapart hT hk fun root =>
      hwaits.mem_roots_iff).bind fun store' hstore' => ⟨hwaits.later, hstore'⟩
  surplus _ _ := trivial

/-- What a recovery that succeeds makes of the store. -/
theorem restored_of_recover {config : LogConfig} {events : List String} {log : Log}
    (hkeyed : Keyed (contents store))
    (hapart : Apart (ofEvents config.maxLeavesPerTree events).trees)
    (h : recover store config now events = (.ok log, store')) :
    Keyed (contents store') ∧ ∀ s, s ∈ contents store' ↔
      Restores (ofEvents config.maxLeavesPerTree events).trees (contents store) now s := by
  have hvalid := valid_ofEvents config.maxLeavesPerTree events
  obtain ⟨-, hlegitimate⟩ := recovered_of_recover h
  have hresult := recover_yields events
    (comparison_restored hlegitimate hapart hvalid.stateOf now) store
    (yields_load store (fun _ hperm => ⟨waits_zero hperm, restored_zero hkeyed⟩)
      fun _ _ => trivial)
  rcases hresult with ⟨_, store'', waiting, hrecover, -, ⟨-, hrestored⟩, -⟩ | ⟨_, _, hrecover, -⟩
  · rw [h] at hrecover
    cases hrecover
    refine ⟨hrestored.keyed, fun s => ?_⟩
    rw [hrestored.mem_iff]
    constructor
    · rintro (⟨hs, hle⟩ | ⟨hrestores, -⟩)
      · obtain ⟨cs, hcs, -⟩ := hlegitimate s hs
        exact absurd hcs.lt_length (Nat.not_lt.2 hle)
      · exact hrestores
    · intro hrestores
      obtain ⟨bs, hbs, -⟩ := id hrestores
      exact Or.inr ⟨hrestores, (List.getElem?_eq_some_iff.1 hbs).1⟩
  · rw [h] at hrecover
    cases hrecover

end Stores

theorem filter_treeIndex_eq_singleton_iff (hkeyed : Keyed l) {i : Nat} :
    l.filter (·.treeIndex == i) = [s] ↔ ∀ t, t ∈ l ∧ t.treeIndex = i ↔ t = s := by
  have hmem : ∀ t, t ∈ l.filter (·.treeIndex == i) ↔ t ∈ l ∧ t.treeIndex = i := by
    intro t
    rw [List.mem_filter, beq_iff_eq]
  rw [← List.perm_singleton, List.perm_ext_iff_of_nodup (hkeyed.nodup.filter _)
    (List.nodup_singleton s)]
  simp only [hmem, List.mem_singleton]

/-- Since roots are different, a tree is up to date if there is one snapshot of it, under its
final root. -/
theorem upToDate_iff_filter_eq (hkeyed : Keyed l) {i : Nat} (hbs : T[i]? = some bs) :
    UpToDate T l i ↔ ∃ s, l.filter (·.treeIndex == i) = [s] ∧ s.rootHash = Batch.root bs := by
  constructor
  · rintro ⟨cs, hcs, ⟨s, hs, hindex⟩, hall⟩
    obtain rfl : bs = cs := Option.some.inj (hbs.symm.trans hcs)
    have hroot := hall s hs hindex
    refine ⟨s, (filter_treeIndex_eq_singleton_iff hkeyed).2 fun t => ⟨?_, ?_⟩, hroot⟩
    · rintro ⟨ht, htindex⟩
      exact hkeyed.eq_of_rootHash_eq ht hs (by rw [hall t ht htindex, hroot])
    · rintro rfl
      exact ⟨hs, hindex⟩
  · rintro ⟨s, hone, hroot⟩
    have hmem := (filter_treeIndex_eq_singleton_iff hkeyed).1 hone
    obtain ⟨hs, hindex⟩ := (hmem s).2 rfl
    exact ⟨bs, hbs, ⟨s, hs, hindex⟩, fun t ht htindex => by rw [(hmem t).1 ⟨ht, htindex⟩, hroot]⟩

/-- How `s` is the snapshot of the tree `t` of index `i` in a store that held `l` before and
holds `l'` now. -/
structure Represents (l l' : List Snapshot) (t : Tree) (i now : Nat) (s : Snapshot) : Prop where
  alone : l'.filter (·.treeIndex == i) = [s]
  rootHash_eq : s.rootHash = t.rootHash
  kept : ∀ u, l.filter (·.treeIndex == i) = [u] → u.rootHash = t.rootHash → s = u
  written : (∀ u, l.filter (·.treeIndex == i) = [u] → u.rootHash ≠ t.rootHash) →
    s = Snapshot.ofTree t i now
  agrees : (∀ u ∈ l, u.treeIndex = i → u.rootHash = t.rootHash →
      u.leafBlocks = t.leafBlocks ∧ u.levelHashes = t.levelHashes) →
    s.leafBlocks = t.leafBlocks ∧ s.levelHashes = t.levelHashes

/-- Of each tree one snapshot is restored. -/
theorem exists_represents (hkeyed : Keyed l) (hkeyed' : Keyed l')
    (hmem : ∀ s, s ∈ l' ↔ Restores T l now s) {i : Nat} (hbs : T[i]? = some bs) {t : Tree}
    (ht : t.Holds bs) : ∃ s, Represents l l' t i now s := by
  have hroot := ht.rootHash_eq
  by_cases hcurrent : UpToDate T l i
  · obtain ⟨u, hone, huroot⟩ := (upToDate_iff_filter_eq hkeyed hbs).1 hcurrent
    have hu := (filter_treeIndex_eq_singleton_iff hkeyed).1 hone
    refine ⟨u, ?_, by rw [huroot, hroot], fun v hv _ => ?_, fun hnone => ?_, fun hall => ?_⟩
    · rw [filter_treeIndex_eq_singleton_iff hkeyed']
      intro v
      rw [← hu v]
      apply and_congr_left
      rintro rfl
      rw [hmem, restores_iff_mem hbs hcurrent]
    · rw [hone] at hv
      exact List.singleton_inj.1 hv
    · exact absurd (by rw [huroot, hroot]) (hnone u hone)
    · obtain ⟨hmemu, hindex⟩ := (hu u).2 rfl
      exact hall u hmemu hindex (by rw [huroot, hroot])
  · have hnone : ∀ u, l.filter (·.treeIndex == i) = [u] → u.rootHash ≠ t.rootHash := by
      intro u hone huroot
      exact hcurrent ((upToDate_iff_filter_eq hkeyed hbs).2 ⟨u, hone, by rw [huroot, hroot]⟩)
    refine ⟨Snapshot.ofTree t i now, ?_, rfl, fun u hone huroot => ?_, fun _ => rfl,
      fun _ => ⟨rfl, rfl⟩⟩
    · rw [filter_treeIndex_eq_singleton_iff hkeyed', ht.ofTree_eq]
      intro v
      constructor
      · rintro ⟨hv, rfl⟩
        exact (restores_iff_eq hbs hcurrent).1 ((hmem v).1 hv)
      · rintro rfl
        exact ⟨(hmem _).2 ((restores_iff_eq hbs hcurrent).2 rfl), rfl⟩
    · exact absurd huroot (hnone u hone)

section Stores

variable {σ : Type} [SnapshotStore σ] [LawfulStore σ] {store store' : σ}

/-- After a recovery that succeeds, over any store, the log follows the events and the store has
one snapshot of each of its trees and no other. That has the root of the tree. It is the
snapshot of the tree, unless there was just one of that index before, under the same root: then
it is that one, and what it has for blocks is not looked at. -/
theorem contents_of_recover {config : LogConfig} {events : List String} {log : Log}
    (hkeyed : Keyed (contents store))
    (hapart : Apart (ofEvents config.maxLeavesPerTree events).trees)
    (h : recover store config now events = (.ok log, store')) :
    log.Follows config (ofEvents config.maxLeavesPerTree events) ∧
    (∀ s ∈ contents store', s.treeIndex ≤ log.treeIndex) ∧
    ∀ i ≤ log.treeIndex, ∃ bs t s,
      (ofEvents config.maxLeavesPerTree events).trees[i]? = some bs ∧
      Tree.ofBlocks bs config.maxLeavesPerTree = .ok t ∧
      Represents (contents store) (contents store') t i now s := by
  obtain ⟨hrecovered, -⟩ := recovered_of_recover h
  obtain ⟨hkeyed', hmem⟩ := restored_of_recover hkeyed hapart h
  have hlength := hrecovered.follows.treeIndex_eq
  refine ⟨hrecovered.follows, fun s hs => ?_, fun i hi => ?_⟩
  · obtain ⟨bs, hbs, -⟩ := (hmem s).1 hs
    have hlt := (List.getElem?_eq_some_iff.1 hbs).1
    rw [length_trees] at hlt
    omega
  · have hlt : i < (ofEvents config.maxLeavesPerTree events).trees.length := by
      rw [length_trees]
      omega
    have hbs := List.getElem?_eq_getElem hlt
    obtain ⟨t, ht, hholds, -⟩ := Tree.ofBlocks_eq_ok
      (ofEvents config.maxLeavesPerTree events).trees[i] config.maxLeavesPerTree
    obtain ⟨s, hs⟩ := exists_represents hkeyed hkeyed' hmem hbs hholds
    exact ⟨_, t, s, hbs, ht, hs⟩

end Stores

/-- A snapshot under the root of the tree of the event `x` that shows another block. -/
def doctored : Snapshot :=
  { Batch.snapshot ["x"] 0 0 with leafBlocks := [["z"]] }

theorem trees_x : (ofEvents (LogConfig.mk 1).maxLeavesPerTree ["x"]).trees = [["x"]] := rfl

theorem apart_x : Apart (ofEvents (LogConfig.mk 1).maxLeavesPerTree ["x"]).trees :=
  apart_of_length_le_one (Nat.le_of_eq (congrArg List.length trees_x))

theorem root_x : Batch.root ["x"] = Digest.ofText "x" := by
  rw [Batch.root, Batch.rootText_of_length_le (by decide)]
  rfl

theorem keyed_beside : Keyed [doctored, Batch.snapshot [] 0 0] := by
  have hne : Batch.root ["x"] ≠ Batch.root [] := by
    rw [root_x, Batch.root_nil, ofText_x]
    decide
  change [Batch.root ["x"], Batch.root []].Nodup
  simpa using hne

theorem legitimate_beside : Legitimate (ofEvents (LogConfig.mk 1).maxLeavesPerTree ["x"]).trees
    [doctored, Batch.snapshot [] 0 0] := by
  have hstate : ∀ {bs : List String}, bs <+: ["x"] → StateOf [["x"]] 0 bs := fun hbs =>
    ⟨⟨["x"], rfl, hbs⟩, fun hlt => absurd hlt (Nat.lt_irrefl 0)⟩
  rw [trees_x]
  intro s hs
  rw [List.mem_cons, List.mem_singleton] at hs
  rcases hs with rfl | rfl
  · exact ⟨["x"], hstate (List.prefix_refl _), rfl⟩
  · exact ⟨[], hstate List.nil_prefix, rfl⟩

/-- Beside a snapshot of the empty tree, which is outdated, the doctored one is written anew. -/
theorem contents_of_recover_beside :
    Keyed (contents (Shelf.mk [doctored, Batch.snapshot [] 0 0])) ∧
    Apart (ofEvents (LogConfig.mk 1).maxLeavesPerTree ["x"]).trees ∧
    ∃ log store', recover (Shelf.mk [doctored, Batch.snapshot [] 0 0]) ⟨1⟩ 1 ["x"] =
        (.ok log, store') ∧
      ∃ t, Tree.ofBlocks ["x"] 1 = .ok t ∧
        (contents store').filter (·.treeIndex == 0) = [Snapshot.ofTree t 0 1] := by
  obtain ⟨log, store', h⟩ := exists_recover_of_legitimate
    (reliable_shelf (Shelf.mk [doctored, Batch.snapshot [] 0 0])) ⟨1⟩ 1 legitimate_beside
  obtain ⟨-, -, hall⟩ := contents_of_recover keyed_beside apart_x h
  obtain ⟨bs, t, s, hbs, ht, hs⟩ := hall 0 (Nat.zero_le _)
  rw [trees_x] at hbs
  obtain rfl : ["x"] = bs := Option.some.inj hbs
  refine ⟨keyed_beside, apart_x, log, store', h, t, ht, ?_⟩
  rw [← hs.written fun u hone => by cases hone]
  exact hs.alone

/-- By itself the doctored snapshot stays, and does not agree with the tree of the log. -/
theorem exists_disagrees_of_recover :
    Keyed (contents (Shelf.mk [doctored])) ∧
    Apart (ofEvents (LogConfig.mk 1).maxLeavesPerTree ["x"]).trees ∧
    ∃ log store', recover (Shelf.mk [doctored]) ⟨1⟩ 1 ["x"] = (.ok log, store') ∧
      ∃ s ∈ contents store', s.treeIndex = log.treeIndex ∧ s.rootHash = log.rootHash ∧
        s.leafBlocks ≠ log.tree.leafBlocks := by
  have hkeyed : Keyed (contents (Shelf.mk [doctored])) := List.nodup_singleton _
  have hlegitimate : Legitimate (ofEvents (LogConfig.mk 1).maxLeavesPerTree ["x"]).trees
      [doctored] := fun s hs => legitimate_beside s (by simp [List.mem_singleton.1 hs])
  obtain ⟨log, store', h⟩ := exists_recover_of_legitimate (reliable_shelf (Shelf.mk [doctored]))
    ⟨1⟩ 1 hlegitimate
  obtain ⟨hrecovered, -⟩ := recovered_of_recover h
  obtain ⟨-, hmem⟩ := restored_of_recover hkeyed apart_x h
  have hcurrent : UpToDate (ofEvents (LogConfig.mk 1).maxLeavesPerTree ["x"]).trees [doctored]
      doctored.treeIndex := by
    refine ⟨["x"], rfl, ⟨doctored, by simp, rfl⟩, fun s hs _ => ?_⟩
    rw [List.mem_singleton.1 hs]
    rfl
  refine ⟨hkeyed, apart_x, log, store', h, doctored, ?_, ?_, ?_, ?_⟩
  · have hbs : (ofEvents (LogConfig.mk 1).maxLeavesPerTree ["x"]).trees[doctored.treeIndex]? =
        some ["x"] := rfl
    exact (hmem doctored).2 ((restores_iff_mem hbs hcurrent).2 (List.mem_singleton_self doctored))
  · rw [hrecovered.follows.treeIndex_eq]
    rfl
  · rw [hrecovered.follows.rootHash_eq]
    rfl
  · rw [hrecovered.follows.holds.leafBlocks_eq]
    change [["z"]] ≠ Batch.leaves ["x"]
    rw [Batch.leaves_of_length_le (by decide) (by decide)]
    decide

end Log

end SealedLog
