import SealedLog.Log.Recovery
import SealedLog.Proofs.Log.Legitimate

/-!
# Replaying a journal

A recovery does two things at once. It rebuilds the log, which always follows the cut of the
events replayed so far and cannot fail; and, each time it leaves a tree, it compares that tree
with the store. What is known of the comparisons is kept apart from the replay: a
`Comparison` is a property of the store and the snapshots still to be compared that goes from
one tree to the next, with a property of the errors that may end it. `recover_yields` says
what a recovery comes to under any such pair.

The first pair used is about legitimate snapshots: `recover_cases`, a recovery succeeds only
over legitimate snapshots and leaves nothing else behind, it finds an inconsistency only where
there is one, and all other errors are those of a store that fails.
-/

namespace SealedLog

namespace Log

open Cut

/-- `P` holds of the value of a result, or `Q` of its error. -/
def Yields {ε α : Type} (P : α → Prop) (Q : ε → Prop) : Except ε α → Prop
  | .ok a => P a
  | .error e => Q e

theorem Yields.bind {ε α β : Type} {P : α → Prop} {Q : ε → Prop} {R : β → Prop}
    {x : Except ε α} {f : α → Except ε β} (h : Yields P Q x) (hf : ∀ a, P a → Yields R Q (f a)) :
    Yields R Q (x >>= f) := by
  cases x with
  | ok a => exact hf a h
  | error e => exact h

variable {σ : Type} [SnapshotStore σ]

theorem yields_load [LawfulStore σ] {P : List Snapshot → Prop} {Q : StoreError → Prop} (store : σ)
    (hok : ∀ listed, listed.Perm (contents store) → P listed)
    (herror : ∀ e, SnapshotStore.load store = .error e → Q e) :
    Yields P Q (SnapshotStore.load store) := by
  cases hload : SnapshotStore.load store with
  | ok listed => exact hok listed (LawfulStore.load_ok hload)
  | error e => exact herror e hload

def Found.IsLegitimate (T : List (List String)) (f : Found) : Prop :=
  ∃ bs, StateOf T f.treeIndex bs ∧ f.root = Batch.root bs

/-- The roots that a replay collects for the tree of index `k`. -/
def Produced (T : List (List String)) (k : Nat) (produced : List Hash) : Prop :=
  ∀ root, root ∈ produced ↔ ∃ bs, StateOf T k bs ∧ root = Batch.root bs

theorem Produced.mem_of_legitimate {T : List (List String)} {k : Nat} {produced : List Hash}
    (h : Produced T k produced) {l : List Snapshot} (hlegitimate : Legitimate T l) :
    ∀ s ∈ l, s.treeIndex = k → s.rootHash ∈ produced := by
  rintro s hs rfl
  exact (h _).2 (hlegitimate s hs)

/-- The property `I k` goes from one comparison to the next, `k` being the number of trees
that have been compared; `Q` holds of what ends them early. -/
structure Comparison (T : List (List String)) (now : Nat) (I : Nat → σ → List Found → Prop)
    (Q : LogError × σ → Prop) : Prop where
  step : ∀ {k : Nat} {store : σ} {waiting : List Found} {produced : List Hash}
    {bs : List String}, I k store waiting → T[k]? = some bs → StateOf T k bs →
      Produced T k produced →
        Yields (fun next => I (k + 1) next.1 next.2) Q
          (reconcile store waiting produced (Batch.snapshot bs k now))
  surplus : ∀ {store : σ} {waiting : List Found} {e : LogError}, I T.length store waiting →
    surplus? waiting = some e → Q (e, store)

/-- The replay has come to the cut `c`. -/
structure Replaying (config : LogConfig) (c : Cut) (r : Replay σ) : Prop where
  valid : c.Valid config.maxLeavesPerTree
  follows : r.log.Follows config c
  produced : Produced c.trees c.closed.length r.produced
  pendingWrite_eq : r.log.pendingWrite = false

variable {T : List (List String)} {now : Nat} {I : Nat → σ → List Found → Prop}
  {Q : LogError × σ → Prop} {config : LogConfig} {c : Cut} {r : Replay σ}

theorem Produced.congr {S : List (List String)} {k : Nat} {produced : List Hash}
    (h : Produced S k produced) (hsame : T[k]? = S[k]?) : Produced T k produced := by
  intro root
  rw [h root]
  simp only [StateOf, hsame]

theorem produced_next (c : Cut) :
    Produced c.next.trees c.next.closed.length [Batch.root [Batch.root c.current]] := by
  intro root
  have htop := getElem?_trees_length c.next
  rw [List.mem_singleton]
  constructor
  · rintro rfl
    exact ⟨_, stateOf_next c, rfl⟩
  · rintro ⟨bs, ⟨⟨cs, hcs, hpre⟩, hne⟩, rfl⟩
    rw [htop, Option.some.injEq] at hcs
    subst hcs
    have hpos : 0 < c.next.closed.length := by
      rw [closed_next, length_trees]
      omega
    rw [hpre.eq_of_length_le (List.length_pos_iff.2 (hne hpos))]
    rfl

/-- One more root for one more block. -/
theorem Produced.push {produced : List Hash} (block : String)
    (h : Produced c.trees c.closed.length produced) :
    Produced (c.push block).trees (c.push block).closed.length
      (Batch.root (c.current ++ [block]) :: produced) := by
  intro root
  have htop := getElem?_trees_length (c.push block)
  rw [List.mem_cons, h root]
  constructor
  · rintro (rfl | ⟨bs, hbs, rfl⟩)
    · exact ⟨_, ⟨⟨_, htop, List.prefix_refl _⟩, fun _ => by simp [Cut.push]⟩, rfl⟩
    · exact ⟨bs, hbs.mono (extends_push c block), rfl⟩
  · rintro ⟨bs, ⟨⟨cs, hcs, hpre⟩, hbs⟩, rfl⟩
    rw [htop, Option.some.injEq] at hcs
    subst hcs
    rcases List.prefix_concat_iff.1 hpre with rfl | hpre
    · exact Or.inl rfl
    · exact Or.inr ⟨bs, ⟨⟨_, getElem?_trees_length c, hpre⟩, hbs⟩, rfl⟩

theorem Replaying.rollOver_yields (hcomp : Comparison T now I Q) (h : Replaying config c r)
    (hI : I c.closed.length r.store r.waiting)
    (hext : Extends (c.roll config.maxLeavesPerTree).trees T) :
    Yields (fun r' => Replaying config (c.roll config.maxLeavesPerTree) r' ∧
      I (c.roll config.maxLeavesPerTree).closed.length r'.store r'.waiting) Q
        (r.rollOver now) := by
  have hvalid := h.valid.roll.1
  rw [Replay.rollOver]
  rw [roll] at hext hvalid ⊢
  by_cases hfull : capacity config.maxLeavesPerTree ≤ c.current.length
  · rw [if_pos hfull] at hext hvalid ⊢
    rw [if_pos ((h.follows.isFull_iff h.valid).2 hfull)]
    obtain ⟨next, hseal, hnext, -, hpending⟩ := h.follows.sealTree_eq
    simp only [hseal, h.follows.snapshot_eq]
    -- the tree that is left has its final state, since the next one has been begun
    have hplace : c.next.trees[c.closed.length]? = some c.current := by
      rw [getElem?_trees_of_lt (by rw [closed_next, length_trees]; omega), closed_next,
        getElem?_trees_length]
    obtain ⟨cs, hcs, -, hfinal⟩ := hext _ _ hplace
    rw [hfinal (by rw [length_trees, closed_next, length_trees]; omega)] at hcs
    have hstate : StateOf T c.closed.length c.current :=
      (h.valid.stateOf_current.mono (extends_next c)).mono hext
    have hproduced := h.produced.congr (T := T) (by rw [hcs, getElem?_trees_length])
    refine (hcomp.step hI hcs hstate hproduced).bind ?_
    rintro ⟨store, waiting⟩ hI'
    refine ⟨⟨hvalid, hnext, ?_, by rw [hpending, h.pendingWrite_eq]⟩, ?_⟩
    · rw [hnext.rootHash_eq]
      exact produced_next c
    · rw [closed_next, length_trees]
      exact hI'
  · rw [if_neg hfull] at hext hvalid ⊢
    have hnotFull : ¬ r.log.tree.isFull = true := fun hf =>
      hfull ((h.follows.isFull_iff h.valid).1 hf)
    rw [if_neg hnotFull]
    exact ⟨h, hI⟩

theorem Replaying.step_yields (hcomp : Comparison T now I Q) (h : Replaying config c r)
    (hI : I c.closed.length r.store r.waiting) (payload : String)
    (hext : Extends (c.add config.maxLeavesPerTree payload).trees T) :
    Yields (fun r' => Replaying config (c.add config.maxLeavesPerTree payload) r' ∧
      I (c.add config.maxLeavesPerTree payload).closed.length r'.store r'.waiting) Q
        (r.step now payload) := by
  rw [Replay.step]
  refine (h.rollOver_yields hcomp hI ((extends_push _ payload).trans hext)).bind ?_
  rintro r' ⟨h', hI'⟩
  obtain ⟨tree, happend, hfollows⟩ := h'.follows.append_eq payload
  simp only [happend]
  refine ⟨⟨h.valid.add payload, hfollows, ?_, h'.pendingWrite_eq⟩, hI'⟩
  have hroot : tree.rootHash =
      Batch.root ((c.roll config.maxLeavesPerTree).push payload).current :=
    hfollows.rootHash_eq
  simp only [hroot]
  exact h'.produced.push payload

theorem Replaying.foldlM_yields (hcomp : Comparison T now I Q) (events : List String)
    (h : Replaying config c r) (hI : I c.closed.length r.store r.waiting)
    (hext : Extends (events.foldl (add config.maxLeavesPerTree) c).trees T) :
    Yields (fun r' => Replaying config (events.foldl (add config.maxLeavesPerTree) c) r' ∧
      I (events.foldl (add config.maxLeavesPerTree) c).closed.length r'.store r'.waiting) Q
        (events.foldlM (Replay.step now) r) := by
  induction events generalizing c r with
  | nil => exact ⟨h, hI⟩
  | cons payload events ih =>
      rw [List.foldlM_cons]
      have hnext := (extends_foldl_add config.maxLeavesPerTree _ events).trans hext
      refine (h.step_yields hcomp hI payload hnext).bind ?_
      rintro r' ⟨h', hI'⟩
      exact ih h' hI' hext

/-- The log that a recovery gives: it follows all events and counts its tree as written. -/
structure Recovered (config : LogConfig) (c : Cut) (log : Log) : Prop where
  valid : c.Valid config.maxLeavesPerTree
  follows : log.Follows config c
  persistedRoot?_eq : log.persistedRoot? = some (Batch.root c.current)
  pendingWrite_eq : log.pendingWrite = false

theorem Replaying.finish_yields (hcomp : Comparison c.trees now I Q) (h : Replaying config c r)
    (hI : I c.closed.length r.store r.waiting) :
    Yields (fun done => Recovered config c done.1 ∧
      ∃ waiting, I c.trees.length done.2 waiting ∧ surplus? waiting = none) Q
        (r.finish now) := by
  rw [Replay.finish]
  simp only [h.follows.snapshot_eq]
  refine (hcomp.step hI (getElem?_trees_length c) h.valid.stateOf_current h.produced).bind ?_
  rintro ⟨store, waiting⟩ hI'
  rw [← length_trees] at hI'
  cases hsurplus : surplus? waiting with
  | some e =>
      exact hcomp.surplus hI' hsurplus
  | none =>
      simp only [h.follows.holds.sound.checkStructure_eq_ok]
      refine ⟨⟨h.valid, h.follows.of_tree_eq rfl rfl rfl rfl, rfl, h.pendingWrite_eq⟩,
        waiting, hI', hsurplus⟩

/-- What a recovery comes to: the log that follows the events, with the store as the
comparisons leave it, or the error that one of them ended in. -/
theorem recover_yields (events : List String)
    (hcomp : Comparison (ofEvents config.maxLeavesPerTree events).trees now I Q) (store : σ)
    (hload : Yields
      (fun found => I 0 store (found.map fun s => ⟨s.treeIndex, s.rootHash⟩))
      (fun e => Q (.notRecorded e, store)) (SnapshotStore.load store)) :
    (∃ log store' waiting, recover store config now events = (.ok log, store') ∧
      Recovered config (ofEvents config.maxLeavesPerTree events) log ∧
      I (ofEvents config.maxLeavesPerTree events).trees.length store' waiting ∧
      surplus? waiting = none) ∨
    ∃ e store', recover store config now events = (.error e, store') ∧ Q (e, store') := by
  rw [recover]
  cases hfound : SnapshotStore.load store with
  | error e =>
      rw [hfound] at hload
      exact Or.inr ⟨_, store, rfl, hload⟩
  | ok found =>
      rw [hfound] at hload
      have hstart : Replaying config .empty (Replay.start store config found) := by
        refine ⟨valid_empty _, follows_blank config, ?_, rfl⟩
        intro root
        change root ∈ [(blank config).rootHash] ↔ _
        rw [(follows_blank config).rootHash_eq, List.mem_singleton]
        constructor
        · rintro rfl
          exact ⟨[], ⟨⟨[], rfl, List.prefix_refl _⟩, fun hpos => absurd hpos (by decide)⟩, rfl⟩
        · rintro ⟨bs, ⟨⟨cs, hcs, hpre⟩, -⟩, rfl⟩
          cases hcs
          rw [List.prefix_nil.1 hpre]
          rfl
      have hall : Yields (fun done => Recovered config (ofEvents config.maxLeavesPerTree events)
            done.1 ∧ ∃ waiting, I (ofEvents config.maxLeavesPerTree events).trees.length done.2
              waiting ∧ surplus? waiting = none) Q
          (events.foldlM (Replay.step now) (.start store config found) >>= Replay.finish now) := by
        refine (hstart.foldlM_yields hcomp events hload (Extends.refl _)).bind ?_
        rintro r ⟨h, hI⟩
        exact h.finish_yields hcomp hI
      simp only
      cases hresult : events.foldlM (Replay.step now) (.start store config found) >>=
          Replay.finish now with
      | error e =>
          rw [hresult] at hall
          exact Or.inr ⟨e.1, e.2, rfl, hall⟩
      | ok done =>
          rw [hresult] at hall
          obtain ⟨hrecovered, waiting, hI, hsurplus⟩ := hall
          exact Or.inl ⟨done.1, done.2, waiting, rfl, hrecovered, hI, hsurplus⟩

/-- Where every root found for the tree was produced, the store is brought up to date. -/
theorem reconcile_eq {store : σ} {waiting : List Found} {produced : List Hash}
    {snapshot : Snapshot}
    (h : ∀ f ∈ waiting, f.treeIndex = snapshot.treeIndex → f.root ∈ produced) :
    reconcile store waiting produced snapshot =
      replaceEach store snapshot
          (outdated ((waiting.filter (·.treeIndex == snapshot.treeIndex)).map Found.root)
            snapshot.rootHash) >>=
        fun store => .ok (store, waiting.filter (·.treeIndex != snapshot.treeIndex)) := by
  have hnone : ((waiting.filter (·.treeIndex == snapshot.treeIndex)).map Found.root).find?
      (fun root => !produced.contains root) = none := by
    rw [List.find?_eq_none]
    intro root hroot
    obtain ⟨f, hf, rfl⟩ := List.mem_map.1 hroot
    rw [List.mem_filter, beq_iff_eq] at hf
    simpa using h f hf.1 hf.2
  simp only [reconcile, List.partition_eq_filter_filter, hnone]
  rfl

section Legitimate

variable [LawfulStore σ]

/-- What replacing roots one after the other does to a store. -/
theorem replaceEach_yields (store : σ) (snapshot : Snapshot) (olds : List (Option Hash)) :
    Yields (fun store' => (∀ t ∈ contents store', t = snapshot ∨ t ∈ contents store) ∧
        (Reliable store → Reliable store'))
      (fun e => (∃ reason, e.1 = .notRecorded reason) ∧ ¬ Reliable store)
      (replaceEach store snapshot olds) := by
  induction olds generalizing store with
  | nil => exact ⟨fun _ => Or.inr, id⟩
  | cons old? rest ih =>
      rw [replaceEach]
      cases hreplace : SnapshotStore.replace store old? snapshot with
      | mk result store₁ =>
          have hreliable := fun h : Reliable store => h.replace old? snapshot
          rw [hreplace] at hreliable
          cases result with
          | error e =>
              refine ⟨⟨e, rfl⟩, fun h => ?_⟩
              have hok := (hreliable h).1
              cases hok
          | ok _ =>
              have hrest := ih store₁
              simp only
              cases hresult : replaceEach store₁ snapshot rest with
              | ok store' =>
                  rw [hresult] at hrest
                  refine ⟨fun t ht => ?_, fun h => hrest.2 (hreliable h).2⟩
                  rcases hrest.1 t ht with rfl | ht
                  · exact Or.inl rfl
                  · exact mem_contents_of_replace hreplace ht
              | error e =>
                  rw [hresult] at hrest
                  exact ⟨hrest.1, fun h => hrest.2 (hreliable h).2⟩

/-- A comparison succeeds only if the replay went through every root found for the tree, and
the writes that it makes are of that tree. -/
theorem reconcile_yields (store : σ) (waiting : List Found) (produced : List Hash)
    (snapshot : Snapshot) :
    Yields (fun next => next.2 = waiting.filter (·.treeIndex != snapshot.treeIndex) ∧
        (∀ f ∈ waiting, f.treeIndex = snapshot.treeIndex → f.root ∈ produced) ∧
        (∀ t ∈ contents next.1, t = snapshot ∨ t ∈ contents store) ∧
        (Reliable store → Reliable next.1))
      (fun e => (∃ reason, e.1 = .notRecorded reason) ∧ ¬ Reliable store ∨
        ∃ f ∈ waiting, f.treeIndex = snapshot.treeIndex ∧ f.root ∉ produced ∧
          e = (.recoveryInconsistency snapshot.treeIndex (unproducedDetail f.root), store))
      (reconcile store waiting produced snapshot) := by
  by_cases hall : ∀ f ∈ waiting, f.treeIndex = snapshot.treeIndex → f.root ∈ produced
  · rw [reconcile_eq hall]
    have heach := replaceEach_yields store snapshot
      (outdated ((waiting.filter (·.treeIndex == snapshot.treeIndex)).map Found.root)
        snapshot.rootHash)
    cases hresult : replaceEach store snapshot
        (outdated ((waiting.filter (·.treeIndex == snapshot.treeIndex)).map Found.root)
          snapshot.rootHash) with
    | error e =>
        rw [hresult] at heach
        exact Or.inl heach
    | ok store' =>
        rw [hresult] at heach
        exact ⟨rfl, hall, heach.1, heach.2⟩
  · simp only [reconcile, List.partition_eq_filter_filter]
    split
    · next root hroot =>
        obtain ⟨f, hf, rfl⟩ := List.mem_map.1 (List.mem_of_find?_eq_some hroot)
        rw [List.mem_filter, beq_iff_eq] at hf
        have hproduced := List.find?_some hroot
        exact Or.inr ⟨f, hf.1, hf.2, by simpa using hproduced, rfl⟩
    · next hnone =>
        refine absurd (fun f hf hindex => ?_) hall
        have hfound := List.find?_eq_none.1 hnone f.root
          (List.mem_map.2 ⟨f, List.mem_filter.2 ⟨hf, by simpa using hindex⟩, rfl⟩)
        simpa using hfound

theorem surplus?_eq_none_iff (waiting : List Found) : surplus? waiting = none ↔ waiting = [] := by
  rw [surplus?, Option.map_eq_none_iff, List.min?_eq_none_iff, List.map_eq_nil_iff]

theorem exists_surplus? {waiting : List Found} {e : LogError} (h : surplus? waiting = some e) :
    waiting ≠ [] ∧ ∃ index detail, e = .recoveryInconsistency index detail := by
  refine ⟨fun hnil => ?_, ?_⟩
  · rw [(surplus?_eq_none_iff waiting).2 hnil] at h
    cases h
  · obtain ⟨index, -, rfl⟩ := Option.map_eq_some_iff.1 h
    exact ⟨index, _, rfl⟩

/-- A snapshot as a recovery finds it. -/
def found (s : Snapshot) : Found :=
  ⟨s.treeIndex, s.rootHash⟩

/-- The comparison for legitimate snapshots: what is in the store, and was in it at the
beginning, is legitimate or still waits to be compared. -/
theorem comparison_legitimate (T : List (List String)) (now : Nat) (store₀ : σ) :
    Comparison T now
      (fun k store waiting =>
        (∀ s ∈ contents store, (found s).IsLegitimate T ∨ found s ∈ waiting) ∧
        (∀ s ∈ contents store₀, (found s).IsLegitimate T ∨ found s ∈ waiting) ∧
        (∀ f ∈ waiting, k ≤ f.treeIndex ∧ ∃ s ∈ contents store₀, f = found s) ∧
        (Reliable store₀ → Reliable store))
      (fun e : LogError × σ => (∃ reason, e.1 = .notRecorded reason) ∧ ¬ Reliable store₀ ∨
        (∃ index detail, e.1 = .recoveryInconsistency index detail) ∧
          ¬ Legitimate T (contents store₀)) where
  step {k store waiting produced bs} hI hk hbs hproduced := by
    obtain ⟨hnow, hthen, hwaiting, hreliable⟩ := hI
    have hresult := reconcile_yields store waiting produced (Batch.snapshot bs k now)
    cases hreconcile : reconcile store waiting produced (Batch.snapshot bs k now) with
    | ok next =>
        rw [hreconcile] at hresult
        obtain ⟨hlater, hhere, hwritten, hnext⟩ := hresult
        -- a root found for this tree was produced, and all others still wait
        have hchecked : ∀ f : Found, f.IsLegitimate T ∨ f ∈ waiting →
            f.IsLegitimate T ∨ f ∈ next.2 := by
          rintro f (hf | hf)
          · exact Or.inl hf
          · by_cases hindex : f.treeIndex = k
            · obtain ⟨cs, hcs, hroot⟩ := (hproduced f.root).1 (hhere f hf hindex)
              exact Or.inl ⟨cs, by rwa [hindex], hroot⟩
            · rw [hlater]
              exact Or.inr (List.mem_filter.2 ⟨hf, bne_iff_ne.2 hindex⟩)
        refine ⟨fun s hs => ?_, fun s hs => hchecked _ (hthen s hs), fun f hf => ?_,
          fun h => hnext (hreliable h)⟩
        · rcases hwritten s hs with rfl | hs
          · exact Or.inl ⟨bs, hbs, rfl⟩
          · exact hchecked _ (hnow s hs)
        · rw [hlater, List.mem_filter, bne_iff_ne] at hf
          obtain ⟨hle, hfrom⟩ := hwaiting f hf.1
          refine ⟨?_, hfrom⟩
          have hne : f.treeIndex ≠ k := hf.2
          omega
    | error e =>
        rw [hreconcile] at hresult
        rcases hresult with ⟨hreason, hstore⟩ | ⟨f, hf, hindex, hroot, rfl⟩
        · exact Or.inl ⟨hreason, fun h => hstore (hreliable h)⟩
        · refine Or.inr ⟨⟨_, _, rfl⟩, fun hlegitimate => hroot ?_⟩
          obtain ⟨-, s, hs, rfl⟩ := hwaiting f hf
          obtain ⟨cs, hcs, heq⟩ := hlegitimate s hs
          have hplace : s.treeIndex = k := hindex
          exact (hproduced _).2 ⟨cs, by rwa [← hplace], heq⟩
  surplus {store waiting e} hI hsurplus := by
    obtain ⟨-, -, hwaiting, -⟩ := hI
    obtain ⟨hne, hinconsistent⟩ := exists_surplus? hsurplus
    refine Or.inr ⟨hinconsistent, fun hlegitimate => ?_⟩
    obtain ⟨f, hf⟩ := List.exists_mem_of_ne_nil _ hne
    obtain ⟨hle, s, hs, rfl⟩ := hwaiting f hf
    obtain ⟨bs, hbs, -⟩ := hlegitimate s hs
    exact absurd hbs.lt_length (Nat.not_lt.2 hle)

/-- The ways a recovery can end. It succeeds only if all snapshots in the store are
legitimate, and they are afterwards; it finds an inconsistency only if they are not; and it
fails otherwise only if the store does. -/
theorem recover_cases (store : σ) (config : LogConfig) (now : Nat) (events : List String) :
    (∃ log store', recover store config now events = (.ok log, store') ∧
      Recovered config (ofEvents config.maxLeavesPerTree events) log ∧
      Legitimate (ofEvents config.maxLeavesPerTree events).trees (contents store) ∧
      Legitimate (ofEvents config.maxLeavesPerTree events).trees (contents store')) ∨
    (∃ reason store', recover store config now events = (.error (.notRecorded reason), store') ∧
      ¬ Reliable store) ∨
    ∃ index detail store',
      recover store config now events = (.error (.recoveryInconsistency index detail), store') ∧
      ¬ Legitimate (ofEvents config.maxLeavesPerTree events).trees (contents store) := by
  have hcomp := comparison_legitimate (ofEvents config.maxLeavesPerTree events).trees now store
  have hresult := recover_yields events hcomp store (by
    refine yields_load store (fun listed hperm => ?_) fun e hload =>
      Or.inl ⟨⟨e, rfl⟩, not_reliable_of_load hload⟩
    have hwaiting : ∀ s ∈ contents store, found s ∈ listed.map found := fun s hs =>
      List.mem_map_of_mem (hperm.mem_iff.2 hs)
    refine ⟨fun s hs => Or.inr (hwaiting s hs), fun s hs => Or.inr (hwaiting s hs),
      fun f hf => ?_, id⟩
    obtain ⟨s, hs, rfl⟩ := List.mem_map.1 hf
    exact ⟨Nat.zero_le _, s, hperm.mem_iff.1 hs, rfl⟩)
  rcases hresult with
    ⟨log, store', waiting, hrecover, hrecovered, ⟨hnow, hthen, -, -⟩, hsurplus⟩ |
      ⟨e, store', hrecover, hQ⟩
  · rw [(surplus?_eq_none_iff waiting).1 hsurplus] at hnow hthen
    refine Or.inl ⟨log, store', hrecover, hrecovered, fun s hs => ?_, fun s hs => ?_⟩
    · exact (hthen s hs).resolve_right (by simp)
    · exact (hnow s hs).resolve_right (by simp)
  · rcases hQ with ⟨⟨reason, hreason⟩, hstore⟩ | ⟨⟨index, detail, hinconsistent⟩, hlegitimate⟩
    · cases hreason
      exact Or.inr (Or.inl ⟨reason, store', hrecover, hstore⟩)
    · cases hinconsistent
      exact Or.inr (Or.inr ⟨index, detail, store', hrecover, hlegitimate⟩)

variable {events : List String}

/-- What is known of a recovery that succeeded. -/
theorem recovered_of_recover {store store' : σ} {log : Log}
    (h : recover store config now events = (.ok log, store')) :
    Recovered config (ofEvents config.maxLeavesPerTree events) log ∧
      Legitimate (ofEvents config.maxLeavesPerTree events).trees (contents store) := by
  rcases recover_cases store config now events with
    ⟨_, _, hok, hrecovered, hlegitimate, -⟩ | ⟨_, _, herror, -⟩ | ⟨_, _, _, herror, -⟩
  · rw [h] at hok
    cases hok
    exact ⟨hrecovered, hlegitimate⟩
  · rw [h] at herror
    cases herror
  · rw [h] at herror
    cases herror

/-- Over legitimate snapshots a recovery succeeds, if the store does not fail. -/
theorem exists_recover_of_legitimate {store : σ} (hreliable : Reliable store)
    (config : LogConfig) (now : Nat)
    (h : Legitimate (ofEvents config.maxLeavesPerTree events).trees (contents store)) :
    ∃ log store', recover store config now events = (.ok log, store') := by
  rcases recover_cases store config now events with
    ⟨log, store', hrecover, -⟩ | ⟨_, _, -, hfailing⟩ | ⟨_, _, _, -, hillegitimate⟩
  · exact ⟨log, store', hrecover⟩
  · exact absurd hreliable hfailing
  · exact absurd h hillegitimate

/-- Over any other snapshot it is refused. -/
theorem exists_refused_of_not_legitimate {store : σ} (hreliable : Reliable store)
    (config : LogConfig) (now : Nat)
    (h : ¬ Legitimate (ofEvents config.maxLeavesPerTree events).trees (contents store)) :
    ∃ index detail store', recover store config now events =
      (.error (.recoveryInconsistency index detail), store') := by
  rcases recover_cases store config now events with
    ⟨_, _, -, -, hlegitimate, -⟩ | ⟨_, _, -, hfailing⟩ | ⟨index, detail, store', hrecover, -⟩
  · exact absurd hlegitimate h
  · exact absurd hreliable hfailing
  · exact ⟨index, detail, store', hrecover⟩

end Legitimate

end Log

end SealedLog
