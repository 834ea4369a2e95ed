import SealedLog.Proofs.Chain.Kept
import SealedLog.Proofs.Log.Legitimate

/-!
# Recording keeps the store

The invariant of a log and its store between two calls, and what each call does to it. The
store is `Kept` up to the current tree, the log knows the root of the snapshot it has to
replace, and where no write is pending that snapshot is the one of the current tree.

Each operation gets one lemma that says what the log follows afterwards, what the store went
through, and, where it may fail, what is so in either case. `record_synced` puts them
together: an event is in the tree exactly if the outcome says so, and no write on the way
leaves the store in another state than one of the trees with that event in them.
-/

namespace SealedLog

open Cut

theorem Kept.legitimate {L : Likeness} {T : List (List String)} {l : List Snapshot}
    (h : Kept L T l) : Legitimate T l := by
  intro s hs
  obtain ⟨i, hi⟩ := List.getElem?_of_mem hs
  obtain ⟨bs, hbs, hlike, -⟩ := h.state hi
  exact ⟨bs, by rwa [h.index hi], L.root_eq hlike⟩

namespace Log

variable {σ : Type} [SnapshotStore σ] [LawfulStore σ]

/-- The store has a snapshot of every tree, and the log knows which one is to be replaced. -/
structure Backed (L : Likeness) (config : LogConfig) (c : Cut) (log : Log)
    (l : List Snapshot) : Prop where
  valid : c.Valid config.maxLeavesPerTree
  follows : log.Follows config c
  kept : Kept L c.trees l
  length_eq : l.length = c.closed.length + 1
  persisted : ∀ s ∈ l[c.closed.length]?, log.persistedRoot? = some s.rootHash

theorem Backed.sound {L : Likeness} {config : LogConfig} {c : Cut} {log : Log}
    {l : List Snapshot} (h : Backed L config c log l) : Sound config c log l :=
  ⟨h.valid, h.follows, h.kept.legitimate⟩

theorem Backed.stocked {L : Likeness} {config : LogConfig} {c : Cut} {log : Log}
    {l : List Snapshot} (h : Backed L config c log l) : Stocked L c.trees l := by
  refine ⟨h.kept, ?_⟩
  rw [← List.length_pos_iff, h.length_eq]
  omega

/-- The snapshot of the current tree is up to date unless a write is pending. -/
structure Synced (L : Likeness) (config : LogConfig) (c : Cut) (log : Log)
    (l : List Snapshot) : Prop extends Backed L config c log l where
  written : log.pendingWrite = false → ∀ s ∈ l[c.closed.length]?, L.holds s c.current

variable {L : Likeness} {config : LogConfig} {c : Cut} {log : Log} {store : σ}

/-- A log is in step with a store that ends with the snapshot of its current tree. -/
theorem Synced.of_concat {front : List Snapshot} {now : Nat}
    (hvalid : c.Valid config.maxLeavesPerTree) (hfollows : log.Follows config c)
    (hkept : Kept L c.trees (front ++ [Batch.snapshot c.current front.length now]))
    (hlength : front.length = c.closed.length)
    (hpersisted : log.persistedRoot? = some (Batch.root c.current)) :
    Synced L config c log (front ++ [Batch.snapshot c.current front.length now]) := by
  have hlast : (front ++ [Batch.snapshot c.current front.length now])[c.closed.length]? =
      some (Batch.snapshot c.current front.length now) := by
    rw [← hlength, List.getElem?_concat_length]
  refine ⟨⟨hvalid, hfollows, hkept, ?_, ?_⟩, ?_⟩
  · rw [List.length_append, hlength, List.length_singleton]
  · rw [hlast]
    rintro _ ⟨⟩
    rw [hpersisted, Batch.snapshot]
  · rw [hlast]
    rintro - _ ⟨⟩
    exact L.snapshot _ _ _

theorem Backed.persist_synced (h : Backed L config c log (contents store))
    (hapart : Apart c.trees) (now : Nat) :
    ∃ result log' store', log.persist store now = (result, log', store') ∧
      Synced L config c log' (contents store') ∧ Writes (Stocked L c.trees) store store' ∧
      (result = .ok () → log'.pendingWrite = false) ∧ (Reliable store → result = .ok ()) := by
  rcases persist_cases log store now with
    ⟨store', hreplace, hpersist, hcontents⟩ | ⟨e, store', hreplace, hpersist, hcontents⟩
  · obtain ⟨front, s, hfront⟩ : ∃ front s, contents store = front ++ [s] :=
      ⟨_, _, (List.dropLast_append_getLast h.stocked.2).symm⟩
    have hlength : front.length = c.closed.length := by
      have hlen := h.length_eq
      rw [hfront, List.length_append, List.length_singleton] at hlen
      omega
    have hkept := h.kept
    rw [hfront] at hkept
    have hpersisted := h.persisted
    rw [hfront, ← hlength, List.getElem?_concat_length] at hpersisted
    have hbs : StateOf c.trees front.length c.current := by
      rw [hlength]
      exact h.valid.stateOf_current
    rw [hpersisted s rfl, h.follows.snapshot_eq, hfront, ← hlength,
      hkept.replace_last hapart hbs] at hcontents
    have hkept' : Kept L c.trees (front ++ [Batch.snapshot c.current front.length now]) := by
      refine hkept.of_concat.concat (fun {i t} hi => ?_) hbs now
      have hlt := (List.getElem?_eq_some_iff.1 hi).1
      obtain ⟨cs, hcs, hlike, hfinal⟩ :=
        hkept.state (show (front ++ [s])[i]? = some t by rwa [List.getElem?_append_left hlt])
      refine ⟨cs, hfinal ?_, hcs, hlike⟩
      rw [List.length_append, List.length_singleton]
      omega
    have hsynced : Synced L config c
        { log with persistedRoot? := some log.rootHash, pendingWrite := false }
        (contents store') := by
      rw [hcontents]
      exact .of_concat h.valid (h.follows.of_tree_eq rfl rfl rfl rfl) hkept' hlength
        (congrArg some h.follows.rootHash_eq)
    exact ⟨_, _, store', hpersist, hsynced, .of_replace hreplace hsynced.stocked, fun _ => rfl,
      fun _ => rfl⟩
  · have hstocked : Stocked L c.trees (contents store') := by
      rw [hcontents]
      exact h.stocked
    refine ⟨_, _, store', hpersist, ⟨⟨h.valid, ?_, hstocked.1, ?_, ?_⟩, ?_⟩,
      .of_replace hreplace hstocked, (fun he => by cases he),
      fun hrel => absurd hrel (not_reliable_of_replace hreplace)⟩
    · exact h.follows.of_tree_eq rfl rfl rfl rfl
    · rw [hcontents, h.length_eq]
    · rw [hcontents]
      exact h.persisted
    · intro hpending
      cases hpending

theorem Synced.retry_synced (h : Synced L config c log (contents store))
    (hapart : Apart c.trees) (now : Nat) :
    ∃ result log' store', log.retry store now = (result, log', store') ∧
      Synced L config c log' (contents store') ∧ Writes (Stocked L c.trees) store store' ∧
      (result = .ok () → log'.pendingWrite = false) ∧ (Reliable store → result = .ok ()) := by
  rw [retry]
  cases hpending : log.pendingWrite with
  | true => exact h.toBacked.persist_synced hapart now
  | false => exact ⟨_, log, store, rfl, h, .refl store, fun _ => hpending, fun _ => rfl⟩

theorem Synced.kept_next (h : Synced L config c log (contents store))
    (hwritten : log.pendingWrite = false) (now : Nat) :
    Kept L c.next.trees (contents store ++
      [Batch.snapshot [Batch.root c.current] (contents store).length now]) := by
  refine (h.kept.mono (extends_next c)).concat (fun {i t} hi => ?_) ?_ now
  · have hlt := (List.getElem?_eq_some_iff.1 hi).1
    obtain ⟨cs, hcs, hlike, hfinal⟩ := h.kept.state hi
    have hlast : ∃ cs, c.trees[i]? = some cs ∧ StateOf c.trees i cs ∧ L.holds t cs := by
      by_cases hend : i + 1 < (contents store).length
      · exact ⟨cs, hfinal hend, hcs, hlike⟩
      · obtain rfl : i = c.closed.length := by
          have hlength := h.length_eq
          omega
        exact ⟨c.current, getElem?_trees_length c, h.valid.stateOf_current,
          h.written hwritten t hi⟩
    obtain ⟨bs, hbs, hstate, hholds⟩ := hlast
    refine ⟨bs, ?_, hstate.mono (extends_next c), hholds⟩
    rwa [getElem?_trees_of_lt (by
      rw [closed_next, length_trees, ← h.length_eq]
      exact hlt), closed_next]
  · rw [h.length_eq, ← length_trees]
    exact stateOf_next c

/-- A full tree is sealed, or the event is refused and the log is as before. -/
theorem Synced.rollOver_synced (h : Synced L config c log (contents store))
    (hwritten : log.pendingWrite = false) (now : Nat)
    (hapart : ∀ {sealed? : Option SealedTree} {log' : Log} {store' : σ},
      log.rollOver store now = (.ok sealed?, log', store') →
        Apart (c.roll config.maxLeavesPerTree).trees) :
    (∃ sealed? log' store', log.rollOver store now = (.ok sealed?, log', store') ∧
      Synced L config (c.roll config.maxLeavesPerTree) log' (contents store') ∧
      Writes (Stocked L (c.roll config.maxLeavesPerTree).trees) store store') ∨
    ∃ e store', log.rollOver store now = (.error (.notRecorded e), log, store') ∧
      contents store' = contents store ∧ Writes (Stocked L c.trees) store store' ∧
      ¬ Reliable store := by
  obtain ⟨_, _, store', hrollOver, hcase⟩ := h.follows.rollsOver hwritten store now
  have hroll := h.follows.roll_eq h.valid
  have hvalid := h.valid.roll.1
  cases hcase with
  | kept hroom =>
      rw [hroll, hroom]
      exact Or.inl ⟨none, log, store, hrollOver, h, .refl store⟩
  | @opened next _ hfull hnext hwrite =>
      have hnextApart := hapart hrollOver
      rw [hfull, if_pos rfl] at hroll
      rw [hroll] at hvalid hnextApart ⊢
      have hlength := h.length_eq
      rw [← length_trees] at hlength
      have hkept := h.kept_next hwritten now
      have hbs : StateOf c.next.trees (contents store).length [Batch.root c.current] := by
        rw [hlength]
        exact stateOf_next c
      have hcontents := LawfulStore.replace_ok hwrite
      rw [hnext.snapshot_eq] at hcontents
      change contents store' = (Shelf.replace ⟨contents store⟩ none
        (Batch.snapshot [Batch.root c.current] c.trees.length now)).snapshots at hcontents
      rw [← hlength, (h.kept.mono (extends_next c)).replace_none hnextApart hbs] at hcontents
      have hsynced : Synced L config c.next
          { next with persistedRoot? := some next.rootHash, pendingWrite := false }
          (contents store') := by
        rw [hcontents]
        exact .of_concat hvalid (hnext.of_tree_eq rfl rfl rfl rfl) hkept hlength
          (congrArg some hnext.rootHash_eq)
      exact Or.inl ⟨_, _, store', hrollOver, hsynced, .of_replace hwrite hsynced.stocked⟩
  | refused hfailed =>
      have hcontents := LawfulStore.replace_error hfailed
      have hstocked : Stocked L c.trees (contents store') := by
        rw [hcontents]
        exact h.stocked
      exact Or.inr ⟨_, store', hrollOver, hcontents, .of_replace hfailed hstocked,
        not_reliable_of_replace hfailed⟩

/-- What recording an event comes to: a result, the log and the store. -/
inductive RecordOutcome (L : Likeness) (config : LogConfig) (c : Cut) (payload : String)
    (store : σ) : Except LogError Receipt → Log → σ → Prop
  | written {receipt : Receipt} {log' : Log} {store' : σ}
      (synced : Synced L config (c.add config.maxLeavesPerTree payload) log' (contents store'))
      (upToDate : log'.pendingWrite = false)
      (writes : Writes (Stocked L (c.add config.maxLeavesPerTree payload).trees) store store') :
      RecordOutcome L config c payload store (.ok receipt) log' store'
  | pending {receipt : Receipt} {e : StoreError} {log' : Log} {store' : σ}
      (synced : Synced L config (c.add config.maxLeavesPerTree payload) log' (contents store'))
      (writes : Writes (Stocked L (c.add config.maxLeavesPerTree payload).trees) store store')
      (failing : ¬ Reliable store) :
      RecordOutcome L config c payload store (.error (.persistence true (some receipt) e)) log'
        store'
  | refused {e : StoreError} {log' : Log} {store' : σ}
      (synced : Synced L config c log' (contents store'))
      (writes : Writes (Stocked L c.trees) store store') (failing : ¬ Reliable store) :
      RecordOutcome L config c payload store (.error (.notRecorded e)) log' store'

/-- Recording an event: it is in the tree exactly if the outcome says so, and otherwise the
log follows the same events as before. In either case the store has only been in states of
these trees. -/
theorem Synced.record_synced (h : Synced L config c log (contents store)) (payload : String)
    (now : Nat) (hold : Apart c.trees)
    (hapart : accepted (log.record store now payload).1 = true →
      Apart (c.add config.maxLeavesPerTree payload).trees) :
    ∃ result log' store', log.record store now payload = (result, log', store') ∧
      RecordOutcome L config c payload store result log' store' := by
  have hext := extends_add config.maxLeavesPerTree c payload
  obtain ⟨result₁, log₁, store₁, hretry, h₁, hwrites₁, hpending, hok₁⟩ := h.retry_synced hold now
  cases result₁ with
  | error e =>
      simp only [record, hretry]
      refine ⟨_, log₁, store₁, rfl, .refused h₁ hwrites₁ fun hrel => ?_⟩
      have hok := hok₁ hrel
      cases hok
  | ok _ =>
      have hroll : ∀ {sealed? : Option SealedTree} {log₂ : Log} {store₂ : σ},
          log₁.rollOver store₁ now = (.ok sealed?, log₂, store₂) →
            Apart (c.add config.maxLeavesPerTree payload).trees := by
        intro sealed? log₂ store₂ hrollOver
        apply hapart
        simp only [record, hretry, hrollOver]
        rcases h₁.toBacked.sound.rollOver_sound (hpending rfl) now with
          ⟨_, _, _, heq, hsound⟩ | ⟨_, _, heq, -⟩
        · rw [hrollOver] at heq
          cases heq
          exact accepted_appendEvent hsound.follows store₂ now payload sealed?
        · rw [hrollOver] at heq
          cases heq
      rcases h₁.rollOver_synced (hpending rfl) now
          (fun hok => (hroll hok).mono (extends_push _ payload)) with
        ⟨sealed?, log₂, store₂, hrollOver, h₂, hwrites₂⟩ |
          ⟨e, store₂, hrollOver, hcontents, hwrites₂, hfailing⟩
      · -- the event goes into a tree with room, whatever becomes of the write
        obtain ⟨tree, happend, hfollows⟩ := h₂.follows.append_eq payload
        have hbacked : Backed L config (c.add config.maxLeavesPerTree payload)
            { log₂ with tree } (contents store₂) :=
          ⟨h.valid.add payload, hfollows, h₂.kept.mono (extends_push _ payload), h₂.length_eq,
            h₂.persisted⟩
        obtain ⟨result₃, log', store', hpersist, h₃, hwrites₃, hpending₃, hok₃⟩ :=
          hbacked.persist_synced (hroll hrollOver) now
        have hfirst := hwrites₁.mono fun l hl => hl.mono hext
        have hsecond := hwrites₂.mono fun l hl => hl.mono (extends_push _ payload)
        have hwrites := hfirst.trans hsecond
        cases result₃ with
        | ok _ =>
            simp only [record, hretry, hrollOver, appendEvent, happend, hpersist]
            exact ⟨_, log', store', rfl, .written h₃ (hpending₃ rfl) (hwrites.trans hwrites₃)⟩
        | error e =>
            simp only [record, hretry, hrollOver, appendEvent, happend, hpersist]
            refine ⟨_, log', store', rfl,
              .pending h₃ (hwrites.trans hwrites₃) fun hrel => ?_⟩
            have hok := hok₃ (hwrites.reliable hrel)
            cases hok
      · simp only [record, hretry, hrollOver]
        refine ⟨_, log₁, store₂, rfl,
          .refused ?_ (hwrites₁.trans hwrites₂) fun hrel => hfailing (hwrites₁.reliable hrel)⟩
        rw [hcontents]
        exact h₁

theorem Synced.flush_synced (h : Synced L config c log (contents store))
    (hapart : Apart c.trees) (now : Nat) :
    ∃ result log' store', log.flush store now = (result, log', store') ∧
      Synced L config c log' (contents store') ∧ Writes (Stocked L c.trees) store store' := by
  obtain ⟨result, log', store', hretry, h', hwrites, -, -⟩ := h.retry_synced hapart now
  cases result with
  | ok _ => exact ⟨.ok (), log', store', by simp only [flush, hretry], h', hwrites⟩
  | error e =>
      exact ⟨.error (.persistence true none e), log', store', by simp only [flush, hretry], h',
        hwrites⟩

end Log

end SealedLog
