import SealedLog.Proofs.Chain.Intact
import SealedLog.Proofs.Log.Cut
import SealedLog.Proofs.Store.Lawful
import SealedLog.Proofs.Store.Shelf

/-!
# The snapshots of a chain in a store

While a log grows its store holds the snapshots of the trees so far, one for each index from
zero up, in this order: of each tree but the last in its final state, and of the last in some
state. `Kept` says so of a list of snapshots. Such a list changes in two ways, and both go
through the one operation of a store: the last snapshot gives way to a later state of its
tree, or one more follows. It takes `Apart` for this, since a snapshot is put under its root,
and one that is there already under the same root is lost.

How much a snapshot tells of its tree is left open by a `Likeness`. A recovery leaves a
snapshot with the right root as it is, even where the blocks in it are out of date.
-/

namespace SealedLog

open Cut

/-- A way in which a snapshot is one of the tree over given blocks. -/
structure Likeness where
  holds : Snapshot → List String → Prop
  snapshot : ∀ (bs : List String) (treeIndex now : Nat),
    holds (Batch.snapshot bs treeIndex now) bs
  root_eq : ∀ {s : Snapshot} {bs : List String}, holds s bs → s.rootHash = Batch.root bs

namespace Likeness

/-- The snapshot is the full state of the tree. -/
def full : Likeness where
  holds s bs := ∃ treeIndex now, s = Batch.snapshot bs treeIndex now
  snapshot bs treeIndex now := ⟨treeIndex, now, rfl⟩
  root_eq := by
    rintro s bs ⟨treeIndex, now, rfl⟩
    rfl

/-- The snapshot has the root of the tree. -/
def byRoot : Likeness where
  holds s bs := s.rootHash = Batch.root bs
  snapshot _ _ _ := rfl
  root_eq h := h

end Likeness

/-- The snapshots are those of the trees `T` up to some index, all in their final state but
the last. -/
structure Kept (L : Likeness) (T : List (List String)) (l : List Snapshot) : Prop where
  index : ∀ {i : Nat} {s : Snapshot}, l[i]? = some s → s.treeIndex = i
  state : ∀ {i : Nat} {s : Snapshot}, l[i]? = some s →
    ∃ bs, StateOf T i bs ∧ L.holds s bs ∧ (i + 1 < l.length → T[i]? = some bs)

variable {L : Likeness} {S T : List (List String)} {l front : List Snapshot} {s : Snapshot}
  {bs : List String}

/-- The snapshots are kept, and there is one at least. -/
def Stocked (L : Likeness) (T : List (List String)) (l : List Snapshot) : Prop :=
  Kept L T l ∧ l ≠ []

theorem kept_nil (L : Likeness) (T : List (List String)) : Kept L T [] where
  index h := by simp at h
  state h := by simp at h

theorem Kept.mono (h : Kept L S l) (hext : Extends S T) : Kept L T l where
  index := h.index
  state {i s} hi := by
    obtain ⟨bs, hbs, hlike, hfinal⟩ := h.state hi
    refine ⟨bs, hbs.mono hext, hlike, fun hlt => ?_⟩
    obtain ⟨cs, hcs, -, heq⟩ := hext i bs (hfinal hlt)
    obtain ⟨t, ht⟩ : ∃ t, l[i + 1]? = some t := ⟨_, List.getElem?_eq_getElem hlt⟩
    obtain ⟨bs', hbs', -⟩ := h.state ht
    rw [hcs, heq hbs'.lt_length]

theorem Stocked.mono (h : Stocked L S l) (hext : Extends S T) : Stocked L T l :=
  ⟨h.1.mono hext, h.2⟩

theorem Kept.length_le (h : Kept L T l) : l.length ≤ T.length := by
  by_cases hl : l.length = 0
  · omega
  · obtain ⟨bs, hbs, -⟩ :=
      h.state (List.getElem?_eq_getElem (show l.length - 1 < l.length by omega))
    have hlt := hbs.lt_length
    omega

/-- A root is found under the index of its tree only. -/
theorem Kept.eq_of_rootHash_eq (h : Kept L T l) (hapart : Apart T) {i j : Nat}
    (hi : l[i]? = some s) (hbs : StateOf T j bs) (hroot : s.rootHash = Batch.root bs) :
    i = j := by
  obtain ⟨cs, hcs, hlike, -⟩ := h.state hi
  exact hapart i j cs bs hcs hbs (by rw [← L.root_eq hlike, hroot])

theorem Kept.of_concat (h : Kept L T (front ++ [s])) : Kept L T front where
  index {i t} hi := by
    have hlt := (List.getElem?_eq_some_iff.1 hi).1
    exact h.index (by rwa [List.getElem?_append_left hlt])
  state {i t} hi := by
    have hlt := (List.getElem?_eq_some_iff.1 hi).1
    obtain ⟨bs, hbs, hlike, hfinal⟩ :=
      h.state (show (front ++ [s])[i]? = some t by rwa [List.getElem?_append_left hlt])
    refine ⟨bs, hbs, hlike, fun _ => hfinal ?_⟩
    rw [List.length_append, List.length_singleton]
    omega

/-- One more state behind snapshots that are all final. -/
theorem Kept.concat (h : Kept L T front)
    (hfinal : ∀ {i : Nat} {t : Snapshot}, front[i]? = some t →
      ∃ cs, T[i]? = some cs ∧ StateOf T i cs ∧ L.holds t cs)
    (hbs : StateOf T front.length bs) (now : Nat) :
    Kept L T (front ++ [Batch.snapshot bs front.length now]) where
  index {i t} hi := by
    rcases Nat.lt_trichotomy i front.length with hlt | rfl | hgt
    · rw [List.getElem?_append_left hlt] at hi
      exact h.index hi
    · rw [List.getElem?_concat_length, Option.some.injEq] at hi
      rw [← hi, Batch.snapshot]
    · rw [List.getElem?_eq_none (by simp only [List.length_append, List.length_singleton]; omega)]
        at hi
      cases hi
  state {i t} hi := by
    rcases Nat.lt_trichotomy i front.length with hlt | rfl | hgt
    · rw [List.getElem?_append_left hlt] at hi
      obtain ⟨cs, hcs, hstate, hlike⟩ := hfinal hi
      exact ⟨cs, hstate, hlike, fun _ => hcs⟩
    · rw [List.getElem?_concat_length, Option.some.injEq] at hi
      refine ⟨bs, hbs, ?_, fun hlt => ?_⟩
      · rw [← hi]
        exact L.snapshot bs front.length now
      · rw [List.length_append, List.length_singleton] at hlt
        omega
    · rw [List.getElem?_eq_none (by simp only [List.length_append, List.length_singleton]; omega)]
        at hi
      cases hi

/-- A shelf puts a state of the next tree behind the snapshots it holds. -/
theorem Kept.replace_none (h : Kept L T front) (hapart : Apart T)
    (hbs : StateOf T front.length bs) (now : Nat) :
    (Shelf.replace ⟨front⟩ none (Batch.snapshot bs front.length now)).snapshots =
      front ++ [Batch.snapshot bs front.length now] := by
  have hother : ∀ t ∈ front, t.rootHash ≠ Batch.root bs := by
    intro t ht hroot
    obtain ⟨i, hi⟩ := List.getElem?_of_mem ht
    have hindex := h.eq_of_rootHash_eq hapart hi hbs hroot
    have hlt := (List.getElem?_eq_some_iff.1 hi).1
    omega
  change Snapshot.insertInOrder _ (front.filter (·.rootHash != Batch.root bs)) = _
  rw [filter_rootHash_ne _ hother]
  apply insertInOrder_eq_concat
  intro t ht
  obtain ⟨i, hi⟩ := List.getElem?_of_mem ht
  have hlt := (List.getElem?_eq_some_iff.1 hi).1
  exact precedes_asymm (precedes_iff.2 (Or.inl (by rw [h.index hi]; exact hlt)))

/-- A shelf puts another state of the last tree in place of the snapshot it holds of it. -/
theorem Kept.replace_last (h : Kept L T (front ++ [s])) (hapart : Apart T)
    (hbs : StateOf T front.length bs) (now : Nat) :
    (Shelf.replace ⟨front ++ [s]⟩ (some s.rootHash)
        (Batch.snapshot bs front.length now)).snapshots =
      front ++ [Batch.snapshot bs front.length now] := by
  have hlast : (front ++ [s])[front.length]? = some s := List.getElem?_concat_length
  obtain ⟨cs, hcs, hlike, -⟩ := h.state hlast
  have hother : ∀ t ∈ front, t.rootHash ≠ s.rootHash := by
    intro t ht hroot
    obtain ⟨i, hi⟩ := List.getElem?_of_mem ht
    have hindex := h.of_concat.eq_of_rootHash_eq hapart hi hcs (by rw [hroot, L.root_eq hlike])
    have hlt := (List.getElem?_eq_some_iff.1 hi).1
    omega
  have herase : (Shelf.erase ⟨front ++ [s]⟩ s.rootHash) = ⟨front⟩ := by
    rw [Shelf.erase, List.filter_append, filter_rootHash_ne _ hother]
    simp
  rw [← h.of_concat.replace_none hapart hbs now, Shelf.replace, Option.elim_some, herase]
  rfl

/-- The full snapshots of a chain pass the audit. -/
theorem Kept.audit_eq {maxLeaves : Nat} {c : Cut} (hc : c.Valid maxLeaves)
    (h : Kept .full c.trees l) : Chain.audit l = ⟨l.length, []⟩ := by
  apply Chain.audit_of_intact
  · rw [List.pairwise_iff_getElem]
    intro i j hi hj hlt
    rw [h.index (List.getElem?_eq_getElem hi), h.index (List.getElem?_eq_getElem hj)]
    exact Nat.le_of_lt hlt
  · apply Chain.intact_of_getElem?
    · intro i t hi
      obtain ⟨bs, -, ⟨treeIndex, now, rfl⟩, -⟩ := h.state hi
      refine ⟨?_, Chain.isGenuine_snapshot bs treeIndex now⟩
      rw [h.index hi, Chain.nextIndex, Option.elim_none, Nat.zero_add]
    · simp
    · intro i t u ht hu
      have hlt := (List.getElem?_eq_some_iff.1 hu).1
      obtain ⟨bs, -, hlike, hfinal⟩ := h.state ht
      obtain ⟨cs, ⟨⟨ds, hds, hpre⟩, hne⟩, ⟨treeIndex, now, rfl⟩, -⟩ := h.state hu
      have hhead := hc.linked (hfinal hlt) hds
      rw [Chain.firstBlock?_snapshot, Likeness.full.root_eq hlike, ← hhead]
      obtain ⟨b, rest, rfl⟩ := List.exists_cons_of_ne_nil (hne (Nat.succ_pos i))
      obtain ⟨below, rfl⟩ := hpre
      rfl

end SealedLog
