import SealedLog.Store.Basic
import Mathlib.Data.List.Induction
import Mathlib.Data.List.Nodup
import Mathlib.Data.String.Basic

/-!
# Shelves

What a replacement does to the contents of a shelf: which snapshots are there afterwards, that
no two of them have one root, and that they are in the order in which a store lists them. A
list that is so arranged is what the shelf made of it holds, and in whatever order it is listed,
`ofList_eq_of_perm`: it can be written down without the roots that the snapshots are kept under.
-/

namespace SealedLog

variable {l : List Snapshot} {s t u : Snapshot}

theorem mem_insertInOrder_iff : t ∈ s.insertInOrder l ↔ t = s ∨ t ∈ l := by
  induction l with
  | nil => rw [Snapshot.insertInOrder, List.mem_singleton]; simp
  | cons u rest ih =>
      rw [Snapshot.insertInOrder]
      split
      · rw [List.mem_cons]
      · rw [List.mem_cons, List.mem_cons, ih, or_left_comm]

/-- A replacement puts one snapshot in and takes out those under its root and the old one. -/
theorem mem_replace_iff {old? : Option Hash} :
    t ∈ (Shelf.replace ⟨l⟩ old? s).snapshots ↔
      t = s ∨ t ∈ l ∧ t.rootHash ≠ s.rootHash ∧ some t.rootHash ≠ old? := by
  cases old? with
  | none =>
      simp [Shelf.replace, Shelf.insert, Shelf.erase, mem_insertInOrder_iff, List.mem_filter]
  | some old =>
      simp only [Shelf.replace, Shelf.insert, Shelf.erase, mem_insertInOrder_iff,
        List.mem_filter, Option.elim_some, bne_iff_ne, ne_eq, Option.some.injEq]
      rw [and_assoc, and_comm (a := ¬ t.rootHash = old)]

/-- Taking off a root that is not there changes nothing. -/
theorem filter_rootHash_ne (root : Hash) (h : ∀ t ∈ l, t.rootHash ≠ root) :
    l.filter (·.rootHash != root) = l := by
  rw [List.filter_eq_self]
  intro t ht
  simpa using h t ht

/-! ### Roots -/

/-- No two snapshots have the same root. -/
def Keyed (l : List Snapshot) : Prop :=
  (l.map Snapshot.rootHash).Nodup

theorem Keyed.nodup {l : List Snapshot} (h : Keyed l) : l.Nodup :=
  List.Nodup.of_map Snapshot.rootHash h

theorem Keyed.eq_of_rootHash_eq {l : List Snapshot} (h : Keyed l) {s t : Snapshot} (hs : s ∈ l)
    (ht : t ∈ l) (hroot : s.rootHash = t.rootHash) : s = t :=
  List.inj_on_of_nodup_map h hs ht hroot

theorem perm_insertInOrder (s : Snapshot) (l : List Snapshot) :
    (s.insertInOrder l).Perm (s :: l) := by
  induction l with
  | nil => exact List.Perm.refl _
  | cons t rest ih =>
      rw [Snapshot.insertInOrder]
      split
      · exact List.Perm.refl _
      · exact (ih.cons t).trans (List.Perm.swap s t rest)

theorem Keyed.filter {l : List Snapshot} (h : Keyed l) (p : Snapshot → Bool) :
    Keyed (l.filter p) :=
  h.sublist (List.filter_sublist.map _)

theorem Keyed.replace {l : List Snapshot} (h : Keyed l) (old? : Option Hash) (s : Snapshot) :
    Keyed (Shelf.replace ⟨l⟩ old? s).snapshots := by
  have hinsert : ∀ {l' : List Snapshot}, Keyed l' → Keyed (Shelf.insert ⟨l'⟩ s).snapshots := by
    intro l' hl'
    have hperm := (perm_insertInOrder s (Shelf.erase ⟨l'⟩ s.rootHash).snapshots).map
      Snapshot.rootHash
    rw [Keyed, Shelf.insert, hperm.nodup_iff, List.map_cons, List.nodup_cons]
    refine ⟨fun hmem => ?_, hl'.filter _⟩
    obtain ⟨t, ht, hroot⟩ := List.mem_map.1 hmem
    have hne := (List.mem_filter.1 ht).2
    rw [bne_iff_ne] at hne
    exact hne hroot
  cases old? with
  | none => exact hinsert h
  | some old => exact hinsert (h.filter _)

/-! ### Order -/

theorem precedes_iff : s.precedes t = true ↔
    s.treeIndex < t.treeIndex ∨ s.treeIndex = t.treeIndex ∧ s.rootHash < t.rootHash := by
  simp [Snapshot.precedes]

theorem precedes_trans (h : s.precedes t = true) (h' : t.precedes u = true) :
    s.precedes u = true := by
  rw [precedes_iff] at h h' ⊢
  rcases h with h | ⟨h, hroot⟩
  · exact Or.inl (by omega)
  · rcases h' with h' | ⟨h', hroot'⟩
    · exact Or.inl (by omega)
    · exact Or.inr ⟨by omega, hroot.trans hroot'⟩

theorem precedes_asymm (h : s.precedes t = true) : t.precedes s = false := by
  by_contra h'
  rw [Bool.not_eq_false, precedes_iff] at h'
  rw [precedes_iff] at h
  rcases h with h | ⟨h, hroot⟩
  · omega
  · rcases h' with h' | ⟨-, hroot'⟩
    · omega
    · exact lt_asymm hroot hroot'

/-- Of two snapshots of different roots one comes first. -/
theorem precedes_of_not_precedes (h : s.precedes t = false) (hne : t.rootHash ≠ s.rootHash) :
    t.precedes s = true := by
  rw [← Bool.not_eq_true, precedes_iff] at h
  rw [precedes_iff]
  rcases lt_trichotomy t.treeIndex s.treeIndex with hlt | heq | hlt
  · exact Or.inl hlt
  · rcases lt_or_gt_of_ne hne with hroot | hroot
    · exact Or.inr ⟨heq, hroot⟩
    · exact absurd (Or.inr ⟨heq.symm, hroot⟩) h
  · exact absurd (Or.inl hlt) h

/-- The snapshots are in the order in which a store lists them. -/
def Ordered (l : List Snapshot) : Prop :=
  l.Pairwise fun s t => s.precedes t = true

theorem Ordered.insertInOrder (h : Ordered l) (hne : ∀ t ∈ l, t.rootHash ≠ s.rootHash) :
    Ordered (s.insertInOrder l) := by
  induction l with
  | nil => exact List.pairwise_singleton _ _
  | cons t rest ih =>
      obtain ⟨hfirst, hrest⟩ := List.pairwise_cons.1 h
      rw [Snapshot.insertInOrder]
      split
      · next hbefore =>
          refine List.pairwise_cons.2 ⟨fun u hu => ?_, h⟩
          rcases List.mem_cons.1 hu with rfl | hu
          · exact hbefore
          · exact precedes_trans hbefore (hfirst u hu)
      · next hafter =>
          refine List.pairwise_cons.2
            ⟨fun u hu => ?_, ih hrest fun u hu => hne u (List.mem_cons_of_mem t hu)⟩
          rcases mem_insertInOrder_iff.1 hu with rfl | hu
          · exact precedes_of_not_precedes (Bool.eq_false_iff.2 hafter) (hne t List.mem_cons_self)
          · exact hfirst u hu

theorem Ordered.replace (h : Ordered l) (old? : Option Hash) (s : Snapshot) :
    Ordered (Shelf.replace ⟨l⟩ old? s).snapshots := by
  have hinsert : ∀ {l' : List Snapshot}, Ordered l' → Ordered (Shelf.insert ⟨l'⟩ s).snapshots := by
    intro l' hl'
    have hothers : Ordered (Shelf.erase ⟨l'⟩ s.rootHash).snapshots := List.Pairwise.filter _ hl'
    refine hothers.insertInOrder fun t ht => ?_
    simpa using (List.mem_filter.1 ht).2
  cases old? with
  | none => exact hinsert h
  | some old => exact hinsert (List.Pairwise.filter _ h)

theorem Ordered.treeIndex_le (h : Ordered l) :
    l.Pairwise fun s t => s.treeIndex ≤ t.treeIndex := by
  refine List.Pairwise.imp (fun {s t} hst => ?_) h
  rcases precedes_iff.1 hst with hlt | ⟨heq, -⟩
  · exact Nat.le_of_lt hlt
  · exact Nat.le_of_eq heq

/-- A snapshot that precedes none of the others goes behind them. -/
theorem insertInOrder_eq_concat (h : ∀ t ∈ l, s.precedes t = false) :
    s.insertInOrder l = l ++ [s] := by
  induction l with
  | nil => rfl
  | cons t rest ih =>
      rw [Snapshot.insertInOrder, if_neg (by simp [h t List.mem_cons_self]),
        ih fun u hu => h u (List.mem_cons_of_mem t hu), List.cons_append]

/-! ### The shelf of a list -/

theorem ordered_ofList (l : List Snapshot) : Ordered (Shelf.ofList l).snapshots :=
  List.foldlRecOn l Shelf.insert (motive := fun shelf : Shelf => Ordered shelf.snapshots)
    List.Pairwise.nil fun _ h s _ => h.replace none s

theorem keyed_ofList (l : List Snapshot) : Keyed (Shelf.ofList l).snapshots :=
  List.foldlRecOn l Shelf.insert (motive := fun shelf : Shelf => Keyed shelf.snapshots)
    List.nodup_nil fun _ h s _ => h.replace none s

theorem mem_of_mem_ofList (h : t ∈ (Shelf.ofList l).snapshots) : t ∈ l := by
  revert h
  refine List.foldlRecOn l Shelf.insert
    (motive := fun shelf : Shelf => t ∈ shelf.snapshots → t ∈ l) (fun h => ?_)
    fun shelf ih s hs h => ?_
  · cases h
  · rcases mem_replace_iff.1 (show t ∈ (shelf.replace none s).snapshots from h) with rfl | ⟨ht, -⟩
    · exact hs
    · exact ih ht

theorem Keyed.perm_ofList {l : List Snapshot} (h : Keyed l) :
    (Shelf.ofList l).snapshots.Perm l := by
  induction l using List.reverseRecOn with
  | nil => exact .refl _
  | append_singleton front s ih =>
      rw [Keyed, List.map_append, List.nodup_append] at h
      have hfront := ih h.1
      have hother : ∀ t ∈ (Shelf.ofList front).snapshots, t.rootHash ≠ s.rootHash := fun t ht =>
        h.2.2 _ (List.mem_map_of_mem (hfront.mem_iff.1 ht)) _ (List.mem_singleton_self _)
      have hlast : Shelf.ofList (front ++ [s]) = (Shelf.ofList front).insert s :=
        List.foldl_concat ..
      rw [hlast, Shelf.insert, Shelf.erase, filter_rootHash_ne _ hother]
      exact (perm_insertInOrder s _).trans
        ((hfront.cons s).trans (List.perm_append_singleton s front).symm)

/-- In whatever order the contents of a shelf are listed, they make that shelf again. -/
theorem ofList_eq_of_perm {listed : List Snapshot} (hperm : listed.Perm l) (hordered : Ordered l)
    (hkeyed : Keyed l) : Shelf.ofList listed = ⟨l⟩ := by
  have hlisted : Keyed listed := (hperm.map Snapshot.rootHash).nodup_iff.2 hkeyed
  refine congrArg Shelf.mk ((hlisted.perm_ofList.trans hperm).eq_of_pairwise ?_
    (ordered_ofList listed) hordered)
  intro s t _ _ hst hts
  rw [precedes_asymm hst] at hts
  cases hts

end SealedLog
