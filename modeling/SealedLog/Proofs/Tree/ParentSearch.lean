import SealedLog.Proofs.Tree.Slots
import SealedLog.Tree.Inclusion

/-!
# Searching for a parent

In a sound tree the node over a place is found by the search from the root, and there is
nothing else to find. `Traversal` is the search without a bound on it, with the names that it
visits until it ends. `Searching` is its invariant: every name that was visited or is waiting was
met from the one over it, which has been visited before, so no name is met twice, and as many
visits suffice as the arena has slots. Once nothing is waiting the visited names are all branches
of the tree.

Main statements: `Traversal.searchParent_eq`, a bounded search gives up just if the bound is less
than the number of visits; `Sound.exists_traversal`, in a sound tree the search ends and visits no
name twice; `Sound.parentOf?_eq_some_iff`, what it finds. Nothing here is about hashes.
-/

namespace SealedLog

/-- Names of an arena that are all different are no more than it has slots. -/
theorem Arena.length_le_of_nodup {arena : Arena} {ids : List NodeId} (hids : ids.Nodup)
    (hget : ∀ id ∈ ids, ∃ n, arena.get? id = some n) : ids.length ≤ arena.slots.size := by
  have hnodup : (ids.map NodeId.index).Nodup := by
    refine hids.map ?_
    rintro ⟨i⟩ ⟨j⟩ hij
    exact congrArg NodeId.mk hij
  have hsub : ids.map NodeId.index ⊆ List.range arena.slots.size := by
    intro i hi
    obtain ⟨id, hid, rfl⟩ := List.mem_map.1 hi
    obtain ⟨n, hn⟩ := hget id hid
    exact List.mem_range.2 (lt_size_of_get? hn)
  have hle := (hnodup.subperm hsub).length_le
  rwa [List.length_map, List.length_range] at hle

/-- What is seen and waiting after a visit is what was so before, and what was pushed. -/
theorem perm_of_visit {α : Type} (a : α) (pushed seen pending : List α) :
    (a :: seen ++ (pushed.reverse ++ pending)).Perm (pushed ++ (seen ++ a :: pending)) := by
  have hrest : (pending ++ a :: seen).Perm (seen ++ a :: pending) := calc
    List.Perm (pending ++ a :: seen) (a :: (pending ++ seen)) := List.perm_middle
    List.Perm _ (a :: (seen ++ pending)) := List.perm_append_comm.cons a
    List.Perm _ (seen ++ a :: pending) := List.perm_middle.symm
  have hswap : (a :: seen ++ (pushed.reverse ++ pending)).Perm
      (pushed.reverse ++ (pending ++ a :: seen)) := by
    rw [← List.append_assoc pushed.reverse]
    exact List.perm_append_comm
  exact hswap.trans ((List.reverse_perm pushed).append hrest)

namespace Tree

/-- The children of a node that are branches themselves. -/
def branchesBelow (arena : Arena) (n : Node) : List NodeId :=
  n.children.filter fun child => (arena.get? child).any fun m => !m.isLeaf

theorem mem_branchesBelow_iff {arena : Arena} {n : Node} {child : NodeId} :
    child ∈ branchesBelow arena n ↔
      child ∈ n.children ∧ ∃ m, arena.get? child = some m ∧ m.isLeaf = false := by
  simp [branchesBelow, Option.any_eq_true]

/-- The search for the branch over `target`, for as long as it takes: from the names in `pending`
it visits the names `visited`, one after the other, and then has its answer. -/
inductive Traversal (arena : Arena) (target : NodeId) :
    (pending visited : List NodeId) → (parent? : Option NodeId) → Prop
  | exhausted : Traversal arena target [] [] none
  | unknown {id : NodeId} {pending : List NodeId} (get?_eq : arena.get? id = none) :
      Traversal arena target (id :: pending) [id] none
  | found {id : NodeId} {pending : List NodeId} {n : Node} (get?_eq : arena.get? id = some n)
      (mem : target ∈ n.children) : Traversal arena target (id :: pending) [id] (some id)
  | visit {id : NodeId} {pending visited : List NodeId} {parent? : Option NodeId} {n : Node}
      (get?_eq : arena.get? id = some n) (not_mem : target ∉ n.children)
      (rest : Traversal arena target ((branchesBelow arena n).reverse ++ pending) visited parent?) :
      Traversal arena target (id :: pending) (id :: visited) parent?

namespace Traversal

variable {arena : Arena} {target : NodeId} {pending visited : List NodeId}
  {parent? : Option NodeId}

/-- With a visit allowed for each name, and no fewer, the bounded search has the same answer. -/
theorem searchParent_eq (ht : Traversal arena target pending visited parent?) (visits : Nat) :
    searchParent arena target visits pending =
      if visited.length ≤ visits then parent?.elim .absent .found else .outOfVisits := by
  induction ht generalizing visits with
  | exhausted => simp [searchParent]
  | unknown get?_eq =>
      cases visits with
      | zero => rfl
      | succ visits => simp [searchParent, get?_eq]
  | found get?_eq mem =>
      cases visits with
      | zero => rfl
      | succ visits => simp [searchParent, get?_eq, mem]
  | visit get?_eq not_mem _ ih =>
      cases visits with
      | zero => rfl
      | succ visits =>
          simp only [searchParent, get?_eq, List.contains_iff_mem, not_mem, if_false,
            List.length_cons, Nat.add_le_add_iff_right]
          exact ih visits

theorem outOfVisits_iff (ht : Traversal arena target pending visited parent?) (visits : Nat) :
    searchParent arena target visits pending = .outOfVisits ↔ visits < visited.length := by
  rw [ht.searchParent_eq]
  split
  · next hle => cases parent? <;> simp [hle]
  · next hlt => simp [Nat.lt_of_not_le hlt]

/-- Only branches are put on the list of those that are waiting. -/
theorem mem_or_isLeaf_eq_false (ht : Traversal arena target pending visited parent?) :
    ∀ id ∈ visited, id ∈ pending ∨ ∃ n, arena.get? id = some n ∧ n.isLeaf = false := by
  induction ht with
  | exhausted => simp
  | unknown | found => simp
  | @visit id pending visited parent? n _ _ _ ih =>
      intro id' hid'
      rcases List.mem_cons.1 hid' with rfl | hid'
      · exact Or.inl List.mem_cons_self
      · rcases ih id' hid' with hwaiting | hbranch
        · rw [List.mem_append, List.mem_reverse, mem_branchesBelow_iff] at hwaiting
          rcases hwaiting with ⟨-, hbranch⟩ | hpending
          · exact Or.inr hbranch
          · exact Or.inl (List.mem_cons_of_mem id hpending)
        · exact Or.inr hbranch

end Traversal

variable {t : Tree} {h i : Nat} {id root parent child target : NodeId}

/-- The node `parent` stands over the place of the node `child`. -/
def StandsOver (t : Tree) (parent child : NodeId) : Prop :=
  ∃ h i, t.slot? h i = some child ∧ t.slot? (h + 1) (i / 2) = some parent

theorem Sound.standsOver_iff_mem_children (ht : t.Sound) {n : Node}
    (hid : t.slot? h i = some parent) (hn : t.arena.get? parent = some n) :
    t.StandsOver parent child ↔ child ∈ n.children := by
  rw [ht.mem_children_iff hid hn]
  constructor
  · rintro ⟨l, j, hchild, hparent⟩
    obtain ⟨rfl, rfl⟩ := ht.slot?_injective hid hparent
    exact ⟨l, j, rfl, rfl, hchild⟩
  · rintro ⟨l, j, rfl, rfl, hchild⟩
    exact ⟨l, j, hchild, hid⟩

theorem Sound.standsOver_unique (ht : t.Sound) {parent' : NodeId}
    (hover : t.StandsOver parent child) (hover' : t.StandsOver parent' child) :
    parent = parent' := by
  obtain ⟨h, i, hchild, hparent⟩ := hover
  obtain ⟨h', i', hchild', hparent'⟩ := hover'
  obtain ⟨rfl, rfl⟩ := ht.slot?_injective hchild hchild'
  rwa [hparent, Option.some.injEq] at hparent'

theorem Sound.slot?_root (ht : t.Sound) (hroot : t.root? = some root) :
    t.slot? (t.levels.length - 1) 0 = some root := by
  have htop := ht.getLast?_levels
  rw [hroot, List.getLast?_eq_getElem?] at htop
  exact slot?_eq_some_iff.2 ⟨_, htop, rfl⟩

theorem Sound.root?_of_slot? (ht : t.Sound) (hid : t.slot? h i = some id)
    (htop : h + 1 = t.levels.length) : t.root? = some id := by
  obtain ⟨level, hlevel, hi⟩ := slot?_eq_some_iff.1 hid
  have hlast := ht.getLast?_levels
  rw [List.getLast?_eq_getElem?, ← htop, Nat.add_sub_cancel, hlevel] at hlast
  obtain ⟨root, hroot, rfl⟩ := Option.map_eq_some_iff.1 hlast.symm
  rw [Array.getElem?_singleton] at hi
  split at hi
  · rw [hroot, hi]
  · cases hi

theorem Sound.not_standsOver_root (ht : t.Sound) (hroot : t.root? = some root) :
    ¬ t.StandsOver parent root := by
  rintro ⟨h, i, hchild, hparent⟩
  obtain ⟨rfl, rfl⟩ := ht.slot?_injective hchild (ht.slot?_root hroot)
  obtain ⟨level, hlevel, -⟩ := slot?_eq_some_iff.1 hparent
  have hlt := (List.getElem?_eq_some_iff.1 hlevel).1
  omega

theorem Sound.nodup_children (ht : t.Sound) {n : Node} (hid : t.slot? h i = some id)
    (hn : t.arena.get? id = some n) : n.children.Nodup := by
  cases h with
  | zero =>
      rw [slot?_zero] at hid
      obtain ⟨m, hm, blocks, hshape, -⟩ := ht.exists_leaf hid
      rw [hn, Option.some.injEq] at hm
      simp [hm, Node.children, Node.left?, Node.right?, hshape]
  | succ h =>
      obtain ⟨left, hleft, l, -, hbranch⟩ := ht.covers_slot? hid
      rw [hn, Option.some.injEq] at hbranch
      rw [hbranch]
      cases hright : t.slot? h (2 * i + 1) with
      | none => simp
      | some right =>
          have hne : left ≠ right := by
            rintro rfl
            have hplaces := (ht.slot?_injective hleft hright).2
            omega
          simpa using hne

/-- How far the search for the node over `target` has come: the names `seen` have been
visited, the last one first, and the names `pending` are waiting. -/
structure Searching (t : Tree) (target : NodeId) (seen pending : List NodeId) : Prop where
  nodup : (seen ++ pending).Nodup
  stands : ∀ id ∈ seen ++ pending, ∃ h i, t.slot? h i = some id
  met : ∀ id ∈ seen ++ pending, t.root? = some id ∨ ∃ parent ∈ seen, t.StandsOver parent id
  passed : ∀ id ∈ seen, ¬ t.StandsOver id target
  root_met : ∀ root ∈ t.root?, root ∈ seen ++ pending
  closed : ∀ id ∈ seen, ∀ {child : NodeId} {h i : Nat}, t.StandsOver id child →
    t.slot? (h + 1) i = some child → child ∈ seen ++ pending

namespace Searching

variable {seen pending : List NodeId}

theorem start (ht : t.Sound) (target : NodeId) : t.Searching target [] t.root?.toList where
  nodup := by cases t.root? <;> simp
  stands id hid := ⟨_, _, ht.slot?_root (by simpa using hid)⟩
  met id hid := Or.inl (by simpa using hid)
  passed id hid := by simp at hid
  root_met root hroot := by simpa using hroot
  closed id hid := by simp at hid

theorem length_le (hs : t.Searching target seen pending) (ht : t.Sound) :
    seen.length + pending.length ≤ t.arena.slots.size := by
  rw [← List.length_append]
  refine Arena.length_le_of_nodup hs.nodup fun id hid => ?_
  obtain ⟨h, i, hslot⟩ := hs.stands id hid
  obtain ⟨n, hn, -⟩ := ht.exists_node hslot
  exact ⟨n, hn⟩

/-- A visit to a name that is not over the target: the branches below it are new. -/
theorem visit (hs : t.Searching target seen (id :: pending)) (ht : t.Sound) {n : Node}
    (hn : t.arena.get? id = some n) (hpass : target ∉ n.children) :
    t.Searching target (id :: seen) ((branchesBelow t.arena n).reverse ++ pending) := by
  obtain ⟨h, i, hslot⟩ := hs.stands id (by simp)
  have hover : ∀ {child : NodeId}, t.StandsOver id child ↔ child ∈ n.children :=
    ht.standsOver_iff_mem_children hslot hn
  generalize hinner : branchesBelow t.arena n = inner
  have hchild : ∀ {child : NodeId}, child ∈ inner → t.StandsOver id child := by
    intro child hmem
    rw [← hinner, mem_branchesBelow_iff] at hmem
    exact hover.2 hmem.1
  have hunmet : id ∉ seen := fun hid =>
    (List.nodup_append.1 hs.nodup).2.2 id hid id (by simp) rfl
  have hperm := perm_of_visit id inner seen pending
  have hmem : ∀ {x : NodeId}, x ∈ id :: seen ++ (inner.reverse ++ pending) ↔
      x ∈ inner ∨ x ∈ seen ++ id :: pending := by
    intro x
    rw [hperm.mem_iff, List.mem_append]
  constructor
  case nodup =>
    rw [hperm.nodup_iff, List.nodup_append]
    refine ⟨?_, hs.nodup, ?_⟩
    · rw [← hinner]
      exact (ht.nodup_children hslot hn).filter _
    · -- a child that was met before would have been met from here
      rintro child hnew _ hold rfl
      rcases hs.met child hold with hroot | ⟨parent, hseen, hparent⟩
      · exact ht.not_standsOver_root hroot (hchild hnew)
      · rw [ht.standsOver_unique hparent (hchild hnew)] at hseen
        exact hunmet hseen
  case stands =>
    intro x hx
    rcases hmem.1 hx with hnew | hold
    · obtain ⟨l, j, hplace, -⟩ := hchild hnew
      exact ⟨l, j, hplace⟩
    · exact hs.stands x hold
  case met =>
    intro x hx
    rcases hmem.1 hx with hnew | hold
    · exact Or.inr ⟨id, by simp, hchild hnew⟩
    · rcases hs.met x hold with hroot | ⟨parent, hseen, hparent⟩
      · exact Or.inl hroot
      · exact Or.inr ⟨parent, List.mem_cons_of_mem id hseen, hparent⟩
  case passed =>
    intro x hx
    rcases List.mem_cons.1 hx with rfl | hseen
    · exact fun htarget => hpass (hover.1 htarget)
    · exact hs.passed x hseen
  case root_met => exact fun root hroot => hmem.2 (Or.inr (hs.root_met root hroot))
  case closed =>
    intro x hx child l j hparent hplace
    rcases List.mem_cons.1 hx with rfl | hseen
    · obtain ⟨left, -, m, -, hbranch⟩ := ht.covers_slot? hplace
      refine hmem.2 (Or.inl ?_)
      rw [← hinner, mem_branchesBelow_iff]
      exact ⟨hover.1 hparent, _, hbranch, rfl⟩
    · exact hmem.2 (Or.inr (hs.closed x hseen hparent hplace))

/-- When nothing is waiting any more, every branch has been visited. -/
theorem mem_of_slot? (hs : t.Searching target seen []) (ht : t.Sound) :
    ∀ {d h i : Nat} {id : NodeId}, t.slot? (h + 1) i = some id →
      h + 2 + d = t.levels.length → id ∈ seen := by
  intro d
  induction d with
  | zero =>
      intro h i id hid htop
      have hmet := hs.root_met id (ht.root?_of_slot? hid htop)
      rwa [List.append_nil] at hmet
  | succ d ih =>
      intro h i id hid htop
      obtain ⟨parent, hparent⟩ := ht.exists_parent hid (by omega)
      have hseen := ih hparent (by omega)
      have hmet := hs.closed parent hseen ⟨h + 1, i, hid, hparent⟩ hid
      rwa [List.append_nil] at hmet

theorem not_standsOver (hs : t.Searching target seen []) (ht : t.Sound) :
    ¬ t.StandsOver parent target := by
  rintro ⟨h, i, htarget, hparent⟩
  obtain ⟨level, hlevel, -⟩ := slot?_eq_some_iff.1 hparent
  have hlt := (List.getElem?_eq_some_iff.1 hlevel).1
  obtain ⟨d, hd⟩ := Nat.exists_eq_add_of_le hlt
  exact hs.passed parent (hs.mem_of_slot? (d := d) ht hparent (by omega)) ⟨h, i, htarget, hparent⟩

/-- The search comes to an end after no more visits than the arena has slots, all of them to
different names, and its answer is the node over the target if there is one. -/
theorem exists_traversal (ht : t.Sound) {visits : Nat} (hs : t.Searching target seen pending)
    (hvisits : t.arena.slots.size ≤ seen.length + visits) :
    ∃ visited parent?, Traversal t.arena target pending visited parent? ∧
      visited.length ≤ visits ∧ (visited.reverse ++ seen).Nodup ∧
      ∀ parent, parent? = some parent ↔ t.StandsOver parent target := by
  have hnodup := hs.nodup
  induction visits generalizing seen pending with
  | zero =>
      have hlength := hs.length_le ht
      obtain rfl : pending = [] := List.eq_nil_of_length_eq_zero (by omega)
      rw [List.append_nil] at hnodup
      exact ⟨[], none, .exhausted, Nat.le_refl 0, hnodup, fun parent =>
        iff_of_false nofun (hs.not_standsOver ht)⟩
  | succ visits ih =>
      cases pending with
      | nil =>
          rw [List.append_nil] at hnodup
          exact ⟨[], none, .exhausted, Nat.zero_le _, hnodup, fun parent =>
            iff_of_false nofun (hs.not_standsOver ht)⟩
      | cons id pending =>
          obtain ⟨h, i, hslot⟩ := hs.stands id (by simp)
          obtain ⟨n, hn, -⟩ := ht.exists_node hslot
          by_cases htarget : target ∈ n.children
          · have hover := (ht.standsOver_iff_mem_children hslot hn).2 htarget
            refine ⟨[id], some id, .found hn htarget, Nat.le_add_left 1 visits, ?_, fun parent =>
              ⟨fun heq => Option.some.inj heq ▸ hover, fun hover' =>
                congrArg some (ht.standsOver_unique hover hover')⟩⟩
            exact (List.perm_middle.nodup_iff.1 hnodup).sublist
              ((List.sublist_append_left seen pending).cons_cons id)
          · have hnext := hs.visit ht hn htarget
            obtain ⟨visited, parent?, htraversal, hlength, hvisited, hiff⟩ :=
              ih hnext (by rw [List.length_cons]; omega) hnext.nodup
            refine ⟨id :: visited, parent?, .visit hn htarget htraversal,
              Nat.succ_le_succ hlength, ?_, hiff⟩
            rwa [List.reverse_cons, List.append_assoc, List.singleton_append]

end Searching

/-- The search from the root of a sound tree ends, with the answer that `parentOf?` gives, and it
visits no name twice. -/
theorem Sound.exists_traversal (ht : t.Sound) (target : NodeId) :
    ∃ visited, Traversal t.arena target t.root?.toList visited (t.parentOf? target) ∧
      visited.Nodup ∧ ∀ parent, t.parentOf? target = some parent ↔ t.StandsOver parent target := by
  obtain ⟨visited, parent?, htraversal, hlength, hnodup, hiff⟩ :=
    Searching.exists_traversal ht (Searching.start ht target)
      (Nat.le_of_eq (Nat.zero_add _).symm)
  have hanswer : t.parentOf? target = parent? := by
    rw [parentOf?, htraversal.searchParent_eq, if_pos hlength]
    cases parent? with
    | none => rfl
    | some parent => rfl
  rw [List.append_nil, List.nodup_reverse] at hnodup
  rw [hanswer]
  exact ⟨visited, htraversal, hnodup, hiff⟩

/-- What the search from the root finds is the node over the place of the given one. It finds
nothing for the root, nor for a name that does not stand in the tree. -/
theorem Sound.parentOf?_eq_some_iff (ht : t.Sound) :
    t.parentOf? target = some parent ↔ t.StandsOver parent target := by
  obtain ⟨-, -, -, hiff⟩ := ht.exists_traversal target
  exact hiff parent

theorem Sound.parentOf?_eq_none_iff (ht : t.Sound) :
    t.parentOf? target = none ↔ ∀ parent, ¬ t.StandsOver parent target := by
  rw [Option.eq_none_iff_forall_ne_some]
  exact forall_congr' fun parent => not_congr ht.parentOf?_eq_some_iff

end Tree

end SealedLog
