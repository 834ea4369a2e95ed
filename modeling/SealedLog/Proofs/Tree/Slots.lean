import SealedLog.Proofs.Tree.Growth
import Mathlib.Algebra.Order.Floor.Div
import Mathlib.Algebra.Order.Ring.Nat
import Mathlib.Data.Nat.Log
import Mathlib.GroupTheory.GroupAction.Ring

/-!
# The places of a sound tree

`Tower` goes from each level to the next. Here the same is said of places: how many levels
there are over so many leaves, how many nodes a level has, and which nodes are the children of
the node at place `i` of a level, namely those at the places `2 * i` and `2 * i + 1` of the level
below, as far as these exist. No name stands at two places.

Hashes of leaves do not matter for any of this, so it holds of trees that were tampered with.
-/

namespace SealedLog

namespace Tree

section Tower

variable {arena : Arena} {h : Nat} {lower : Array NodeId} {above : List (Array NodeId)}

theorem Tower.isLevel_getElem? (ht : Tower arena h lower above) {j : Nat} {level : Array NodeId}
    (hj : (lower :: above)[j]? = some level) : IsLevel arena (h + j) level := by
  induction above generalizing h lower j with
  | nil =>
      cases j with
      | zero =>
          cases hj
          exact ht.isLevel
      | succ j => simp at hj
  | cons upper above ih =>
      cases j with
      | zero =>
          cases hj
          exact ht.isLevel
      | succ j =>
          rw [List.getElem?_cons_succ] at hj
          rw [show h + (j + 1) = h + 1 + j by omega]
          exact ih ht.2.2.2 hj

theorem Tower.linked_getElem? (ht : Tower arena h lower above) {j : Nat}
    {level upper : Array NodeId} (hj : (lower :: above)[j]? = some level)
    (hj' : (lower :: above)[j + 1]? = some upper) : Linked arena (h + j) level upper := by
  induction above generalizing h lower j with
  | nil => simp at hj'
  | cons next above ih =>
      cases j with
      | zero =>
          cases hj
          cases hj'
          exact ht.2.2.1
      | succ j =>
          rw [List.getElem?_cons_succ] at hj hj'
          rw [show h + (j + 1) = h + 1 + j by omega]
          exact ih ht.2.2.2 hj hj'

/-- Halving twice, rounding up each time, is dividing by four. -/
theorem ceilDiv_two_ceilDiv_pow (k j : Nat) : (k ⌈/⌉ 2) ⌈/⌉ 2 ^ j = k ⌈/⌉ 2 ^ (j + 1) := by
  have hpos : 0 < 2 ^ j := Nat.two_pow_pos j
  refine le_antisymm ?_ ?_
  · rw [ceilDiv_le_iff_le_mul hpos, ceilDiv_le_iff_le_mul two_pos, ← mul_assoc, ← pow_succ',
      ← ceilDiv_le_iff_le_mul (Nat.two_pow_pos (j + 1))]
  · rw [ceilDiv_le_iff_le_mul (Nat.two_pow_pos (j + 1)), pow_succ', mul_assoc,
      ← ceilDiv_le_iff_le_mul two_pos, ← ceilDiv_le_iff_le_mul hpos]

theorem Tower.size_getElem? (ht : Tower arena h lower above) {j : Nat} {level : Array NodeId}
    (hj : (lower :: above)[j]? = some level) : level.size = lower.size ⌈/⌉ 2 ^ j := by
  induction above generalizing h lower j with
  | nil =>
      cases j with
      | zero =>
          cases hj
          rw [pow_zero, ceilDiv_one]
      | succ j => simp at hj
  | cons upper above ih =>
      cases j with
      | zero =>
          cases hj
          rw [pow_zero, ceilDiv_one]
      | succ j =>
          rw [List.getElem?_cons_succ] at hj
          rw [ih ht.2.2.2 hj, ht.2.2.1.size_eq, ← ceilDiv_two_ceilDiv_pow]
          rfl

theorem Tower.length_above (ht : Tower arena h lower above) :
    above.length = Nat.clog 2 lower.size := by
  induction above generalizing h lower with
  | nil =>
      rw [ht.2, Nat.clog_one_right]
      rfl
  | cons upper above ih =>
      rw [List.length_cons, ih ht.2.2.2, ht.2.2.1.size_eq, Nat.clog_of_two_le (by decide) ht.2.1]
      rfl

end Tower

section branchOver

variable (arena : Arena) (h : Nat) (l : Node) (left : NodeId) (right? : Option NodeId)

@[simp] theorem left?_branchOver : (branchOver arena h l left right?).left? = some left := rfl

@[simp] theorem right?_branchOver : (branchOver arena h l left right?).right? = right? := rfl

@[simp] theorem children_branchOver :
    (branchOver arena h l left right?).children = left :: right?.toList := rfl

end branchOver

section Sound

variable {t : Tree} {h i j : Nat} {id : NodeId}

theorem slot?_eq_some_iff : t.slot? h i = some id ↔
    ∃ level, t.levels[h]? = some level ∧ level[i]? = some id := by
  rw [slot?, Option.bind_eq_some_iff]

theorem slot?_zero (t : Tree) (i : Nat) : t.slot? 0 i = t.leaves[i]? := by
  obtain ⟨arena, levels, root?, maxLeaves⟩ := t
  cases levels with
  | nil => simp [slot?, leaves]
  | cons lower above => rfl

theorem lt_length_levels (hid : t.slot? h i = some id) : h < t.levels.length := by
  obtain ⟨level, hlevel, -⟩ := slot?_eq_some_iff.1 hid
  exact (List.getElem?_eq_some_iff.1 hlevel).1

theorem Sound.isLevel (ht : t.Sound) {level : Array NodeId} (hlevel : t.levels[h]? = some level) :
    IsLevel t.arena h level := by
  cases ht with
  | empty arena maxLeaves => simp at hlevel
  | grown tower top filled =>
      rw [← Nat.zero_add h]
      exact tower.isLevel_getElem? hlevel

theorem Sound.size_level (ht : t.Sound) {level : Array NodeId}
    (hlevel : t.levels[h]? = some level) : level.size = t.leafCount ⌈/⌉ 2 ^ h := by
  cases ht with
  | empty arena maxLeaves => simp at hlevel
  | grown tower top filled => exact tower.size_getElem? hlevel

theorem Sound.length_levels (ht : t.Sound) :
    t.levels.length = if t.leafCount = 0 then 0 else Nat.clog 2 t.leafCount + 1 := by
  cases ht with
  | empty arena maxLeaves => rfl
  | @grown arena lower above root maxLeaves tower top filled =>
      have hpos : lower.size ≠ 0 := Nat.ne_of_gt tower.size_pos
      change above.length + 1 = if lower.size = 0 then 0 else Nat.clog 2 lower.size + 1
      rw [if_neg hpos, tower.length_above]

theorem Sound.getLast?_levels (ht : t.Sound) : t.levels.getLast? = t.root?.map (#[·]) := by
  cases ht with
  | empty arena maxLeaves => rfl
  | grown tower top filled => exact top

theorem Sound.exists_root (ht : t.Sound) (hlt : h < t.levels.length) :
    ∃ root, t.root? = some root := by
  cases ht with
  | empty arena maxLeaves => exact absurd hlt (Nat.not_lt_zero h)
  | @grown arena lower above root maxLeaves tower top filled => exact ⟨root, rfl⟩

theorem Sound.exists_node (ht : t.Sound) (hid : t.slot? h i = some id) :
    ∃ n, t.arena.get? id = some n ∧ n.level = h := by
  obtain ⟨level, hlevel, hid⟩ := slot?_eq_some_iff.1 hid
  exact (ht.isLevel hlevel).height hid

/-- No name stands at two places. -/
theorem Sound.slot?_injective (ht : t.Sound) {h' i' : Nat} (hid : t.slot? h i = some id)
    (hid' : t.slot? h' i' = some id) : h = h' ∧ i = i' := by
  have hheight : h = h' := by
    obtain ⟨n, hn, hlevel⟩ := ht.exists_node hid
    obtain ⟨n', hn', hlevel'⟩ := ht.exists_node hid'
    rw [hn, Option.some.injEq] at hn'
    rw [← hlevel, hn', hlevel']
  subst hheight
  obtain ⟨level, hlevel, hi⟩ := slot?_eq_some_iff.1 hid
  obtain ⟨level', hlevel', hi'⟩ := slot?_eq_some_iff.1 hid'
  rw [hlevel, Option.some.injEq] at hlevel'
  subst hlevel'
  exact ⟨rfl, (ht.isLevel hlevel).injective hi hi'⟩

theorem Sound.linked (ht : t.Sound) {lower upper : Array NodeId}
    (hlower : t.levels[h]? = some lower) (hupper : t.levels[h + 1]? = some upper) :
    Linked t.arena h lower upper := by
  cases ht with
  | empty arena maxLeaves => simp at hupper
  | grown tower top filled =>
      rw [← Nat.zero_add h]
      exact tower.linked_getElem? hlower hupper

/-- The node at a place above the leaves is the branch over the two places below it. -/
theorem Sound.covers_slot? (ht : t.Sound) (hid : t.slot? (h + 1) i = some id) :
    ∃ left, t.slot? h (2 * i) = some left ∧
      Covers t.arena h left (t.slot? h (2 * i + 1)) id := by
  obtain ⟨upper, hupper, hi⟩ := slot?_eq_some_iff.1 hid
  have hlt := (List.getElem?_eq_some_iff.1 hupper).1
  have hlower : t.levels[h]? = some t.levels[h] := List.getElem?_eq_getElem (by omega)
  have hlink := ht.linked hlower hupper
  have hsize := hlink.size_eq
  have hplace := (Array.getElem?_eq_some_iff.1 hi).1
  have hleft : t.levels[h][2 * i]? = some t.levels[h][2 * i] :=
    Array.getElem?_eq_getElem (by omega)
  simp only [slot?, hlower, Option.bind_some]
  exact ⟨_, hleft, hlink.covers hleft hi⟩

/-- Over every place but that of the root there is a parent. -/
theorem Sound.exists_parent (ht : t.Sound) (hid : t.slot? h i = some id)
    (hbelow : h + 1 < t.levels.length) : ∃ parent, t.slot? (h + 1) (i / 2) = some parent := by
  obtain ⟨lower, hlower, hi⟩ := slot?_eq_some_iff.1 hid
  have hupper := List.getElem?_eq_getElem hbelow
  have hsize := (ht.linked hlower hupper).size_eq
  have hplace := (Array.getElem?_eq_some_iff.1 hi).1
  refine ⟨t.levels[h + 1][i / 2], slot?_eq_some_iff.2 ⟨_, hupper, ?_⟩⟩
  exact Array.getElem?_eq_getElem (by omega)

/-- What a node at a place has for children are the nodes at the two places below it. -/
theorem Sound.mem_children_iff (ht : t.Sound) {n : Node} {child : NodeId}
    (hid : t.slot? h i = some id) (hn : t.arena.get? id = some n) :
    child ∈ n.children ↔ ∃ h' j, h = h' + 1 ∧ i = j / 2 ∧ t.slot? h' j = some child := by
  cases h with
  | zero =>
      rw [slot?_zero] at hid
      obtain ⟨m, hm, blocks, hshape, -⟩ := ht.exists_leaf hid
      rw [hn, Option.some.injEq] at hm
      subst hm
      simp [Node.children, Node.left?, Node.right?, hshape]
  | succ h =>
      obtain ⟨left, hleft, l, -, hbranch⟩ := ht.covers_slot? hid
      rw [hn, Option.some.injEq] at hbranch
      have hchildren : child ∈ n.children ↔
          t.slot? h (2 * i) = some child ∨ t.slot? h (2 * i + 1) = some child := by
        rw [hbranch, hleft]
        simp [eq_comm]
      rw [hchildren]
      constructor
      · rintro (hchild | hchild)
        · exact ⟨h, 2 * i, rfl, by omega, hchild⟩
        · exact ⟨h, 2 * i + 1, rfl, by omega, hchild⟩
      · rintro ⟨h', j, heq, rfl, hchild⟩
        obtain rfl := Nat.succ.inj heq
        rcases Nat.mod_two_eq_zero_or_one j with heven | hodd
        · exact Or.inl (by rwa [show 2 * (j / 2) = j by omega])
        · exact Or.inr (by rwa [show 2 * (j / 2) + 1 = j by omega])

end Sound

end Tree

end SealedLog
