import SealedLog.Proofs.Tree.Ownership

/-!
# What an append leaves as it was

A block that finds room in the last leaf changes no slot of the tree, and of the nodes only those
at the right edge, the last ones of their levels (`SameEdge`). A block that opens a leaf, the one
at place `k`, puts new nodes along the path over it: the slot at place `k / 2 ^ h` of each level
`h` gets a name that was never given to a node of this tree, the provisional node that stood
there is gone, and nothing else is touched (`NewEdge`).

Main statement: `append_frame`. A node over full leaves only (`OverFull`) is neither at the right
edge of a tree with room in its last leaf nor on the path over a new leaf, so it stays where and
what it is, however many blocks follow.
-/

namespace SealedLog

namespace Arena

variable {arena arena' : Arena} {id other : NodeId}

theorem size_slots_set (arena : Arena) (id : NodeId) (node : Node) :
    (arena.set id node).slots.size = arena.slots.size :=
  Array.size_setIfInBounds

theorem get?_refresh_of_ne (h : arena.refresh id = .ok arena') (hne : other ≠ id) :
    arena'.get? other = arena.get? other := by
  rcases eq_or_exists_set_of_refresh h with rfl | ⟨old, new, -, rfl⟩
  · rfl
  · exact get?_set_ne arena new hne

theorem size_slots_refresh (h : arena.refresh id = .ok arena') :
    arena'.slots.size = arena.slots.size := by
  rcases eq_or_exists_set_of_refresh h with rfl | ⟨old, new, -, rfl⟩
  · rfl
  · exact size_slots_set arena id new

end Arena

namespace Tree

section Edge

variable {above : List (Array NodeId)} {arena arena' : Arena}

/-- Hashing the right edge anew writes the last nodes of the levels and no others, and hands out
no name. -/
theorem refreshEdge_frame (h : refreshEdge arena above = .ok arena') :
    arena'.slots.size = arena.slots.size ∧
      ∀ {id : NodeId}, (∀ level ∈ above, level.back? ≠ some id) →
        arena'.get? id = arena.get? id := by
  refine refreshEdge_preserves
    (P := fun a => a.slots.size = arena.slots.size ∧
      ∀ {id : NodeId}, (∀ level ∈ above, level.back? ≠ some id) → a.get? id = arena.get? id)
    h ⟨rfl, fun _ => rfl⟩ ?_
  rintro level last a a' hlevel hback hrefresh ⟨hsize, hsame⟩
  refine ⟨by rw [Arena.size_slots_refresh hrefresh, hsize], fun {id} hlast => ?_⟩
  have hne : id ≠ last := by
    rintro rfl
    exact hlast level hlevel hback
  rw [Arena.get?_refresh_of_ne hrefresh hne, hsame hlast]

end Edge

/-- The name at a place of one of `levels`, the lowest of which has the number zero: `slot?`,
where these are the levels of a tree. -/
def at? (levels : List (Array NodeId)) (h i : Nat) : Option NodeId :=
  levels[h]?.bind (·[i]?)

@[simp] theorem at?_nil (h i : Nat) : at? [] h i = none := rfl

@[simp] theorem at?_cons_zero (level : Array NodeId) (above : List (Array NodeId)) (i : Nat) :
    at? (level :: above) 0 i = level[i]? := rfl

@[simp] theorem at?_cons_succ (level : Array NodeId) (above : List (Array NodeId)) (h i : Nat) :
    at? (level :: above) (h + 1) i = at? above h i := rfl

theorem stands_of_at? {levels : List (Array NodeId)} {h i : Nat} {id : NodeId}
    (hid : at? levels h i = some id) : Stands levels id := by
  obtain ⟨level, hlevel, hi⟩ := Option.bind_eq_some_iff.1 hid
  exact ⟨level, List.mem_of_getElem? hlevel, Array.mem_of_getElem? hi⟩

theorem div_two_div_pow (place j : Nat) : place / 2 / 2 ^ j = place / 2 ^ (j + 1) := by
  rw [Nat.div_div_eq_div_mul, pow_succ']

theorem Rung.size_slots {arena arena₁ arena₂ : Arena} {h place : Nat}
    {lower level : Array NodeId} {node left parent : NodeId}
    (r : Rung arena h lower place node arena₁ level left arena₂ parent) :
    arena₂.slots.size = arena.slots.size + 1 := by
  obtain ⟨l, -, hinsert⟩ := r.insert_eq
  rw [Arena.insert, Prod.mk.injEq] at hinsert
  rw [← hinsert.1, Array.size_push, r.vacated.slots_eq]

/-- What `raise` changes when it puts `node` at `place`: of each level the slot over that place,
which gets `node` or a name that the arena had not handed out. -/
structure Replaced (arena : Arena) (levels : List (Array NodeId)) (place : Nat) (node : NodeId)
    (arena' : Arena) (levels' : List (Array NodeId)) : Prop where
  size_le : arena.slots.size ≤ arena'.slots.size
  at?_eq : ∀ {j i : Nat}, i ≠ place / 2 ^ j → at? levels' j i = at? levels j i
  get?_eq : ∀ {j i : Nat} {id : NodeId}, at? levels j i = some id → i ≠ place / 2 ^ j →
    arena'.get? id = arena.get? id
  exists_at? : ∀ {j : Nat}, j < levels'.length → ∃ id, at? levels' j (place / 2 ^ j) = some id ∧
    (id = node ∨ arena.slots.size ≤ id.index)

namespace Replaced

variable {arena arena₁ arena₂ arena₃ : Arena} {h place : Nat} {lower level : Array NodeId}
  {above above' : List (Array NodeId)} {node left parent : NodeId}

theorem nil (arena : Arena) (node : NodeId) : Replaced arena [] 0 node arena [#[node]] where
  size_le := Nat.le_refl _
  at?_eq {j i} hi := by
    cases j with
    | zero =>
        rw [pow_zero, Nat.div_one] at hi
        simp [hi]
    | succ j => simp
  get?_eq hid := by simp at hid
  exists_at? {j} hj := by
    obtain rfl : j = 0 := Nat.lt_one_iff.1 hj
    exact ⟨node, rfl, Or.inl rfl⟩

/-- The only node of a top level is replaced. -/
theorem single (v : Vacated arena lower 0 arena₁ level) (hsize : lower.size ≤ 1) :
    Replaced arena [lower] 0 node arena₁ [#[node]] where
  size_le := Nat.le_of_eq v.slots_eq.symm
  at?_eq {j i} hi := by
    cases j with
    | zero =>
        rw [pow_zero, Nat.div_one] at hi
        rw [at?_cons_zero, at?_cons_zero, Array.getElem?_eq_none (by simp; omega),
          Array.getElem?_eq_none (by omega)]
    | succ j => simp
  get?_eq {j i id} hid hi := by
    cases j with
    | zero =>
        rw [pow_zero, Nat.div_one] at hi
        have hlt := (Array.getElem?_eq_some_iff.1 hid).1
        omega
    | succ j => simp at hid
  exists_at? {j} hj := by
    obtain rfl : j = 0 := Nat.lt_one_iff.1 hj
    exact ⟨node, rfl, Or.inl rfl⟩

/-- What `raise` changes on a level and above it, from what it changes above. -/
theorem cons (ht : Tower arena h lower above)
    (hplace : place = lower.size ∨ place + 1 = lower.size)
    (r : Rung arena h lower place node arena₁ level left arena₂ parent)
    (hbelow : AgreeBelow (h + 1) arena₂ arena₃)
    (habove : Replaced arena₂ above (place / 2) parent arena₃ above') :
    Replaced arena (lower :: above) place node arena₃ (level.push node :: above') where
  size_le := by
    have hgrown := habove.size_le
    rw [r.size_slots] at hgrown
    omega
  at?_eq {j i} hi := by
    cases j with
    | zero =>
        rw [pow_zero, Nat.div_one] at hi
        rw [at?_cons_zero, at?_cons_zero]
        rcases Nat.lt_or_gt_of_ne hi with hlt | hgt
        · exact r.getElem?_push hlt
        · have hsize := r.vacated.size_eq
          rw [Array.getElem?_eq_none (by rw [Array.size_push]; omega),
            Array.getElem?_eq_none (by omega)]
    | succ j =>
        rw [at?_cons_succ, at?_cons_succ]
        exact habove.at?_eq (by rwa [div_two_div_pow])
  get?_eq {j i id} hid hi := by
    cases j with
    | zero =>
        rw [pow_zero, Nat.div_one] at hi
        have hlt := (Array.getElem?_eq_some_iff.1 hid).1
        exact r.get?_of_lt hbelow (by omega) hid
    | succ j =>
        rw [at?_cons_succ] at hid
        rw [habove.get?_eq hid (by rwa [div_two_div_pow])]
        -- the node is of a greater height than the level that was vacated
        cases above with
        | nil => simp at hid
        | cons upper rest =>
            obtain ⟨n, hn, hle⟩ := ht.2.2.2.le_level_of_stands (stands_of_at? hid)
            rw [r.get?_of_level_ne hn (by omega), hn]
  exists_at? {j} hj := by
    cases j with
    | zero =>
        rw [pow_zero, Nat.div_one]
        exact ⟨node, r.getElem?_push_self, Or.inl rfl⟩
    | succ j =>
        obtain ⟨id, hid, hname⟩ := habove.exists_at? (Nat.lt_of_succ_lt_succ hj)
        rw [div_two_div_pow] at hid
        refine ⟨id, hid, Or.inr ?_⟩
        have hparent := r.index_parent
        have hsize := r.size_slots
        rcases hname with rfl | hnew
        · exact Nat.le_of_eq hparent.symm
        · omega

end Replaced

theorem replaced_of_raise {levels levels' : List (Array NodeId)} {arena arena' : Arena}
    {h place : Nat} {node root : NodeId} {n : Node} (hopen : IsOpen arena h levels place)
    (hn : arena.get? node = some n) (hlevel : n.level = h)
    (hfresh : ∀ {i : Nat}, (levels.headD #[])[i]? ≠ some node)
    (hraise : raise arena levels place node = .ok (arena', levels', root)) :
    Replaced arena levels place node arena' levels' := by
  induction levels generalizing arena arena' levels' h place node n with
  | nil =>
      obtain rfl : place = 0 := hopen
      rw [raise, Except.ok.injEq, Prod.mk.injEq, Prod.mk.injEq] at hraise
      obtain ⟨rfl, rfl, -⟩ := hraise
      exact .nil arena node
  | cons lower above ih =>
      obtain ⟨ht, hplace⟩ := hopen
      obtain ⟨arena₁, level, -, v, ⟨rfl, rfl, rfl, hcons⟩ | ⟨left, arena₂, parent, r, hcons⟩⟩ :=
        raise_cons_cases ht hplace hn hlevel hfresh
      · rw [hraise, Except.ok.injEq, Prod.mk.injEq, Prod.mk.injEq] at hcons
        obtain ⟨rfl, rfl, -⟩ := hcons
        exact .single v (Nat.le_of_eq ht.2)
      · obtain ⟨hopen, hunused⟩ := r.isOpen ht hplace
        obtain ⟨m, hparent, hheight⟩ := r.covers_parent.1
        obtain ⟨arena₃, upper, above', top, hrest, hraised⟩ :=
          raise_eq_ok hopen hparent hheight hunused
        rw [hraise, hrest, Except.map, Except.ok.injEq, Prod.mk.injEq, Prod.mk.injEq] at hcons
        obtain ⟨rfl, rfl, rfl⟩ := hcons
        exact .cons ht hplace r hraised.below (ih hopen hparent hheight hunused hrest)

/-- The slots are the same, and of the nodes at most the last ones of their levels are not. -/
structure SameEdge (t t' : Tree) : Prop where
  slot?_eq : ∀ h i, t'.slot? h i = t.slot? h i
  get?_eq : ∀ {h i : Nat} {id next : NodeId}, t.slot? h i = some id →
    t.slot? h (i + 1) = some next → t'.arena.get? id = t.arena.get? id

/-- There is one leaf more. The slots on the path over it have names that the arena hands out
now, what stood there before is gone, and the other slots are as they were, with their nodes. -/
structure NewEdge (t t' : Tree) : Prop where
  leafCount_eq : t'.leafCount = t.leafCount + 1
  slot?_eq : ∀ {h i : Nat}, i ≠ t.leafCount / 2 ^ h → t'.slot? h i = t.slot? h i
  get?_eq : ∀ {h i : Nat} {id : NodeId}, t.slot? h i = some id → i ≠ t.leafCount / 2 ^ h →
    t'.arena.get? id = t.arena.get? id
  exists_new : ∀ {h : Nat}, h < t'.levels.length → ∃ id,
    t'.slot? h (t.leafCount / 2 ^ h) = some id ∧ t.arena.slots.size ≤ id.index
  gone : ∀ {h : Nat} {id : NodeId}, t.slot? h (t.leafCount / 2 ^ h) = some id →
    t'.arena.get? id = none

section Append

variable {t t' : Tree} {data : String}

theorem mem_levels_of_lastLeaf? {leaf : NodeId} (hleaf : t.lastLeaf? = some leaf) :
    ∃ lower ∈ t.levels, lower.back? = some leaf := by
  rw [lastLeaf?, leaves] at hleaf
  cases hlevels : t.levels with
  | nil => simp [hlevels] at hleaf
  | cons lower above => exact ⟨lower, List.mem_cons_self, by rwa [hlevels] at hleaf⟩

theorem sameEdge_of_extendLeaf (ht : t.Sound) {leaf : NodeId} (hleaf : t.lastLeaf? = some leaf)
    (hextend : t.extendLeaf leaf data = .ok t') :
    t'.arena.slots.size = t.arena.slots.size ∧ SameEdge t t' := by
  obtain ⟨arena₁, arena₂, happend, hedge, rfl⟩ := exists_of_extendLeaf hextend
  obtain ⟨hsize, hkept⟩ := refreshEdge_frame hedge
  obtain ⟨old, new, hold, rfl⟩ := Arena.exists_set_of_appendToLeaf happend
  refine ⟨by rw [hsize, Arena.size_slots_set], fun h i => rfl, ?_⟩
  intro h i id next hid hnext
  -- a name with another one after it is not the last of any level
  have hlast : ∀ level ∈ t.levels, level.back? ≠ some id := by
    intro level hlevel hback
    rw [Array.back?_eq_getElem?] at hback
    obtain ⟨h', hh'⟩ := List.getElem?_of_mem hlevel
    obtain ⟨rfl, rfl⟩ := ht.slot?_injective hid (slot?_eq_some_iff.2 ⟨level, hh', hback⟩)
    obtain ⟨level', hlevel', hnext⟩ := slot?_eq_some_iff.1 hnext
    rw [hh', Option.some.injEq] at hlevel'
    subst hlevel'
    have hlt := (Array.getElem?_eq_some_iff.1 hnext).1
    omega
  have hne : id ≠ leaf := by
    rintro rfl
    obtain ⟨lower, hlower, hback⟩ := mem_levels_of_lastLeaf? hleaf
    exact hlast lower hlower hback
  rw [hkept fun level hlevel => hlast level (List.mem_of_mem_tail hlevel),
    Arena.get?_set_ne _ _ hne]

/-- Opening a leaf raises a new node at the place after the last leaf. -/
theorem replaced_of_openLeaf (ht : t.Sound) (hopen : t.openLeaf data = .ok t') :
    t'.leafCount = t.leafCount + 1 ∧ ∃ arena leaf, leaf.index = t.arena.slots.size ∧
      arena.slots.size = t.arena.slots.size + 1 ∧
      (∀ {id : NodeId} {n : Node}, t.arena.get? id = some n → arena.get? id = some n) ∧
      Replaced arena t.levels t.leafCount leaf t'.arena t'.levels := by
  obtain ⟨arena₁, leaf, arena', lower, above, root, o⟩ := ht.exists_opening data
  have hsize : (t.arena.insert (.ofBlocks [data])).1.slots.size = t.arena.slots.size + 1 :=
    Array.size_push _
  rw [o.insert_eq] at hsize
  rw [o.openLeaf_eq, Except.ok.injEq] at hopen
  subst hopen
  exact ⟨o.raised.size_eq, arena₁, leaf, o.index_leaf, hsize, o.get?_of_some,
    replaced_of_raise o.isOpen o.get?_leaf rfl o.unused o.raise_eq⟩

/-- On the path over the new leaf there are new names only, so a name that had been handed out
before stands where it stood. -/
theorem slot?_of_index_lt {k h i : Nat} {id : NodeId}
    (hsame : ∀ {h i : Nat}, i ≠ k / 2 ^ h → t'.slot? h i = t.slot? h i)
    (hnew : ∀ {h : Nat}, h < t'.levels.length → ∃ id,
      t'.slot? h (k / 2 ^ h) = some id ∧ t.arena.slots.size ≤ id.index)
    (hid : t'.slot? h i = some id) (hmade : id.index < t.arena.slots.size) :
    i ≠ k / 2 ^ h ∧ t.slot? h i = some id := by
  have hi : i ≠ k / 2 ^ h := by
    rintro rfl
    obtain ⟨new, hslot, hindex⟩ := hnew (lt_length_levels hid)
    rw [hslot, Option.some.injEq] at hid
    rw [hid] at hindex
    exact Nat.not_lt.2 hindex hmade
  exact ⟨hi, by rw [← hsame hi, hid]⟩

theorem newEdge_of_openLeaf (ht : t.Sound) (ho : t.Owned) (hopen : t.openLeaf data = .ok t') :
    t.arena.slots.size ≤ t'.arena.slots.size ∧ NewEdge t t' := by
  obtain ⟨hcount, arena₁, leaf, hleaf, hsize, hold, hreplaced⟩ := replaced_of_openLeaf ht hopen
  have howned := ho.openLeaf ht hopen
  have hgrown := hreplaced.size_le
  have hnew : ∀ {h : Nat}, h < t'.levels.length → ∃ id,
      t'.slot? h (t.leafCount / 2 ^ h) = some id ∧ t.arena.slots.size ≤ id.index := by
    intro h hh
    obtain ⟨id, hid, hname⟩ := hreplaced.exists_at? hh
    refine ⟨id, hid, ?_⟩
    rcases hname with rfl | hname
    · exact Nat.le_of_eq hleaf.symm
    · omega
  refine ⟨by omega, hcount, hreplaced.at?_eq, fun {h i id} hid hi => ?_, hnew, ?_⟩
  · obtain ⟨n, hn, -⟩ := ht.exists_node hid
    rw [hreplaced.get?_eq hid hi, hold hn, hn]
  · intro h id hid
    rw [← Option.not_isSome_iff_eq_none, howned id, stands_levels_iff]
    rintro ⟨h', i', hid'⟩
    obtain ⟨n, hn, -⟩ := ht.exists_node hid
    obtain ⟨hi', hplace⟩ :=
      slot?_of_index_lt hreplaced.at?_eq hnew hid' (Arena.lt_size_of_get? hn)
    obtain ⟨rfl, rfl⟩ := ht.slot?_injective hid hplace
    exact hi' rfl

/-- Which of the two an append does is a matter of the room in the last leaf. -/
theorem append_edge (ht : t.Sound) (ho : t.Owned) (happend : t.append data = .ok t') :
    t.arena.slots.size ≤ t'.arena.slots.size ∧ (t.isLeafFull = false → SameEdge t t') ∧
      (t.isLeafFull = true → NewEdge t t') := by
  rw [append] at happend
  rw [isLeafFull]
  cases hleaf : t.lastLeaf? with
  | none =>
      simp only [hleaf] at happend
      obtain ⟨hsize, hnew⟩ := newEdge_of_openLeaf ht ho happend
      exact ⟨hsize, fun h => absurd h.symm Bool.false_ne_true, fun _ => hnew⟩
  | some leaf =>
      simp only [hleaf] at happend
      split at happend
      · next hfull =>
          obtain ⟨hsize, hnew⟩ := newEdge_of_openLeaf ht ho happend
          exact ⟨hsize, fun h => absurd (h.symm.trans hfull) Bool.false_ne_true, fun _ => hnew⟩
      · next hroom =>
          obtain ⟨hsize, hsame⟩ := sameEdge_of_extendLeaf ht hleaf happend
          exact ⟨Nat.le_of_eq hsize.symm, fun _ => hsame, fun h => absurd h hroom⟩

end Append

/-- The leaves under the place `i` of level `h` are there, and none of them has room. -/
def OverFull (t : Tree) (h i : Nat) : Prop :=
  ∀ j < 2 ^ h, (t.leafBlocks[i * 2 ^ h + j]?).map List.length = some leafCapacity

instance (t : Tree) (h i : Nat) : Decidable (t.OverFull h i) :=
  inferInstanceAs (Decidable (∀ j < 2 ^ h, _ = _))

section OverFull

variable {t t' : Tree} {h i : Nat}

theorem overFull_zero_iff {j : Nat} :
    t.OverFull 0 j ↔ (t.leafBlocks[j]?).map List.length = some leafCapacity := by
  simp [OverFull]

/-- Over full leaves means over places that are full leaves themselves. -/
theorem overFull_iff : t.OverFull h i ↔ ∀ j < 2 ^ h, t.OverFull 0 (i * 2 ^ h + j) :=
  forall₂_congr fun _ _ => overFull_zero_iff.symm

theorem OverFull.le_leafCount (hfull : t.OverFull h i) (ht : t.Sound) :
    (i + 1) * 2 ^ h ≤ t.leafCount := by
  have hpos := Nat.two_pow_pos h
  obtain ⟨blocks, hlast, -⟩ := Option.map_eq_some_iff.1 (hfull (2 ^ h - 1) (by omega))
  have hlt := (List.getElem?_eq_some_iff.1 hlast).1
  rw [ht.length_leafBlocks] at hlt
  rw [Nat.succ_mul]
  omega

/-- Where the last leaf has room, it is not under a place over full leaves. -/
theorem OverFull.lt_leafCount (hfull : t.OverFull h i) (ht : t.Sound)
    (hroom : t.isLeafFull = false) : (i + 1) * 2 ^ h < t.leafCount := by
  have hpos := Nat.two_pow_pos h
  refine Nat.lt_of_le_of_ne (hfull.le_leafCount ht) fun hend => ?_
  have hlength := ht.length_leafBlocks
  have hsplit := Nat.add_one_mul i (2 ^ h)
  obtain ⟨leaf, n, front, hleaf, hn, hfilled, hcells⟩ := ht.exists_lastLeaf (by
    rw [← List.length_pos_iff, ht.length_cells]
    omega)
  have hlast := hfull (2 ^ h - 1) (by omega)
  rw [leafBlocks_eq_map_cells, hcells, List.length_map, List.length_append,
    List.length_singleton] at hlength
  rw [show i * 2 ^ h + (2 ^ h - 1) = front.length by omega, leafBlocks_eq_map_cells, hcells,
    List.getElem?_map, List.getElem?_concat_length, Option.map_some, Option.map_some,
    Option.some.injEq, ← isFull_iff_of_isFilled hfilled] at hlast
  rw [isLeafFull, hleaf] at hroom
  simp [isNodeFull, hn, hlast] at hroom

/-- There a place over full leaves has another one after it. -/
theorem OverFull.exists_next (hfull : t.OverFull h i) (ht : t.Sound)
    (hroom : t.isLeafFull = false) {id : NodeId} (hid : t.slot? h i = some id) :
    ∃ next, t.slot? h (i + 1) = some next := by
  obtain ⟨level, hlevel, -⟩ := slot?_eq_some_iff.1 hid
  have hlt := hfull.lt_leafCount ht hroom
  have hsize : i + 1 < level.size := by
    rw [ht.size_level hlevel, ← not_le, ceilDiv_le_iff_le_mul (Nat.two_pow_pos h), mul_comm]
    omega
  exact ⟨level[i + 1], slot?_eq_some_iff.2 ⟨level, hlevel, Array.getElem?_eq_getElem hsize⟩⟩

/-- A place over full leaves is not on the path over a leaf that is opened. -/
theorem OverFull.ne_div (hfull : t.OverFull h i) (ht : t.Sound) : i ≠ t.leafCount / 2 ^ h := by
  have hle := (Nat.le_div_iff_mul_le (Nat.two_pow_pos h)).2 (hfull.le_leafCount ht)
  omega

variable {data : String}

theorem OverFull.kept_of_append (hfull : t.OverFull h i) (ht : t.Sound) (ho : t.Owned)
    (happend : t.append data = .ok t') {id : NodeId} (hid : t.slot? h i = some id) :
    t'.slot? h i = some id ∧ t'.arena.get? id = t.arena.get? id := by
  obtain ⟨-, hsame, hnew⟩ := append_edge ht ho happend
  cases hroom : t.isLeafFull with
  | false =>
      obtain ⟨next, hnext⟩ := hfull.exists_next ht hroom hid
      exact ⟨by rw [(hsame hroom).slot?_eq, hid], (hsame hroom).get?_eq hid hnext⟩
  | true =>
      have hne := hfull.ne_div ht
      exact ⟨by rw [(hnew hroom).slot?_eq hne, hid], (hnew hroom).get?_eq hid hne⟩

theorem OverFull.append (hfull : t.OverFull h i) (ht : t.Sound) (ho : t.Owned)
    (happend : t.append data = .ok t') (ht' : t'.Sound) : t'.OverFull h i := by
  rw [overFull_iff] at hfull ⊢
  intro j hj
  have hleaf := hfull j hj
  have hblocks := overFull_zero_iff.1 hleaf
  rw [ht.getElem?_leafBlocks, ← slot?_zero] at hblocks
  cases hid : t.slot? 0 (i * 2 ^ h + j) with
  | none => simp [hid] at hblocks
  | some id =>
      obtain ⟨hid', hget⟩ := hleaf.kept_of_append ht ho happend hid
      rw [overFull_zero_iff, ht'.getElem?_leafBlocks, ← slot?_zero, hid', Option.bind_some, hget]
      rwa [hid, Option.bind_some] at hblocks

/-- A node over full leaves keeps its place and stays as it is in any run of appends. -/
theorem OverFull.kept_of_appendAll {blocks : List String} (hfull : t.OverFull h i) (ht : t.Sound)
    (ho : t.Owned) (hall : t.appendAll blocks = .ok t') {id : NodeId}
    (hid : t.slot? h i = some id) :
    t'.slot? h i = some id ∧ t'.arena.get? id = t.arena.get? id := by
  induction blocks generalizing t with
  | nil =>
      cases hall
      exact ⟨hid, rfl⟩
  | cons data blocks ih =>
      obtain ⟨t₁, happend, hsound, -, -⟩ := append_eq_ok ht data
      rw [appendAll, List.foldlM_cons, happend] at hall
      obtain ⟨hid₁, hget₁⟩ := hfull.kept_of_append ht ho happend hid
      obtain ⟨hid', hget'⟩ := ih (hfull.append ht ho happend hsound) hsound
        (ho.append ht happend) hall hid₁
      exact ⟨hid', by rw [hget', hget₁]⟩

end OverFull

/-- No name is handed out twice: the arena of a tree only becomes larger. -/
theorem size_slots_le_of_appendAll {t t' : Tree} {blocks : List String} (ht : t.Sound)
    (ho : t.Owned) (hall : t.appendAll blocks = .ok t') :
    t.arena.slots.size ≤ t'.arena.slots.size := by
  induction blocks generalizing t with
  | nil =>
      cases hall
      exact Nat.le_refl _
  | cons data blocks ih =>
      obtain ⟨t₁, happend, hsound, -, -⟩ := append_eq_ok ht data
      rw [appendAll, List.foldlM_cons, happend] at hall
      exact Nat.le_trans (append_edge ht ho happend).1 (ih hsound (ho.append ht happend) hall)

/-- Trees that the same blocks were appended to first: the later one is grown from the earlier
one. -/
theorem appendAll_append (t : Tree) (blocks more : List String) :
    t.appendAll (blocks ++ more) = t.appendAll blocks >>= fun t' => t'.appendAll more := by
  rw [appendAll, List.foldlM_append]
  rfl

/-- What one more block does to the slots and the nodes of a grown tree. With room in the last
leaf every slot stays, and only last nodes of levels may change. Otherwise the path over the new
leaf gets names that no tree before knew, what stood there is gone, and everything else stays. So
what stands over full leaves stays for good. -/
theorem append_frame (blocks : List String) (maxLeaves : Nat) (data : String) :
    ∃ t t', ofBlocks blocks maxLeaves = .ok t ∧ t.append data = .ok t' ∧
      (t.isLeafFull = false → SameEdge t t') ∧
      (t.isLeafFull = true → NewEdge t t' ∧
        ∀ {n h : Nat} {earlier : Tree} {id : NodeId},
          ofBlocks (blocks.take n) maxLeaves = .ok earlier → h < t'.levels.length →
          t'.slot? h (t.leafCount / 2 ^ h) = some id → earlier.arena.get? id = none) ∧
      ∀ more, ∃ t'', t.appendAll more = .ok t'' ∧
        ∀ {h i : Nat} {id : NodeId}, t.OverFull h i → t.slot? h i = some id →
          t''.slot? h i = some id ∧ t''.arena.get? id = t.arena.get? id := by
  have hempty := sound_withCapacity maxLeaves
  have hnone := owned_withCapacity maxLeaves
  obtain ⟨t, hall, ht, ho⟩ := hempty.exists_appendAll hnone blocks
  obtain ⟨t', happend, -, -, -⟩ := append_eq_ok ht data
  obtain ⟨-, hsame, hnew⟩ := append_edge ht ho happend
  refine ⟨t, t', hall, happend, hsame, fun hfull => ⟨hnew hfull, ?_⟩, fun more => ?_⟩
  · intro n h earlier id hearlier hh hid
    obtain ⟨earlier', htake, hsound, howned⟩ := hempty.exists_appendAll hnone (blocks.take n)
    rw [ofBlocks, htake, Except.ok.injEq] at hearlier
    subst hearlier
    rw [← List.take_append_drop n blocks, appendAll_append, htake] at hall
    have hgrown := size_slots_le_of_appendAll hsound howned hall
    obtain ⟨new, hslot, hindex⟩ := (hnew hfull).exists_new hh
    rw [hid, Option.some.injEq] at hslot
    subst hslot
    exact Arena.get?_of_size_le (Nat.le_trans hgrown hindex)
  · obtain ⟨t'', hrest, -, -⟩ := ht.exists_appendAll ho more
    exact ⟨t'', hrest, fun hfull hid => hfull.kept_of_appendAll ht ho hrest hid⟩

end Tree

end SealedLog
