import SealedLog.Proofs.Tree.Tower

/-!
# Growth of a tree

A tree that is `Sound` can take another block: `append` does not fail on it and leaves it
sound. What it does to the leaves is what `Sound` leaves open, the nodes `cells` at the
bottom: either the last of them gets the block and is hashed anew, or a new one follows.
Whether the leaves have the hashes of their blocks does not matter here, so all of this
holds of a tree that was tampered with as well.
-/

namespace SealedLog

/-- Where a total partial function is mapped over a list, places are kept. -/
theorem getElem?_filterMap_of_isSome {α β : Type} {f : α → Option β} {l : List α}
    (h : ∀ a ∈ l, (f a).isSome) (i : Nat) : (l.filterMap f)[i]? = l[i]?.bind f := by
  induction l generalizing i with
  | nil => simp
  | cons a l ih =>
      obtain ⟨b, hb⟩ := Option.isSome_iff_exists.1 (h a (by simp))
      rw [List.filterMap_cons_some hb]
      cases i with
      | zero => simp [hb]
      | succ i =>
          rw [List.getElem?_cons_succ, List.getElem?_cons_succ]
          exact ih (fun c hc => h c (by simp [hc])) i

theorem length_filterMap_of_isSome {α β : Type} {f : α → Option β} {l : List α}
    (h : ∀ a ∈ l, (f a).isSome) : (l.filterMap f).length = l.length := by
  induction l with
  | nil => rfl
  | cons a l ih =>
      obtain ⟨b, hb⟩ := Option.isSome_iff_exists.1 (h a (by simp))
      rw [List.filterMap_cons_some hb, List.length_cons, List.length_cons,
        ih fun c hc => h c (by simp [hc])]

/-- A node is a leaf with a block at least and no more than there is room for, and with no
room left unless it is the last leaf. -/
def Node.IsFilled (n : Node) (last : Prop) : Prop :=
  ∃ blocks, n.shape = .leaf blocks ∧ 0 < blocks.length ∧ blocks.length ≤ leafCapacity ∧
    (¬ last → blocks.length = leafCapacity)

namespace Tree

/-- The leaves are filled one after the other, the levels stand over them as a tower, and
the root is its top. -/
inductive Sound : Tree → Prop
  | empty (arena : Arena) (maxLeaves : Nat) : Sound ⟨arena, [], none, maxLeaves⟩
  | grown {arena : Arena} {lower : Array NodeId} {above : List (Array NodeId)}
      {root : NodeId} {maxLeaves : Nat} (tower : Tower arena 0 lower above)
      (top : (lower :: above).getLast? = some #[root])
      (filled : ∀ {i : Nat} {id : NodeId}, lower[i]? = some id →
        ∃ n, arena.get? id = some n ∧ n.IsFilled (i + 1 = lower.size)) :
      Sound ⟨arena, lower :: above, some root, maxLeaves⟩

def cells (t : Tree) : List Node :=
  t.leaves.toList.filterMap t.arena.get?

theorem sound_withCapacity (maxLeaves : Nat) : Sound (withCapacity maxLeaves) :=
  .empty .empty _

@[simp] theorem cells_withCapacity (maxLeaves : Nat) : (withCapacity maxLeaves).cells = [] :=
  rfl

theorem leafBlocks_eq_map_cells (t : Tree) : t.leafBlocks = t.cells.map Node.blocks := by
  rw [cells, List.map_filterMap]
  rfl

theorem Sound.exists_leaf {t : Tree} (ht : t.Sound) {i : Nat} {id : NodeId}
    (hi : t.leaves[i]? = some id) :
    ∃ n, t.arena.get? id = some n ∧ n.IsFilled (i + 1 = t.leafCount) := by
  cases ht with
  | empty arena maxLeaves => simp [leaves] at hi
  | grown tower top filled => exact filled hi

theorem Sound.isSome_get? {t : Tree} (ht : t.Sound) :
    ∀ id ∈ t.leaves.toList, (t.arena.get? id).isSome := by
  intro id hid
  obtain ⟨i, hi⟩ := List.getElem?_of_mem hid
  rw [Array.getElem?_toList] at hi
  obtain ⟨n, hn, -⟩ := ht.exists_leaf hi
  rw [hn, Option.isSome_some]

theorem Sound.getElem?_cells {t : Tree} (ht : t.Sound) (i : Nat) :
    t.cells[i]? = t.leaves[i]?.bind t.arena.get? := by
  rw [cells, getElem?_filterMap_of_isSome ht.isSome_get?, Array.getElem?_toList]

theorem Sound.length_cells {t : Tree} (ht : t.Sound) : t.cells.length = t.leafCount := by
  rw [cells, length_filterMap_of_isSome ht.isSome_get?, Array.length_toList]
  rfl

theorem Sound.getElem?_leafBlocks {t : Tree} (ht : t.Sound) (i : Nat) :
    t.leafBlocks[i]? = t.leaves[i]?.bind fun id => (t.arena.get? id).map Node.blocks := by
  rw [leafBlocks_eq_map_cells, List.getElem?_map, ht.getElem?_cells, Option.map_bind]
  rfl

theorem Sound.length_leafBlocks {t : Tree} (ht : t.Sound) : t.leafBlocks.length = t.leafCount := by
  rw [leafBlocks_eq_map_cells, List.length_map, ht.length_cells]

/-- After a node that the tree does not know was made, the tree is open at its end. -/
theorem Sound.isOpen {t : Tree} (ht : t.Sound) {arena : Arena}
    (hagree : AgreeFrom 0 t.arena arena) : IsOpen arena 0 t.levels t.leafCount := by
  cases ht with
  | empty arena maxLeaves => rfl
  | grown tower top filled => exact ⟨tower.mono hagree, Or.inl rfl⟩

theorem lt_leafCount {t : Tree} {i : Nat} {id : NodeId} (hi : t.leaves[i]? = some id) :
    i < t.leafCount :=
  (Array.getElem?_eq_some_iff.1 hi).1

theorem newLeaf_singleton (arena : Arena) (data : String) :
    arena.newLeaf [data] = .ok (arena.insert (.ofBlocks [data])) := by
  simp [Arena.newLeaf, leafCapacity]

/-- How a leaf is opened: the arena hands out a name for its node, which is then raised at the
place after the last leaf. -/
structure Opening (t : Tree) (data : String) (arena : Arena) (leaf : NodeId) (arena' : Arena)
    (lower : Array NodeId) (above : List (Array NodeId)) (root : NodeId) : Prop where
  insert_eq : t.arena.insert (.ofBlocks [data]) = (arena, leaf)
  index_leaf : leaf.index = t.arena.slots.size
  get?_leaf : arena.get? leaf = some (.ofBlocks [data])
  get?_of_some : ∀ {id : NodeId} {n : Node}, t.arena.get? id = some n → arena.get? id = some n
  isOpen : IsOpen arena 0 t.levels t.leafCount
  unused : ∀ {i : Nat}, t.leaves[i]? ≠ some leaf
  raise_eq : raise arena t.levels t.leafCount leaf = .ok (arena', lower :: above, root)
  raised : Raised arena 0 t.levels t.leafCount leaf arena' lower above root
  openLeaf_eq : t.openLeaf data = .ok ⟨arena', lower :: above, some root, t.maxLeaves⟩

theorem Sound.exists_opening {t : Tree} (ht : t.Sound) (data : String) :
    ∃ arena leaf arena' lower above root,
      Opening t data arena leaf arena' lower above root := by
  have hleaf := Arena.get?_insert_self t.arena (.ofBlocks [data])
  have hindex := Arena.insert_snd_index t.arena (.ofBlocks [data])
  have hold := fun {id : NodeId} {n : Node} (hn : t.arena.get? id = some n) =>
    Arena.get?_insert_of_some (.ofBlocks [data]) hn
  have hnew := newLeaf_singleton t.arena data
  cases hinsert : t.arena.insert (.ofBlocks [data]) with
  | mk arena leaf =>
      rw [hinsert] at hleaf hindex hold hnew
      have hunused : ∀ {i : Nat}, t.leaves[i]? ≠ some leaf := by
        intro i hi
        obtain ⟨n, hn, -⟩ := ht.exists_leaf hi
        exact Nat.ne_of_lt (Arena.lt_size_of_get? hn) hindex
      have hopen := ht.isOpen fun hn _ => hold hn
      obtain ⟨arena', lower, above, root, hraise, hraised⟩ := raise_eq_ok hopen hleaf rfl hunused
      refine ⟨arena, leaf, arena', lower, above, root, hinsert, hindex, hleaf, hold, hopen, hunused,
        hraise, hraised, ?_⟩
      obtain ⟨_, levels, _, maxLeaves⟩ := t
      simp only [leafCount, leaves] at hraise
      simp only [openLeaf, hnew, hraise, bind, Except.bind]
      rfl

theorem openLeaf_eq_ok {t : Tree} (ht : t.Sound) (data : String)
    (hfull : ∀ n ∈ t.cells, n.blocks.length = leafCapacity) :
    ∃ t', t.openLeaf data = .ok t' ∧ t'.Sound ∧
      t'.cells = t.cells ++ [Node.ofBlocks [data]] ∧ t'.maxLeaves = t.maxLeaves := by
  obtain ⟨arena₁, leaf, arena', lower', above', root', o⟩ := ht.exists_opening data
  have hraised := o.raised
  have hkept : ∀ {j : Nat} {id : NodeId}, t.leaves[j]? = some id →
      arena'.get? id = t.arena.get? id := by
    intro j id hid
    obtain ⟨n, hn, -⟩ := ht.exists_leaf hid
    rw [hraised.kept (lt_leafCount hid) hid, o.get?_of_some hn, hn]
  have hlast : arena'.get? leaf = some (.ofBlocks [data]) := by
    rw [hraised.node_eq, o.get?_leaf]
  have hsound : Sound ⟨arena', lower' :: above', some root', t.maxLeaves⟩ := by
    refine .grown hraised.tower hraised.top fun {i id} hi => ?_
    have hle : i ≤ t.leafCount := by
      have hlt := (Array.getElem?_eq_some_iff.1 hi).1
      rw [hraised.size_eq] at hlt
      omega
    rcases Nat.lt_or_eq_of_le hle with hlt | rfl
    · rw [hraised.front hlt] at hi
      obtain ⟨n, hn, blocks, hshape, hpos, hroom, -⟩ := ht.exists_leaf hi
      have hmem : n ∈ t.cells := List.mem_of_getElem? (i := i) (by
        rw [ht.getElem?_cells]
        exact (congrArg (Option.bind · t.arena.get?) hi).trans hn)
      have hlen := hfull n hmem
      rw [Node.blocks, hshape] at hlen
      exact ⟨n, by rw [hkept hi, hn], blocks, hshape, hpos, hroom, fun _ => hlen⟩
    · rw [hraised.last] at hi
      cases hi
      refine ⟨_, hlast, [data], rfl, by simp, by simp [leafCapacity], fun hne => ?_⟩
      exact absurd hraised.size_eq.symm hne
  refine ⟨⟨arena', lower' :: above', some root', t.maxLeaves⟩, o.openLeaf_eq, hsound, ?_, rfl⟩
  apply List.ext_getElem?
  intro i
  rw [hsound.getElem?_cells, List.getElem?_append, ht.length_cells]
  change lower'[i]?.bind arena'.get? = _
  split
  · next hlt =>
      rw [ht.getElem?_cells, hraised.front hlt]
      change t.leaves[i]?.bind arena'.get? = _
      cases hi : t.leaves[i]? with
      | none => rfl
      | some id => rw [Option.bind_some, Option.bind_some, hkept hi]
  · next hge =>
      rcases Nat.eq_or_lt_of_le (Nat.le_of_not_lt hge) with rfl | hgt
      · rw [hraised.last, Option.bind_some, hlast, Nat.sub_self]
        rfl
      · rw [Array.getElem?_eq_none (by rw [hraised.size_eq]; omega),
          List.getElem?_eq_none (by simp only [List.length_singleton]; omega)]
        rfl

/-- A block goes to the end of a leaf that has room. -/
theorem appendToLeaf_eq_ok {arena : Arena} {id : NodeId} {n : Node} {last : Prop}
    (hn : arena.get? id = some n) (hfilled : n.IsFilled last)
    (hroom : n.blocks.length < leafCapacity) (data : String) :
    arena.appendToLeaf id data = .ok (arena.set id (.ofBlocks (n.blocks ++ [data]))) := by
  obtain ⟨blocks, hshape, -, -, -⟩ := hfilled
  have hleaf : n.isLeaf = true := by rw [Node.isLeaf, hshape]
  have hnotFull : n.isFull = false := by
    rw [Node.isFull, hleaf, Bool.true_and]
    exact decide_eq_false (Nat.not_le.2 hroom)
  simp only [Arena.appendToLeaf, hn, hleaf, hnotFull, Bool.not_true, Bool.false_eq_true,
    if_false]

/-- A block for a leaf that has room, which is the last one. -/
theorem extendLeaf_eq_ok {t : Tree} (ht : t.Sound) (data : String) {leaf : NodeId} {n : Node}
    {front : List Node} (hleaf : t.lastLeaf? = some leaf) (hn : t.arena.get? leaf = some n)
    (hcells : t.cells = front ++ [n]) (hroom : n.blocks.length < leafCapacity) :
    ∃ t', t.extendLeaf leaf data = .ok t' ∧ t'.Sound ∧
      t'.cells = front ++ [Node.ofBlocks (n.blocks ++ [data])] ∧
      t'.maxLeaves = t.maxLeaves := by
  have hlength := ht.length_cells
  have hcell := ht.getElem?_cells
  cases ht with
  | empty arena maxLeaves => simp [lastLeaf?, leaves] at hleaf
  | @grown arena lower above root maxLeaves tower top filled =>
      have hlast : lower[lower.size - 1]? = some leaf := by
        rw [← Array.back?_eq_getElem?]
        exact hleaf
      have hpos := tower.size_pos
      replace hlength : front.length + 1 = lower.size := by
        rw [hcells, List.length_append] at hlength
        exact hlength
      replace hcell : ∀ i : Nat, (front ++ [n])[i]? = lower[i]?.bind arena.get? := by
        rw [← hcells]
        exact hcell
      replace hn : arena.get? leaf = some n := hn
      obtain ⟨m, hm, hfilled⟩ := filled hlast
      rw [hn] at hm
      cases hm
      have happend := appendToLeaf_eq_ok hn hfilled hroom data
      have hself := Arena.get?_set_self (.ofBlocks (n.blocks ++ [data])) hn
      have hne := fun {id : NodeId} (hid : id ≠ leaf) =>
        Arena.get?_set_ne arena (.ofBlocks (n.blocks ++ [data])) hid
      generalize arena.set leaf (.ofBlocks (n.blocks ++ [data])) = arena₁
        at happend hself hne
      obtain ⟨arena₂, hedge, htower, hbelow⟩ := refreshEdge_eq_ok tower hlast hne hself rfl
      have hself₂ : arena₂.get? leaf = some (.ofBlocks (n.blocks ++ [data])) :=
        hbelow hself (by simp [Node.ofBlocks, Node.level])
      have hother : ∀ {i : Nat} {id : NodeId}, i + 1 < lower.size → lower[i]? = some id →
          arena₂.get? id = arena.get? id := by
        intro i id hi hid
        obtain ⟨m, hm, hheight⟩ := tower.isLevel.height hid
        rw [hm]
        refine hbelow ?_ (by omega)
        rw [hne, hm]
        rintro rfl
        have hindex := tower.isLevel.injective hid hlast
        omega
      have hsound : Sound ⟨arena₂, lower :: above, some root, maxLeaves⟩ := by
        refine .grown htower top fun {i id} hid => ?_
        have hlt := (Array.getElem?_eq_some_iff.1 hid).1
        by_cases hi : i + 1 = lower.size
        · obtain rfl : i = lower.size - 1 := by omega
          rw [hlast] at hid
          cases hid
          refine ⟨_, hself₂, n.blocks ++ [data], rfl, by simp, ?_, fun h => absurd hi h⟩
          rw [List.length_append, List.length_singleton]
          omega
        · obtain ⟨m, hm, hmfilled⟩ := filled hid
          exact ⟨m, by rw [hother (by omega) hid, hm], hmfilled⟩
      refine ⟨⟨arena₂, lower :: above, some root, maxLeaves⟩, ?_, hsound, ?_, rfl⟩
      · simp only [extendLeaf, happend, bind, Except.bind, List.tail_cons, hedge]
        rfl
      · apply List.ext_getElem?
        intro i
        rw [hsound.getElem?_cells]
        change lower[i]?.bind arena₂.get? = _
        rcases Nat.lt_trichotomy i front.length with hlt | rfl | hgt
        · rw [List.getElem?_append_left hlt]
          have hold := hcell i
          rw [List.getElem?_append_left hlt] at hold
          rw [hold]
          cases hid : lower[i]? with
          | none => rfl
          | some id => rw [Option.bind_some, Option.bind_some, hother (by omega) hid]
        · rw [show front.length = lower.size - 1 by omega, hlast, Option.bind_some, hself₂,
            show lower.size - 1 = front.length by omega, List.getElem?_concat_length]
        · rw [Array.getElem?_eq_none (by omega), List.getElem?_eq_none (by simp; omega)]
          rfl

theorem Sound.exists_lastLeaf {t : Tree} (ht : t.Sound) (hne : t.cells ≠ []) :
    ∃ leaf n front, t.lastLeaf? = some leaf ∧ t.arena.get? leaf = some n ∧
      n.IsFilled True ∧ t.cells = front ++ [n] := by
  have hpos : 0 < t.leafCount := by
    rw [← ht.length_cells]
    exact List.length_pos_iff.2 hne
  obtain ⟨leaf, hleaf⟩ : ∃ leaf, t.leaves[t.leafCount - 1]? = some leaf :=
    ⟨_, Array.getElem?_eq_getElem (Nat.sub_lt hpos Nat.one_pos)⟩
  obtain ⟨n, hn, blocks, hshape, hblocks⟩ := ht.exists_leaf hleaf
  refine ⟨leaf, n, t.cells.dropLast, ?_, hn,
    ⟨blocks, hshape, hblocks.1, hblocks.2.1, fun h => absurd trivial h⟩, ?_⟩
  · rw [lastLeaf?, Array.back?_eq_getElem?]
    exact hleaf
  · have hget : t.cells.getLast? = some n := by
      rw [List.getLast?_eq_getElem?, ht.getElem?_cells, ht.length_cells, hleaf,
        Option.bind_some, hn]
    rw [List.getLast?_eq_some_iff] at hget
    obtain ⟨front, hfront⟩ := hget
    rw [hfront, List.dropLast_concat]

/-- All leaves but the last are full. -/
theorem Sound.length_blocks_of_lt {t : Tree} (ht : t.Sound) {i : Nat} {n : Node}
    (hn : t.cells[i]? = some n) (hi : i + 1 < t.leafCount) : n.blocks.length = leafCapacity := by
  rw [ht.getElem?_cells, Option.bind_eq_some_iff] at hn
  obtain ⟨id, hid, hn⟩ := hn
  obtain ⟨m, hm, blocks, hshape, -, -, hfull⟩ := ht.exists_leaf hid
  rw [hn] at hm
  cases hm
  rw [Node.blocks, hshape]
  exact hfull (by omega)

theorem isFull_iff_of_isFilled {n : Node} {last : Prop} (h : n.IsFilled last) :
    n.isFull = true ↔ n.blocks.length = leafCapacity := by
  obtain ⟨blocks, hshape, -, hroom, -⟩ := h
  simp only [Node.isFull, Node.isLeaf, Node.blocks, hshape, Bool.true_and, decide_eq_true_eq]
  omega

/-- Appending does not fail. The block goes to the end of the last leaf if that has room, and
otherwise into a new leaf. -/
theorem append_eq_ok {t : Tree} (ht : t.Sound) (data : String) :
    ∃ t', t.append data = .ok t' ∧ t'.Sound ∧ t'.maxLeaves = t.maxLeaves ∧
      ((∀ n ∈ t.cells, n.blocks.length = leafCapacity) ∧
          t'.cells = t.cells ++ [Node.ofBlocks [data]] ∨
        ∃ front n, t.cells = front ++ [n] ∧ n.blocks.length < leafCapacity ∧
          t'.cells = front ++ [Node.ofBlocks (n.blocks ++ [data])]) := by
  by_cases hnil : t.cells = []
  · have hnone : t.lastLeaf? = none := by
      have hsize : t.leaves.size = 0 := by
        change t.leafCount = 0
        rw [← ht.length_cells, hnil, List.length_nil]
      rw [lastLeaf?, Array.back?_eq_getElem?]
      exact Array.getElem?_eq_none (by omega)
    have hfull : ∀ n ∈ t.cells, n.blocks.length = leafCapacity := by
      rw [hnil]
      simp
    obtain ⟨t', hopen, hsound, hcells, hmax⟩ := openLeaf_eq_ok ht data hfull
    exact ⟨t', by rw [append, hnone, hopen], hsound, hmax, Or.inl ⟨hfull, hcells⟩⟩
  · obtain ⟨leaf, n, front, hleaf, hn, hfilled, hcells⟩ := ht.exists_lastLeaf hnil
    by_cases hlast : n.blocks.length = leafCapacity
    · have hfull : ∀ m ∈ t.cells, m.blocks.length = leafCapacity := by
        intro m hm
        obtain ⟨i, hi⟩ := List.getElem?_of_mem hm
        have hlt := (List.getElem?_eq_some_iff.1 hi).1
        rw [ht.length_cells] at hlt
        by_cases hend : i + 1 < t.leafCount
        · exact ht.length_blocks_of_lt hi hend
        · have hplace : i = front.length := by
            rw [← ht.length_cells, hcells, List.length_append, List.length_singleton] at hlt hend
            omega
          rw [hcells, hplace, List.getElem?_concat_length, Option.some.injEq] at hi
          rw [← hi, hlast]
      obtain ⟨t', hopen, hsound, hnew, hmax⟩ := openLeaf_eq_ok ht data hfull
      refine ⟨t', ?_, hsound, hmax, Or.inl ⟨hfull, hnew⟩⟩
      have hnodeFull : t.isNodeFull leaf = true := by
        rw [isNodeFull, hn, Option.any_some, isFull_iff_of_isFilled hfilled]
        exact hlast
      rw [append, hleaf]
      simp only [hnodeFull, if_true, hopen]
    · have hroom : n.blocks.length < leafCapacity := by
        obtain ⟨blocks, hshape, -, hle, -⟩ := hfilled
        rw [Node.blocks, hshape] at hlast ⊢
        exact Nat.lt_of_le_of_ne hle hlast
      obtain ⟨t', hextend, hsound, hnew, hmax⟩ := extendLeaf_eq_ok ht data hleaf hn hcells hroom
      refine ⟨t', ?_, hsound, hmax, Or.inr ⟨front, n, hcells, hroom, hnew⟩⟩
      have hnodeFull : t.isNodeFull leaf = false := by
        rw [isNodeFull, hn, Option.any_some, Bool.eq_false_iff, Ne,
          isFull_iff_of_isFilled hfilled]
        exact hlast
      rw [append, hleaf]
      simp only [hnodeFull, Bool.false_eq_true, if_false, hextend]

/-- A sound tree is full if it has all the leaves it may have and the last one has no room. -/
theorem Sound.isFull_iff {t : Tree} (ht : t.Sound) (hmax : 0 < t.maxLeaves) :
    t.isFull = true ↔ t.maxLeaves ≤ t.leafCount ∧
      ∀ n ∈ t.cells.getLast?, n.blocks.length = leafCapacity := by
  rw [isFull, Bool.and_eq_true, decide_eq_true_eq]
  apply and_congr_right
  intro hle
  have hne : t.cells ≠ [] := by
    rw [← List.length_pos_iff, ht.length_cells]
    omega
  obtain ⟨leaf, n, front, hleaf, hn, hfilled, hcells⟩ := ht.exists_lastLeaf hne
  rw [isLeafFull, hleaf, hcells, List.getLast?_concat]
  simp only [isNodeFull, hn, Option.any_some, isFull_iff_of_isFilled hfilled,
    Option.mem_some_iff, forall_eq']

/-- The top of a sound tree is its root. -/
theorem Sound.checkStructure_eq_ok {t : Tree} (ht : t.Sound) : t.checkStructure = .ok () := by
  have htop : t.topIsRoot = true := by
    cases ht with
    | empty arena maxLeaves => rfl
    | grown tower top filled =>
        rw [topIsRoot, top]
        exact beq_self_eq_true _
  rw [checkStructure, if_pos htop]

end Tree

end SealedLog
