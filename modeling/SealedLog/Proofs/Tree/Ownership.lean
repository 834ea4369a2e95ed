import SealedLog.Proofs.Tree.Slots

/-!
# Which nodes the arena holds

A tree owns the nodes that stand in its levels, each at one place, and the arena holds no other:
a provisional parent that is replaced is erased in the same step. `Raising` is what `raise` does
level by level, with the nodes that it takes out and puts in, and `Owned` is kept by it and by
all that only writes nodes anew.

Main statement: `ofBlocks_arranged`, the form that the levels of a grown tree have and what the
arena holds of them.
-/

namespace SealedLog

namespace Arena

variable {arena arena' : Arena} {id other : NodeId} {node : Node} {data : String}

theorem isSome_get?_insert (arena : Arena) (node : Node) (other : NodeId) :
    ((arena.insert node).1.get? other).isSome ↔
      (arena.get? other).isSome ∨ other = (arena.insert node).2 := by
  by_cases hnew : other = (arena.insert node).2
  · rw [hnew, get?_insert_self]
    simp
  · have hsame : (arena.insert node).1.get? other = arena.get? other := by
      rcases Nat.lt_trichotomy other.index arena.slots.size with hlt | heq | hgt
      · exact get?_insert_of_lt hlt
      · refine absurd ?_ hnew
        cases other
        cases heq
        rfl
      · rw [get?_of_size_le (Nat.le_of_lt hgt), get?_of_size_le]
        rw [insert, Array.size_push]
        exact hgt
    rw [hsame, or_iff_left hnew]

theorem isSome_get?_set (hid : arena.get? id = some node) (new : Node) (other : NodeId) :
    ((arena.set id new).get? other).isSome ↔ (arena.get? other).isSome := by
  by_cases hother : other = id
  · rw [hother, get?_set_self new hid, hid]
    rfl
  · rw [get?_set_ne arena new hother]

theorem isSome_get?_erase (arena : Arena) (id other : NodeId) :
    ((arena.erase id).get? other).isSome ↔ (arena.get? other).isSome ∧ other ≠ id := by
  by_cases hother : other = id
  · subst hother
    have hnone : (arena.erase other).get? other = none := by
      rw [erase, get?, Array.getElem?_setIfInBounds_self]
      split
      · rfl
      · rfl
    simp [hnone]
  · rw [get?_erase_ne arena hother, and_iff_left hother]

theorem exists_set_of_appendToLeaf (h : arena.appendToLeaf id data = .ok arena') :
    ∃ old new, arena.get? id = some old ∧ arena' = arena.set id new := by
  rw [appendToLeaf] at h
  cases hid : arena.get? id with
  | none => simp [hid] at h
  | some node =>
      simp only [hid] at h
      split at h
      · cases h
      · split at h
        · cases h
        · exact ⟨node, _, rfl, (Except.ok.inj h).symm⟩

theorem eq_or_exists_set_of_refresh (h : arena.refresh id = .ok arena') :
    arena' = arena ∨ ∃ old new, arena.get? id = some old ∧ arena' = arena.set id new := by
  rw [refresh] at h
  cases hid : arena.get? id with
  | none => simp [hid] at h
  | some node =>
      simp only [hid] at h
      cases hshape : node.shape with
      | leaf blocks =>
          simp only [hshape] at h
          exact Or.inl (Except.ok.inj h).symm
      | branch left right? level =>
          simp only [hshape] at h
          cases hcombine : arena.combine left right? with
          | error e => simp [hcombine, bind, Except.bind] at h
          | ok combined =>
              simp only [hcombine, bind, Except.bind] at h
              exact Or.inr ⟨node, _, rfl, (Except.ok.inj h).symm⟩

theorem isSome_get?_appendToLeaf (h : arena.appendToLeaf id data = .ok arena') (other : NodeId) :
    (arena'.get? other).isSome ↔ (arena.get? other).isSome := by
  obtain ⟨old, new, hid, rfl⟩ := exists_set_of_appendToLeaf h
  exact isSome_get?_set hid new other

theorem isSome_get?_refresh (h : arena.refresh id = .ok arena') (other : NodeId) :
    (arena'.get? other).isSome ↔ (arena.get? other).isSome := by
  rcases eq_or_exists_set_of_refresh h with rfl | ⟨old, new, hid, rfl⟩
  · rfl
  · exact isSome_get?_set hid new other

end Arena

namespace Tree

/-- The name stands in one of the levels. -/
def Stands (levels : List (Array NodeId)) (id : NodeId) : Prop :=
  ∃ level ∈ levels, id ∈ level

theorem stands_cons {level : Array NodeId} {above : List (Array NodeId)} {id : NodeId} :
    Stands (level :: above) id ↔ id ∈ level ∨ Stands above id := by
  simp [Stands]

theorem stands_levels_iff {t : Tree} {id : NodeId} :
    Stands t.levels id ↔ ∃ h i, t.slot? h i = some id := by
  constructor
  · rintro ⟨level, hlevel, hid⟩
    obtain ⟨h, hh⟩ := List.getElem?_of_mem hlevel
    obtain ⟨i, hi⟩ := Array.mem_iff_getElem?.1 hid
    exact ⟨h, i, slot?_eq_some_iff.2 ⟨level, hh, hi⟩⟩
  · rintro ⟨h, i, hid⟩
    obtain ⟨level, hlevel, hi⟩ := slot?_eq_some_iff.1 hid
    exact ⟨level, List.mem_of_getElem? hlevel, Array.mem_iff_getElem?.2 ⟨i, hi⟩⟩

/-- The names in a tower are of nodes at its height or above. -/
theorem Tower.le_level_of_stands {arena : Arena} {h : Nat} {lower : Array NodeId}
    {above : List (Array NodeId)} (ht : Tower arena h lower above) {id : NodeId}
    (hid : Stands (lower :: above) id) : ∃ n, arena.get? id = some n ∧ h ≤ n.level := by
  obtain ⟨level, hlevel, hid⟩ := hid
  obtain ⟨j, hj⟩ := List.getElem?_of_mem hlevel
  obtain ⟨i, hi⟩ := Array.mem_iff_getElem?.1 hid
  obtain ⟨n, hn, hheight⟩ := (ht.isLevel_getElem? hj).height hi
  exact ⟨n, hn, by rw [hheight]; exact Nat.le_add_right h j⟩

/-- No name stands in the lowest level and above it. -/
theorem Tower.getElem?_ne_of_stands {arena : Arena} {h : Nat} {lower : Array NodeId}
    {above : List (Array NodeId)} (ht : Tower arena h lower above) {id : NodeId}
    (hid : Stands above id) {i : Nat} : lower[i]? ≠ some id := by
  cases above with
  | nil => simp [Stands] at hid
  | cons upper above =>
      obtain ⟨n, hn, hle⟩ := ht.2.2.2.le_level_of_stands hid
      exact ht.isLevel.getElem?_ne hn (Nat.ne_of_gt hle)

/-- What `vacate` takes out of the arena is the node at the place, if there is one. -/
theorem isSome_get?_vacate {arena arena₁ : Arena} {lower level : Array NodeId} {place : Nat}
    (hplace : place = lower.size ∨ place + 1 = lower.size)
    (hvacate : vacate arena place lower = (arena₁, level)) (id : NodeId) :
    (arena₁.get? id).isSome ↔ (arena.get? id).isSome ∧ lower[place]? ≠ some id := by
  rcases hplace with rfl | hplace
  · rw [vacate, if_neg (Nat.lt_irrefl _), Prod.mk.injEq] at hvacate
    rw [← hvacate.1, Array.getElem?_eq_none (Nat.le_refl _)]
    simp
  · have hlast : lower[place]? = some lower[place] := Array.getElem?_eq_getElem (by omega)
    have hback : lower.back? = some lower[place] := by
      rw [Array.back?_eq_getElem?, show lower.size - 1 = place by omega, hlast]
    rw [vacate, if_pos (by omega), hback, Prod.mk.injEq] at hvacate
    rw [← hvacate.1, Arena.isSome_get?_erase, hlast, Ne, Ne, Option.some.injEq,
      eq_comm (a := id)]

theorem Vacated.mem_iff {arena arena' : Arena} {h place : Nat} {lower level : Array NodeId}
    (v : Vacated arena lower place arena' level) (hl : IsLevel arena h lower)
    (hplace : place = lower.size ∨ place + 1 = lower.size) {id : NodeId} :
    id ∈ level ↔ id ∈ lower ∧ lower[place]? ≠ some id := by
  simp only [Array.mem_iff_getElem?]
  constructor
  · rintro ⟨j, hj⟩
    obtain ⟨hlt, hid⟩ := v.getElem?_eq hj
    exact ⟨⟨j, hid⟩, fun hstale => Nat.ne_of_lt hlt (hl.injective hid hstale)⟩
  · rintro ⟨⟨j, hj⟩, hne⟩
    have hsize := (Array.getElem?_eq_some_iff.1 hj).1
    have hother : j ≠ place := by
      rintro rfl
      exact hne hj
    exact ⟨j, by rw [v.front (by omega), hj]⟩

/-- The arena holds the names `others` and those that stand in `levels`, and nothing else. No
name is of both kinds. -/
structure Owns (arena : Arena) (others : NodeId → Prop) (levels : List (Array NodeId)) :
    Prop where
  held : ∀ id, (arena.get? id).isSome ↔ others id ∨ Stands levels id
  disjoint : ∀ {id}, others id → ¬ Stands levels id

namespace Owns

variable {arena arena₁ arena₂ : Arena} {others : NodeId → Prop} {h place : Nat}
  {lower level : Array NodeId} {above : List (Array NodeId)} {node left parent : NodeId}

theorem getElem?_ne (o : Owns arena others (lower :: above)) {id : NodeId} (hid : others id)
    {i : Nat} : lower[i]? ≠ some id := by
  intro hi
  exact o.disjoint hid (stands_cons.2 (Or.inl (Array.mem_of_getElem? hi)))

/-- Where the end of the level has been freed, the arena holds what is left of it. -/
theorem vacated (o : Owns arena others (lower :: above)) (ht : Tower arena h lower above)
    (hplace : place = lower.size ∨ place + 1 = lower.size)
    (v : Vacated arena lower place arena₁ level)
    (hvacate : vacate arena place lower = (arena₁, level)) (id : NodeId) :
    (arena₁.get? id).isSome ↔ (others id ∨ id ∈ level) ∨ Stands above id := by
  rw [isSome_get?_vacate hplace hvacate, o.held, stands_cons, v.mem_iff ht.isLevel hplace]
  have hothers : others id → lower[place]? ≠ some id := fun hid => o.getElem?_ne hid
  have habove : Stands above id → lower[place]? ≠ some id := fun hid =>
    ht.getElem?_ne_of_stands hid
  rw [or_and_right, or_and_right, and_iff_left_of_imp hothers, and_iff_left_of_imp habove,
    or_assoc]

/-- One level of `raise` puts the level and the node among the names that the levels above do
not have, and makes one name more, that of the parent. -/
theorem rung (o : Owns arena others (lower :: above)) (ht : Tower arena h lower above)
    (hplace : place = lower.size ∨ place + 1 = lower.size) (hnode : others node)
    (r : Rung arena h lower place node arena₁ level left arena₂ parent)
    (hvacate : vacate arena place lower = (arena₁, level)) :
    Owns arena₂ (fun id => (others id ∨ id ∈ level.push node) ∨ id = parent) above where
  held id := by
    obtain ⟨l, -, hinsert⟩ := r.insert_eq
    have hheld := Arena.isSome_get?_insert arena₁
      (branchOver arena₁ h l left (level.push node)[2 * (place / 2) + 1]?) id
    rw [hinsert, o.vacated ht hplace r.vacated hvacate] at hheld
    have hsame : id = node → others id := by
      rintro rfl
      exact hnode
    rw [hheld, Array.mem_push, or_comm (a := id ∈ level), ← or_assoc, or_iff_left_of_imp hsame,
      or_right_comm]
  disjoint := by
    rintro id ((hid | hid) | rfl) hstands
    · exact o.disjoint hid (stands_cons.2 (Or.inr hstands))
    · rcases Array.mem_push.1 hid with hid | rfl
      · obtain ⟨i, hi⟩ := Array.mem_iff_getElem?.1 hid
        exact ht.getElem?_ne_of_stands hstands (r.vacated.getElem?_eq hi).2
      · exact o.disjoint hnode (stands_cons.2 (Or.inr hstands))
    · cases above with
      | nil => simp [Stands] at hstands
      | cons upper above =>
          obtain ⟨n, hn, -⟩ := ht.2.2.2.le_level_of_stands hstands
          have hlt := Arena.lt_size_of_get? hn
          exact Nat.ne_of_lt hlt r.index_parent

end Owns

/-- After `raise` the arena holds what stands in the new levels, besides the names that had
nothing to do with the old ones: every provisional parent is gone. -/
theorem Owns.raise {levels levels' : List (Array NodeId)} {arena arena' : Arena}
    {others : NodeId → Prop} {h place : Nat} {node root : NodeId} {n : Node}
    (o : Owns arena others levels) (hopen : IsOpen arena h levels place) (hnode : others node)
    (hn : arena.get? node = some n) (hlevel : n.level = h)
    (hraise : raise arena levels place node = .ok (arena', levels', root)) (id : NodeId) :
    (arena'.get? id).isSome ↔ others id ∨ Stands levels' id := by
  induction levels generalizing arena arena' levels' others h place node n with
  | nil =>
      rw [Tree.raise, Except.ok.injEq, Prod.mk.injEq, Prod.mk.injEq] at hraise
      obtain ⟨rfl, rfl, -⟩ := hraise
      have hsame : id = node → others id := by
        rintro rfl
        exact hnode
      rw [o.held, stands_cons, Array.mem_singleton, ← or_assoc, or_iff_left_of_imp hsame]
  | cons lower above ih =>
      obtain ⟨ht, hplace⟩ := hopen
      obtain ⟨arena₁, level, hvacate, v,
          ⟨rfl, rfl, rfl, hcons⟩ | ⟨left, arena₂, parent, r, hcons⟩⟩ :=
        raise_cons_cases ht hplace hn hlevel (o.getElem?_ne hnode)
      · rw [hraise, Except.ok.injEq, Prod.mk.injEq, Prod.mk.injEq] at hcons
        obtain ⟨rfl, rfl, -⟩ := hcons
        have hsame : id = node → others id := by
          rintro rfl
          exact hnode
        rw [o.vacated ht hplace v hvacate, stands_cons, Array.mem_singleton, ← or_assoc,
          or_iff_left_of_imp hsame, or_iff_left (Array.not_mem_empty id)]
      · obtain ⟨hopen, hunused⟩ := r.isOpen ht hplace
        obtain ⟨m, hparent, hheight⟩ := r.covers_parent.1
        obtain ⟨arena₃, upper, above', top, hrest, hraised⟩ :=
          raise_eq_ok hopen hparent hheight hunused
        rw [hraise, hrest, Except.map, Except.ok.injEq, Prod.mk.injEq, Prod.mk.injEq] at hcons
        obtain ⟨rfl, rfl, rfl⟩ := hcons
        have hfinal := ih (o.rung ht hplace hnode r hvacate) hopen (Or.inr rfl) hparent hheight
          hrest
        have hsame : id = parent → Stands (upper :: above') id := by
          rintro rfl
          exact stands_cons.2 (Or.inl (Array.mem_of_getElem? hraised.last))
        rw [hfinal, or_assoc, or_assoc, or_iff_right_of_imp hsame, ← stands_cons]

/-- What holds after each last node of a level that is hashed anew holds when all are. -/
theorem refreshEdge_preserves {P : Arena → Prop} {above : List (Array NodeId)}
    {arena arena' : Arena} (h : refreshEdge arena above = .ok arena') (hstart : P arena)
    (hstep : ∀ {level : Array NodeId} {last : NodeId} {a a' : Arena}, level ∈ above →
      level.back? = some last → a.refresh last = .ok a' → P a → P a') : P arena' := by
  induction above generalizing arena with
  | nil =>
      cases h
      exact hstart
  | cons level above ih =>
      cases hback : level.back? with
      | none =>
          simp only [refreshEdge, hback] at h
          exact ih h hstart fun hupper => hstep (List.mem_cons_of_mem level hupper)
      | some last =>
          cases hrefresh : arena.refresh last with
          | error e => simp [refreshEdge, hback, hrefresh, bind, Except.bind] at h
          | ok arena₁ =>
              simp only [refreshEdge, hback, hrefresh, bind, Except.bind] at h
              exact ih h (hstep List.mem_cons_self hback hrefresh hstart) fun hupper =>
                hstep (List.mem_cons_of_mem level hupper)

theorem isSome_get?_refreshEdge {above : List (Array NodeId)} {arena arena' : Arena}
    (h : refreshEdge arena above = .ok arena') (id : NodeId) :
    (arena'.get? id).isSome ↔ (arena.get? id).isSome :=
  refreshEdge_preserves h Iff.rfl fun _ _ hrefresh hsame =>
    (Arena.isSome_get?_refresh hrefresh id).trans hsame

theorem exists_of_extendLeaf {t t' : Tree} {leaf : NodeId} {data : String}
    (h : t.extendLeaf leaf data = .ok t') :
    ∃ arena₁ arena₂, t.arena.appendToLeaf leaf data = .ok arena₁ ∧
      refreshEdge arena₁ t.levels.tail = .ok arena₂ ∧ t' = { t with arena := arena₂ } := by
  obtain ⟨arena, levels, root?, maxLeaves⟩ := t
  cases happend : arena.appendToLeaf leaf data with
  | error e => simp [Tree.extendLeaf, happend, bind, Except.bind] at h
  | ok arena₁ =>
      cases hedge : refreshEdge arena₁ levels.tail with
      | error e => simp [Tree.extendLeaf, happend, hedge, bind, Except.bind] at h
      | ok arena₂ =>
          simp only [Tree.extendLeaf, happend, hedge, bind, Except.bind, pure, Except.pure,
            Except.ok.injEq] at h
          exact ⟨arena₁, arena₂, rfl, hedge, h.symm⟩

/-- The arena of the tree holds the nodes that stand in its levels, and nothing else. -/
def Owned (t : Tree) : Prop :=
  ∀ id, (t.arena.get? id).isSome ↔ Stands t.levels id

theorem owned_withCapacity (maxLeaves : Nat) : (withCapacity maxLeaves).Owned := by
  intro id
  simp [withCapacity, Arena.empty, Arena.get?, Stands]

theorem Owned.openLeaf {t t' : Tree} {data : String} (ho : t.Owned) (ht : t.Sound)
    (hopen : t.openLeaf data = .ok t') : t'.Owned := by
  obtain ⟨arena₁, leaf, arena', lower', above', root', o⟩ := ht.exists_opening data
  have hheld := Arena.isSome_get?_insert t.arena (.ofBlocks [data])
  rw [o.insert_eq] at hheld
  have owns : Owns arena₁ (· = leaf) t.levels := {
    held := fun id => by rw [hheld, ho id, or_comm]
    disjoint := by
      rintro id rfl hid
      obtain ⟨n, hn⟩ := Option.isSome_iff_exists.1 ((ho id).2 hid)
      exact Nat.ne_of_lt (Arena.lt_size_of_get? hn) o.index_leaf }
  have hkept := owns.raise o.isOpen rfl o.get?_leaf rfl o.raise_eq
  rw [o.openLeaf_eq, Except.ok.injEq] at hopen
  subst hopen
  intro id
  have hsame : id = leaf → Stands (lower' :: above') id := by
    rintro rfl
    exact stands_cons.2 (Or.inl (Array.mem_of_getElem? o.raised.last))
  change (arena'.get? id).isSome ↔ Stands (lower' :: above') id
  rw [hkept id, or_iff_right_of_imp hsame]

theorem Owned.extendLeaf {t t' : Tree} {leaf : NodeId} {data : String} (ho : t.Owned)
    (hextend : t.extendLeaf leaf data = .ok t') : t'.Owned := by
  obtain ⟨arena₁, arena₂, happend, hedge, rfl⟩ := exists_of_extendLeaf hextend
  intro id
  rw [isSome_get?_refreshEdge hedge, Arena.isSome_get?_appendToLeaf happend]
  exact ho id

theorem Owned.append {t t' : Tree} {data : String} (ho : t.Owned) (ht : t.Sound)
    (happend : t.append data = .ok t') : t'.Owned := by
  rw [Tree.append] at happend
  split at happend
  · split at happend
    · exact ho.openLeaf ht happend
    · exact ho.extendLeaf happend
  · exact ho.openLeaf ht happend

/-- How the levels, the nodes and the arena of a tree fit together. -/
structure Arranged (t : Tree) : Prop where
  length_levels : t.levels.length = if t.leafCount = 0 then 0 else Nat.clog 2 t.leafCount + 1
  size_level : ∀ {h : Nat} {level : Array NodeId}, t.levels[h]? = some level →
    level.size = t.leafCount ⌈/⌉ 2 ^ h
  leaf : ∀ {i : Nat} {id : NodeId}, t.slot? 0 i = some id →
    ∃ n, t.arena.get? id = some n ∧ n.IsFilled (i + 1 = t.leafCount)
  branch : ∀ {h i : Nat} {id : NodeId}, t.slot? (h + 1) i = some id →
    ∃ n left, t.arena.get? id = some n ∧ t.slot? h (2 * i) = some left ∧
      n.shape = .branch left (t.slot? h (2 * i + 1)) (h + 1)
  distinct : ∀ {h i h' i' : Nat} {id : NodeId}, t.slot? h i = some id →
    t.slot? h' i' = some id → h = h' ∧ i = i'
  parent_unique : ∀ {parent parent' child : NodeId} {n n' : Node},
    t.arena.get? parent = some n → child ∈ n.children →
    t.arena.get? parent' = some n' → child ∈ n'.children → parent = parent'
  held : ∀ id, (t.arena.get? id).isSome ↔ ∃ h i, t.slot? h i = some id
  top : t.levels.getLast? = t.root?.map (#[·])
  checks : t.checkStructure = .ok ()

/-- A node is the child of the one over its place only. -/
theorem Sound.parent_unique {t : Tree} (ht : t.Sound) (ho : t.Owned)
    {parent parent' child : NodeId} {n n' : Node} (hn : t.arena.get? parent = some n)
    (hchild : child ∈ n.children) (hn' : t.arena.get? parent' = some n')
    (hchild' : child ∈ n'.children) : parent = parent' := by
  have hplace : ∀ {id : NodeId} {m : Node}, t.arena.get? id = some m →
      ∃ h i, t.slot? h i = some id := by
    intro id m hm
    exact stands_levels_iff.1 ((ho id).1 (by rw [hm, Option.isSome_some]))
  obtain ⟨h, i, hid⟩ := hplace hn
  obtain ⟨h', i', hid'⟩ := hplace hn'
  obtain ⟨l, j, rfl, rfl, hslot⟩ := (ht.mem_children_iff hid hn).1 hchild
  obtain ⟨l', j', rfl, rfl, hslot'⟩ := (ht.mem_children_iff hid' hn').1 hchild'
  obtain ⟨rfl, rfl⟩ := ht.slot?_injective hslot hslot'
  rw [hid, Option.some.injEq] at hid'
  exact hid'

theorem Sound.arranged {t : Tree} (ht : t.Sound) (ho : t.Owned) : t.Arranged where
  length_levels := ht.length_levels
  size_level := ht.size_level
  leaf hid := ht.exists_leaf (by rwa [slot?_zero] at hid)
  branch hid := by
    obtain ⟨left, hleft, l, -, hbranch⟩ := ht.covers_slot? hid
    exact ⟨_, left, hbranch, hleft, rfl⟩
  distinct := ht.slot?_injective
  parent_unique := ht.parent_unique ho
  held id := by rw [ho id, stands_levels_iff]
  top := ht.getLast?_levels
  checks := ht.checkStructure_eq_ok

/-- Appending blocks to a tree that owns its nodes does not fail, and leaves such a tree. -/
theorem Sound.exists_appendAll {t : Tree} (ht : t.Sound) (ho : t.Owned) (blocks : List String) :
    ∃ t', t.appendAll blocks = .ok t' ∧ t'.Sound ∧ t'.Owned := by
  induction blocks generalizing t with
  | nil => exact ⟨t, rfl, ht, ho⟩
  | cons data blocks ih =>
      obtain ⟨t₁, happend, hsound, -, -⟩ := append_eq_ok ht data
      obtain ⟨t', hrest, hall⟩ := ih hsound (ho.append ht happend)
      exact ⟨t', by rw [appendAll, List.foldlM_cons, happend]; exact hrest, hall⟩

/-- However many blocks are appended to an empty tree, its levels are the ones that its number
of leaves asks for, every branch is over the pair below its place, and the arena holds the
nodes that stand in the levels and no other. -/
theorem ofBlocks_arranged (blocks : List String) (maxLeaves : Nat) :
    ∃ t, ofBlocks blocks maxLeaves = .ok t ∧ t.Arranged := by
  obtain ⟨t, hall, hsound, howned⟩ :=
    (sound_withCapacity maxLeaves).exists_appendAll (owned_withCapacity maxLeaves) blocks
  exact ⟨t, hall, hsound.arranged howned⟩

end Tree

end SealedLog
