import SealedLog.Proofs.Tree.ParentSearch

/-!
# What an inclusion check answers

In a sound tree every branch records the hash over what its children record, so a climb that
starts with the recorded hash of a leaf cannot fail on the way: it ends at the root. What is
left to go wrong is that the leaf does not hash to what it records. So the answer depends on
the first leaf that holds the block, and on that leaf alone.

Main statements: `check_eq_notFound`, `Sound.check_of_holdsFirst`.
-/

namespace SealedLog

/-- What `findSome?` gives for the first element for which there is something. -/
theorem findSome?_eq_of_getElem? {α β : Type} {f : α → Option β} {l : List α} {i : Nat} {a : α}
    {b : β} (ha : l[i]? = some a) (hb : f a = some b)
    (hbefore : ∀ j < i, ∀ c, l[j]? = some c → f c = none) : l.findSome? f = some b := by
  induction l generalizing i with
  | nil => simp at ha
  | cons c l ih =>
      cases i with
      | zero =>
          cases ha
          rw [List.findSome?_cons, hb]
      | succ i =>
          rw [List.findSome?_cons, hbefore 0 (Nat.succ_pos i) c rfl]
          exact ih ha fun j hj d hd => hbefore (j + 1) (Nat.succ_lt_succ hj) d hd

namespace Tree

variable {t : Tree} {h i : Nat} {id root parent : NodeId} {n : Node} {data : String}

/-- The hash of the node over a place follows from the hash at the place. -/
theorem Sound.hashThrough_eq (ht : t.Sound) {p : Node} (hid : t.slot? h i = some id)
    (hn : t.arena.get? id = some n) (hparent : t.slot? (h + 1) (i / 2) = some parent)
    (hp : t.arena.get? parent = some p) : hashThrough t.arena p id n.hash = p.hash := by
  obtain ⟨left, hleft, l, hl, hbranch⟩ := ht.covers_slot? hparent
  rw [hp, Option.some.injEq] at hbranch
  subst hbranch
  rcases Nat.mod_two_eq_zero_or_one i with heven | hodd
  · rw [show 2 * (i / 2) = i by omega, hid, Option.some.injEq] at hleft
    subst hleft
    rw [hn, Option.some.injEq] at hl
    subst hl
    rw [hashThrough, left?_branchOver, if_pos rfl, right?_branchOver, Option.map_bind]
    rfl
  · have hne : left ≠ id := by
      rintro rfl
      have hplaces := (ht.slot?_injective hleft hid).2
      omega
    have hright : t.slot? h (2 * (i / 2) + 1) = some id := by
      rwa [show 2 * (i / 2) + 1 = i by omega]
    rw [hashThrough, left?_branchOver, if_neg fun heq => hne (Option.some.inj heq),
      Option.bind_some, hl, Option.map_some, Option.getD_some, branchOver, hright,
      Option.bind_some, Arena.hash?_of_get? hn]

theorem climb_root (t : Tree) (root : NodeId) (leafIndex steps pathLen : Nat) (hash : Hash) :
    t.climb root leafIndex steps pathLen root hash = .verified leafIndex pathLen := by
  unfold climb
  rw [if_pos rfl]

theorem climb_parent {p : Node} {hash : Hash} (hbelow : id ≠ root)
    (hparent : t.parentOf? id = some parent) (hp : t.arena.get? parent = some p)
    (hhash : hashThrough t.arena p id hash = p.hash) (leafIndex steps pathLen : Nat) :
    t.climb root leafIndex (steps + 1) pathLen id hash =
      t.climb root leafIndex steps (pathLen + 1) parent p.hash := by
  conv_lhs => unfold climb
  rw [if_neg hbelow, hparent]
  simp only [hp, hhash, if_true]

/-- A climb with the recorded hashes ends at the root. -/
theorem Sound.climb_eq (ht : t.Sound) {steps : Nat} (hid : t.slot? h i = some id)
    (hn : t.arena.get? id = some n) (hroot : t.root? = some root)
    (hsteps : t.levels.length ≤ h + 1 + steps) (leafIndex : Nat) :
    t.climb root leafIndex steps h id n.hash = .verified leafIndex (t.levels.length - 1) := by
  have hlt := lt_length_levels hid
  induction steps generalizing h i id n with
  | zero =>
      rw [ht.root?_of_slot? hid (by omega), Option.some.injEq] at hroot
      rw [hroot, climb_root, show h = t.levels.length - 1 by omega]
  | succ steps ih =>
      by_cases htop : h + 1 = t.levels.length
      · rw [ht.root?_of_slot? hid htop, Option.some.injEq] at hroot
        rw [hroot, climb_root, show h = t.levels.length - 1 by omega]
      · obtain ⟨parent, hparent⟩ := ht.exists_parent hid (by omega)
        have hover := ht.parentOf?_eq_some_iff.2 ⟨h, i, hid, hparent⟩
        obtain ⟨p, hp, -⟩ := ht.exists_node hparent
        have hbelow : id ≠ root := by
          rintro rfl
          exact ht.not_standsOver_root hroot ⟨h, i, hid, hparent⟩
        rw [climb_parent hbelow hover hp (ht.hashThrough_eq hid hn hparent hp)]
        exact ih hparent hp (by omega) (lt_length_levels hparent)

theorem Sound.rootLevel?_eq (ht : t.Sound) (hne : t.leafCount ≠ 0) :
    t.rootLevel? = some (t.levels.length - 1) := by
  cases ht with
  | empty arena maxLeaves => exact absurd rfl hne
  | @grown arena lower above root maxLeaves tower top filled =>
      have hsound : Sound ⟨arena, lower :: above, some root, maxLeaves⟩ := .grown tower top filled
      obtain ⟨n, hn, hlevel⟩ := hsound.exists_node (hsound.slot?_root rfl)
      simp only at hn
      simp [rootLevel?, rootNode?, hn, hlevel]

/-- The leaf at place `i`, which has the blocks `blocks`, is the first one that holds `data`. -/
structure HoldsFirst (leaves : List (List String)) (data : String) (i : Nat)
    (blocks : List String) : Prop where
  blocks_eq : leaves[i]? = some blocks
  mem : data ∈ blocks
  first : ∀ {j : Nat} {other : List String}, j < i → leaves[j]? = some other → data ∉ other

theorem exists_holdsFirst {leaves : List (List String)} {blocks : List String}
    (hblocks : blocks ∈ leaves) (hdata : data ∈ blocks) :
    ∃ i blocks, HoldsFirst leaves data i blocks := by
  classical
  have hsome : ∃ i : Nat, ∃ blocks, leaves[i]? = some blocks ∧ data ∈ blocks := by
    obtain ⟨i, hi⟩ := List.getElem?_of_mem hblocks
    exact ⟨i, blocks, hi, hdata⟩
  obtain ⟨first, hfirst, hmem⟩ := Nat.find_spec hsome
  exact ⟨Nat.find hsome, first, hfirst, hmem, fun hj hother hin =>
    Nat.find_min hsome hj ⟨_, hother, hin⟩⟩

theorem filter_contains_eq_none {n : Node} (hdata : data ∉ n.blocks) :
    (some n).filter (·.contains data) = none := by
  rw [Option.filter_some, if_neg]
  simpa [Node.contains] using hdata

theorem findLeaf?_eq_none (hnone : ∀ blocks ∈ t.leafBlocks, data ∉ blocks) :
    t.findLeaf? data = none := by
  rw [findLeaf?, List.findSome?_eq_none_iff]
  rintro ⟨id, i⟩ hmem
  have hleaf := List.fst_mem_of_mem_zipIdx hmem
  cases hn : t.arena.get? id with
  | none => simp [hn]
  | some n =>
      have hblocks : n.blocks ∈ t.leafBlocks := List.mem_filterMap.2 ⟨id, hleaf, by rw [hn]; rfl⟩
      simp only [hn, filter_contains_eq_none (hnone _ hblocks), Option.map_none]

/-- Looking for a block finds the first leaf that holds it. -/
theorem Sound.findLeaf?_of_holdsFirst (ht : t.Sound) {blocks : List String}
    (hfirst : HoldsFirst t.leafBlocks data i blocks) :
    ∃ id n, t.leaves[i]? = some id ∧ t.arena.get? id = some n ∧ n.blocks = blocks ∧
      t.findLeaf? data = some (i, id, n) := by
  have hblocks := hfirst.blocks_eq
  rw [ht.getElem?_leafBlocks, Option.bind_eq_some_iff] at hblocks
  obtain ⟨id, hid, hmap⟩ := hblocks
  obtain ⟨n, hn, rfl⟩ := Option.map_eq_some_iff.1 hmap
  refine ⟨id, n, hid, hn, rfl, findSome?_eq_of_getElem? (i := i) (a := (id, i)) ?_ ?_ ?_⟩
  · rw [List.getElem?_zipIdx, Array.getElem?_toList, hid, Option.map_some, Nat.zero_add]
  · have hcontains : n.contains data = true := by simpa [Node.contains] using hfirst.mem
    simp only [hn, Option.filter_some, hcontains, if_true, Option.map_some]
  · rintro j hj ⟨other, j'⟩ hother
    rw [List.getElem?_zipIdx, Array.getElem?_toList, Option.map_eq_some_iff] at hother
    obtain ⟨_, hother, heq⟩ := hother
    obtain ⟨rfl, -⟩ := Prod.mk.inj heq
    obtain ⟨m, hm, -⟩ := ht.exists_leaf hother
    have hblocks : t.leafBlocks[j]? = some m.blocks := by
      rw [ht.getElem?_leafBlocks, hother, Option.bind_some, hm, Option.map_some]
    simp only [hm, filter_contains_eq_none (hfirst.first hj hblocks), Option.map_none]

theorem check_eq_notFound (hnone : ∀ blocks ∈ t.leafBlocks, data ∉ blocks) :
    t.check data = .notFound := by
  rw [check, findLeaf?_eq_none hnone]
  cases t.root? with
  | none => rfl
  | some root => rfl

/-- The answer for a block that is held: the first leaf that holds it is hashed anew, and if it
has the hash that it records, so has everything on the way to the root. -/
theorem Sound.check_of_holdsFirst (ht : t.Sound) {blocks : List String}
    (hfirst : HoldsFirst t.leafBlocks data i blocks) :
    ∃ n, t.cells[i]? = some n ∧ n.blocks = blocks ∧
      t.check data = if Digest.ofBlocks blocks = n.hash then
        .verified i (t.levels.length - 1) else .mismatch 0 := by
  obtain ⟨id, n, hid, hn, rfl, hfind⟩ := ht.findLeaf?_of_holdsFirst hfirst
  have hslot : t.slot? 0 i = some id := by rwa [slot?_zero]
  obtain ⟨root, hroot⟩ := ht.exists_root (lt_length_levels hslot)
  refine ⟨n, by rw [ht.getElem?_cells, hid, Option.bind_some, hn], rfl, ?_⟩
  simp only [check, hroot, hfind]
  split
  · next hhash =>
      rw [hhash]
      exact ht.climb_eq hslot hn hroot (by omega) i
  · rfl

end Tree

end SealedLog
