import SealedLog.Proofs.Tree.Batch
import SealedLog.Proofs.Tree.Growth
import SealedLog.Snapshot.Basic

/-!
# What a grown tree holds

A tree that was grown block by block, and not tampered with, shows what `Batch` builds from
the same blocks in one go: the leaves, the hashes of all levels and the root. So its views
depend on its blocks alone, and not on how many leaves it may have, on the time it took to
grow or on the names of its nodes.
-/

namespace SealedLog

namespace Tree

/-- The tree holds the blocks `bs` under their own hashes. -/
structure Holds (t : Tree) (bs : List String) : Prop where
  sound : t.Sound
  cells_eq : t.cells = (Batch.leaves bs).map Node.ofBlocks

@[simp] theorem blocks_ofBlocks (bs : List String) : (Node.ofBlocks bs).blocks = bs := rfl

theorem holds_withCapacity (maxLeaves : Nat) : (withCapacity maxLeaves).Holds [] where
  sound := sound_withCapacity maxLeaves
  cells_eq := by simp

theorem Holds.append {t : Tree} {bs : List String} (h : t.Holds bs) (b : String) :
    ∃ t', t.append b = .ok t' ∧ t'.Holds (bs ++ [b]) ∧ t'.maxLeaves = t.maxLeaves := by
  obtain ⟨t', happend, hsound, hmax, hcells⟩ := append_eq_ok h.sound b
  refine ⟨t', happend, ⟨hsound, ?_⟩, hmax⟩
  by_cases hmod : bs.length % leafCapacity = 0
  · rw [Batch.leaves_append_of_full bs b hmod, List.map_append]
    rcases hcells with ⟨-, hnew⟩ | ⟨front, n, hold, hroom, -⟩
    · rw [hnew, h.cells_eq]
      rfl
    · have hmem : n ∈ t.cells := by simp [hold]
      rw [h.cells_eq, List.mem_map] at hmem
      obtain ⟨leaf, hleaf, rfl⟩ := hmem
      rw [blocks_ofBlocks, Batch.length_of_mem_leaves hmod hleaf] at hroom
      exact absurd hroom (Nat.lt_irrefl _)
  · obtain ⟨front, last, hleaves, hlength, hnext⟩ := Batch.leaves_append_of_room bs b hmod
    have hcells_eq := h.cells_eq
    rw [hleaves, List.map_append, List.map_singleton] at hcells_eq
    rw [hnext, List.map_append, List.map_singleton]
    rcases hcells with ⟨hfull, -⟩ | ⟨front', n, hold, -, hnew⟩
    · have hlast := hfull (Node.ofBlocks last) (by simp [hcells_eq])
      rw [blocks_ofBlocks, hlength] at hlast
      exact absurd hlast (Nat.ne_of_lt (Nat.mod_lt _ (by decide)))
    · rw [hcells_eq] at hold
      obtain ⟨rfl, hn⟩ := List.append_inj' hold rfl
      rw [List.cons.injEq] at hn
      rw [hnew, ← hn.1, blocks_ofBlocks]

theorem Holds.appendAll {t : Tree} {bs : List String} (h : t.Holds bs) (cs : List String) :
    ∃ t', t.appendAll cs = .ok t' ∧ t'.Holds (bs ++ cs) ∧ t'.maxLeaves = t.maxLeaves := by
  induction cs generalizing t bs with
  | nil => exact ⟨t, rfl, by rwa [List.append_nil], rfl⟩
  | cons c cs ih =>
      obtain ⟨t₁, happend, h₁, hmax₁⟩ := h.append c
      obtain ⟨t₂, hall, h₂, hmax₂⟩ := ih h₁
      refine ⟨t₂, ?_, ?_, by rw [hmax₂, hmax₁]⟩
      · simp only [Tree.appendAll, List.foldlM_cons, happend, bind, Except.bind]
        exact hall
      · rwa [List.append_assoc, List.singleton_append] at h₂

theorem ofBlocks_eq_ok (bs : List String) (maxLeaves : Nat) :
    ∃ t, ofBlocks bs maxLeaves = .ok t ∧ t.Holds bs ∧ t.maxLeaves = max maxLeaves 1 :=
  (holds_withCapacity maxLeaves).appendAll bs

theorem Holds.leafBlocks_eq {t : Tree} {bs : List String} (h : t.Holds bs) :
    t.leafBlocks = Batch.leaves bs := by
  have hcomp : Node.blocks ∘ Node.ofBlocks = id := rfl
  rw [leafBlocks_eq_map_cells, h.cells_eq, List.map_map, hcomp, List.map_id]

theorem Holds.blocks_eq {t : Tree} {bs : List String} (h : t.Holds bs) : t.blocks = bs := by
  rw [blocks, h.leafBlocks_eq, Batch.flatten_leaves]

def hashesAt (arena : Arena) (level : Array NodeId) : List Hash :=
  level.toList.filterMap arena.hash?

theorem IsLevel.isSome_hash? {arena : Arena} {h : Nat} {level : Array NodeId}
    (hl : IsLevel arena h level) : ∀ id ∈ level.toList, (arena.hash? id).isSome := by
  intro id hid
  obtain ⟨i, hi⟩ := List.getElem?_of_mem hid
  rw [Array.getElem?_toList] at hi
  obtain ⟨n, hn, -⟩ := hl.height hi
  rw [Arena.hash?_of_get? hn, Option.isSome_some]

theorem IsLevel.getElem?_hashesAt {arena : Arena} {h : Nat} {level : Array NodeId}
    (hl : IsLevel arena h level) (i : Nat) :
    (hashesAt arena level)[i]? = level[i]?.bind arena.hash? := by
  rw [hashesAt, getElem?_filterMap_of_isSome hl.isSome_hash?, Array.getElem?_toList]

theorem IsLevel.length_hashesAt {arena : Arena} {h : Nat} {level : Array NodeId}
    (hl : IsLevel arena h level) : (hashesAt arena level).length = level.size := by
  rw [hashesAt, length_filterMap_of_isSome hl.isSome_hash?, Array.length_toList]

/-- The parents hash the texts of their pairs. -/
theorem Linked.hashesAt_eq {arena : Arena} {h : Nat} {lower upper : Array NodeId}
    (hlink : Linked arena h lower upper) (hlower : IsLevel arena h lower)
    (hupper : IsLevel arena (h + 1) upper) :
    hashesAt arena upper = (Batch.pairTexts (hashesAt arena lower)).map Digest.ofText := by
  have hsize := hlink.size_eq
  apply List.ext_getElem?
  intro i
  rw [hupper.getElem?_hashesAt, List.getElem?_map, Batch.getElem?_pairTexts,
    hlower.getElem?_hashesAt, hlower.getElem?_hashesAt]
  cases hid : upper[i]? with
  | none =>
      have hge := Array.getElem?_eq_none_iff.1 hid
      rw [Array.getElem?_eq_none (show lower.size ≤ 2 * i by omega)]
      rfl
  | some id =>
      have hlt := (Array.getElem?_eq_some_iff.1 hid).1
      have hleft : lower[2 * i]? = some lower[2 * i] := Array.getElem?_eq_getElem (by omega)
      obtain ⟨l, hl, hcover⟩ := hlink.covers hleft hid
      rw [hleft, Option.bind_some, Option.bind_some, Arena.hash?_of_get? hl,
        Arena.hash?_of_get? hcover]
      rfl

/-- The hashes of a tower by the texts of its lowest level. -/
theorem Tower.map_hashesAt {arena : Arena} {h : Nat} {lower : Array NodeId}
    {above : List (Array NodeId)} (ht : Tower arena h lower above) {ts : List String}
    (hts : hashesAt arena lower = ts.map Digest.ofText) :
    (lower :: above).map (hashesAt arena) =
      (Batch.textsOver ts).map (List.map Digest.ofText) := by
  have hlength := ht.isLevel.length_hashesAt
  rw [hts, List.length_map] at hlength
  induction above generalizing h lower ts with
  | nil =>
      have hone := ht.2
      rw [Batch.textsOver_of_le (by omega), List.map_singleton, List.map_singleton, hts]
  | cons upper above ih =>
      obtain ⟨hlower, hsize, hlink, habove⟩ := ht
      have hupper := habove.isLevel
      have htexts : hashesAt arena upper = (Batch.textsAbove ts).map Digest.ofText := by
        rw [hlink.hashesAt_eq hlower hupper, hts]
        rfl
      have hlen := hupper.length_hashesAt
      rw [htexts, List.length_map] at hlen
      have hrest := ih habove htexts hlen
      rw [Batch.textsOver_of_lt (by omega), List.map_cons, hrest, hts]
      rfl

theorem hashesAt_leaves (t : Tree) : hashesAt t.arena t.leaves = t.cells.map Node.hash := by
  rw [hashesAt, cells, List.map_filterMap]
  rfl

theorem Holds.hashesAt_leaves {t : Tree} {bs : List String} (h : t.Holds bs) :
    hashesAt t.arena t.leaves = ((Batch.leaves bs).map String.join).map Digest.ofText := by
  rw [Tree.hashesAt_leaves, h.cells_eq, List.map_map, List.map_map]
  rfl

theorem Holds.leafCount_eq {t : Tree} {bs : List String} (h : t.Holds bs) :
    t.leafCount = (bs.length + 3) / leafCapacity := by
  rw [← h.sound.length_cells, h.cells_eq, List.length_map, Batch.length_leaves]

theorem Holds.levelHashes_eq {t : Tree} {bs : List String} (h : t.Holds bs) :
    t.levelHashes = Batch.levelHashes bs := by
  have hleaves := h.hashesAt_leaves
  have hcount := h.leafCount_eq
  change t.levels.map (hashesAt t.arena) = _
  cases h.sound with
  | empty arena maxLeaves =>
      have hlength : bs.length = 0 := by
        change 0 = (bs.length + 3) / 4 at hcount
        omega
      rw [List.length_eq_zero_iff.1 hlength]
      rfl
  | @grown arena lower above root maxLeaves tower top filled =>
      have hpos := tower.size_pos
      have hne : bs ≠ [] := by
        rintro rfl
        change lower.size = (0 + 3) / 4 at hcount
        omega
      rw [Batch.levelHashes, if_neg hne, Batch.texts, Batch.leafTexts, if_neg hne]
      exact tower.map_hashesAt hleaves

theorem getLast?_levelHashes {t : Tree} (ht : t.Sound) (hne : t.leafCount ≠ 0) :
    t.levelHashes.getLast? = some [t.rootHash] := by
  change (t.levels.map (hashesAt t.arena)).getLast? = _
  cases ht with
  | empty arena maxLeaves => exact absurd rfl hne
  | @grown arena lower above root maxLeaves tower top filled =>
      obtain ⟨n, hn⟩ := tower.exists_top top
      rw [List.getLast?_map, top, Option.map_some]
      simp [hashesAt, rootHash, rootNode?, hn, Arena.hash?_of_get? hn]

theorem Holds.rootHash_eq {t : Tree} {bs : List String} (h : t.Holds bs) :
    t.rootHash = Batch.root bs := by
  have hcount := h.leafCount_eq
  by_cases hbs : bs = []
  · subst hbs
    have hempty : t.leafCount = 0 := hcount
    rw [Batch.root_nil]
    cases h.sound with
    | empty arena maxLeaves => rfl
    | @grown arena lower above root maxLeaves tower top filled =>
        have hpos := tower.size_pos
        have hzero : lower.size = 0 := hempty
        omega
  · have hpos := List.length_pos_iff.2 hbs
    have hlast := getLast?_levelHashes h.sound (by rw [hcount, leafCapacity]; omega)
    rw [h.levelHashes_eq, Batch.levelHashes, if_neg hbs, List.getLast?_map,
      Batch.getLast?_texts, Option.map_some, List.map_singleton, Option.some.injEq,
      List.cons.injEq] at hlast
    exact hlast.1.symm

theorem Holds.ofTree_eq {t : Tree} {bs : List String} (h : t.Holds bs) (treeIndex now : Nat) :
    Snapshot.ofTree t treeIndex now = Batch.snapshot bs treeIndex now := by
  rw [Snapshot.ofTree, h.rootHash_eq, h.leafBlocks_eq, h.levelHashes_eq, Batch.snapshot]

/-- A tree is full once its blocks fill all the leaves it may have. -/
theorem Holds.isFull_iff {t : Tree} {bs : List String} (h : t.Holds bs)
    (hmax : 0 < t.maxLeaves) :
    t.isFull = true ↔ bs.length % leafCapacity = 0 ∧ leafCapacity * t.maxLeaves ≤ bs.length := by
  have hcount := h.leafCount_eq
  rw [h.sound.isFull_iff hmax, hcount]
  by_cases hmod : bs.length % leafCapacity = 0
  · have hlast : ∀ n ∈ t.cells.getLast?, n.blocks.length = leafCapacity := by
      intro n hn
      have hmem := List.mem_of_getLast? hn
      rw [h.cells_eq, List.mem_map] at hmem
      obtain ⟨leaf, hleaf, rfl⟩ := hmem
      exact Batch.length_of_mem_leaves hmod hleaf
    simp only [leafCapacity] at hmod ⊢
    constructor
    · rintro ⟨hle, -⟩
      exact ⟨hmod, by omega⟩
    · rintro ⟨-, hle⟩
      exact ⟨by omega, hlast⟩
  · obtain ⟨front, last, hleaves, hlength, -⟩ := Batch.leaves_append_of_room bs "" hmod
    have hlast : t.cells.getLast? = some (Node.ofBlocks last) := by
      rw [h.cells_eq, hleaves, List.map_append, List.map_singleton, List.getLast?_concat]
    constructor
    · rintro ⟨-, hfull⟩
      have hcap := hfull _ hlast
      rw [blocks_ofBlocks, hlength] at hcap
      exact absurd hcap (Nat.ne_of_lt (Nat.mod_lt _ (by decide)))
    · rintro ⟨hzero, -⟩
      exact absurd hzero hmod

end Tree

end SealedLog
