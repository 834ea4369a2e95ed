import SealedLog.Proofs.Chain.Intact
import SealedLog.Proofs.Tree.Binding
import Mathlib.Data.List.Infix
import Mathlib.Data.List.Nodup

/-!
# What the recorded roots of a chain bind

Two unbroken chains under the same recorded roots agree in everything their roots bind, or
two of the texts that were hashed for them collide. What a root leaves open is left open for
a chain too: where one block ends and the next begins within a leaf, and whether a level
was made of events or of hashes. The link to the tree before fixes the first block of every
tree but the first.
-/

namespace SealedLog

namespace Chain

open Digest

/-- The texts of all levels of the trees over the blocks of the snapshots. -/
def levelTexts (snapshots : List Snapshot) : List String :=
  snapshots.flatMap fun s => (Batch.texts s.blocks).flatten

/-- Every text that is hashed while these trees are rebuilt block by block: the texts of
each tree that comes up on the way. -/
def hashedTexts (snapshots : List Snapshot) : List String :=
  snapshots.flatMap fun s => s.blocks.inits.flatMap fun bs => (Batch.texts bs).flatten

theorem head?_blocks_of_firstBlock? {s : Snapshot} {b : String}
    (h : s.firstBlock? = some b) : s.blocks.head? = some b := by
  obtain ⟨leaf, hleaf, hb⟩ := Option.bind_eq_some_iff.1 h
  obtain ⟨rest, hrest⟩ := List.head?_eq_some_iff.1 hleaf
  rw [Snapshot.blocks, hrest, List.flatten_cons, List.head?_append, hb, Option.some_or]

/-- The places of snapshots in unbroken chains by their indices. -/
theorem getElem?_byIndex {snapshots : List Snapshot} (h : Intact none (byIndex snapshots))
    {s : Snapshot} (hs : s ∈ snapshots) : (byIndex snapshots)[s.treeIndex]? = some s := by
  obtain ⟨i, hi⟩ := List.getElem?_of_mem (mem_byIndex.2 hs)
  have hplace := (h.of_getElem? hi).2
  rw [nextIndex, Option.elim_none, Nat.zero_add] at hplace
  rwa [hplace]

/-- In unbroken chains under the same roots, trees of one index have one root. -/
theorem rootHash_eq_of_treeIndex_eq {xs ys : List Snapshot}
    (hy : Intact none (byIndex ys))
    (hroots : ∀ pair, pair ∈ recordedRoots xs → pair ∈ recordedRoots ys) {x y : Snapshot}
    (hxs : x ∈ xs) (hys : y ∈ ys) (hindex : x.treeIndex = y.treeIndex) :
    x.rootHash = y.rootHash := by
  obtain ⟨z, hz, hpair⟩ := List.mem_map.1 (hroots _ (List.mem_map.2 ⟨x, hxs, rfl⟩))
  rw [Prod.mk.injEq] at hpair
  have hzplace := getElem?_byIndex hy hz
  have hyplace := getElem?_byIndex hy hys
  rw [hpair.1, hindex, hyplace, Option.some.injEq] at hzplace
  rw [← hpair.2, ← hzplace]

theorem exists_previous {xs : List Snapshot} (hx : Intact none (byIndex xs)) {x : Snapshot}
    (hxs : x ∈ xs) (hpos : 0 < x.treeIndex) :
    ∃ w ∈ xs, w.treeIndex + 1 = x.treeIndex ∧ x.blocks.head? = some w.rootHash := by
  have hplace := getElem?_byIndex hx hxs
  have hlt := (List.getElem?_eq_some_iff.1 hplace).1
  obtain ⟨w, hw⟩ : ∃ w, (byIndex xs)[x.treeIndex - 1]? = some w :=
    ⟨_, List.getElem?_eq_getElem (by omega)⟩
  have hindex := (hx.of_getElem? hw).2
  rw [nextIndex, Option.elim_none, Nat.zero_add] at hindex
  refine ⟨w, mem_byIndex.1 (List.mem_of_getElem? hw), by omega, ?_⟩
  apply head?_blocks_of_firstBlock?
  apply hx.firstBlock? hw
  rwa [show x.treeIndex - 1 + 1 = x.treeIndex by omega]

/-- Two chains that the audit has nothing to report about, under the same recorded roots:
trees of one index have the same texts, level by level from the root down; those with as many
levels have the same leaf texts; and those after the first begin with the same block. Or else
a text of one chain collides with a text of the other. -/
theorem sameTexts_or_collide_of_recordedRoots {xs ys : List Snapshot}
    (hx : (audit xs).faults = []) (hy : (audit ys).faults = [])
    (hroots : ∀ pair, pair ∈ recordedRoots xs ↔ pair ∈ recordedRoots ys) :
    (∀ x ∈ xs, ∀ y ∈ ys, x.treeIndex = y.treeIndex →
      Batch.SameTexts x.blocks y.blocks ∧
      ((Batch.texts x.blocks).length = (Batch.texts y.blocks).length →
        Batch.leafTexts x.blocks = Batch.leafTexts y.blocks) ∧
      (0 < x.treeIndex → x.blocks.head? = y.blocks.head?)) ∨
    Collide (levelTexts xs) (levelTexts ys) := by
  rw [faults_audit_eq_nil_iff] at hx hy
  by_cases hcol : Collide (levelTexts xs) (levelTexts ys)
  · exact Or.inr hcol
  left
  intro x hxs y hys hindex
  have hsame : Batch.SameTexts x.blocks y.blocks := by
    have hroot := rootHash_eq_of_treeIndex_eq hy (fun pair => (hroots pair).1) hxs hys hindex
    have hxplace := (hx.of_getElem? (getElem?_byIndex hx hxs)).1
    have hyplace := (hy.of_getElem? (getElem?_byIndex hy hys)).1
    rw [hxplace.root_eq, hyplace.root_eq] at hroot
    rcases Batch.sameTexts_or_collide hroot with hsame | htree
    · exact hsame
    · refine absurd (htree.mono ?_ ?_) hcol
      · exact fun t ht => List.mem_flatMap.2 ⟨x, hxs, ht⟩
      · exact fun t ht => List.mem_flatMap.2 ⟨y, hys, ht⟩
  refine ⟨hsame, hsame.leafTexts_eq, fun hpos => ?_⟩
  obtain ⟨v, hv, hvindex, hxhead⟩ := exists_previous hx hxs hpos
  obtain ⟨w, hw, hwindex, hyhead⟩ := exists_previous hy hys (by omega)
  rw [hxhead, hyhead,
    rootHash_eq_of_treeIndex_eq hy (fun pair => (hroots pair).1) hv hw (by omega)]

def refilled (blocks : Snapshot → List String) (s : Snapshot) : Snapshot :=
  Batch.snapshot (blocks s) s.treeIndex s.updatedAt

/-- Nothing beyond that is bound: blocks with the same texts, with the same first block in
every tree but the first, can be put in place of those of a chain, under the same recorded
roots and unnoticed. -/
theorem faults_audit_map_refilled_eq_nil {xs : List Snapshot} (hx : (audit xs).faults = [])
    {blocks : Snapshot → List String}
    (hsame : ∀ x ∈ xs, Batch.SameTexts x.blocks (blocks x))
    (hhead : ∀ x ∈ xs, 0 < x.treeIndex → (blocks x).head? = x.blocks.head?) :
    (audit (xs.map (refilled blocks))).faults = [] ∧
      recordedRoots (xs.map (refilled blocks)) = recordedRoots xs := by
  rw [faults_audit_eq_nil_iff] at hx ⊢
  have hroot : ∀ x ∈ xs, (refilled blocks x).rootHash = x.rootHash := by
    intro x hxs
    have hgenuine := (hx.of_getElem? (getElem?_byIndex hx hxs)).1
    rw [hgenuine.root_eq, (hsame x hxs).root_eq]
    rfl
  have hsort : byIndex (xs.map (refilled blocks)) = (byIndex xs).map (refilled blocks) :=
    (List.map_mergeSort (f := refilled blocks) fun _ _ _ _ => rfl).symm
  refine ⟨?_, ?_⟩
  · rw [hsort]
    refine intact_of_getElem? ?_ nofun ?_
    · intro i s hi
      rw [List.getElem?_map, Option.map_eq_some_iff] at hi
      obtain ⟨x, hi, rfl⟩ := hi
      exact ⟨(hx.of_getElem? hi).2, isGenuine_snapshot _ _ _⟩
    · intro i s t hs ht
      rw [List.getElem?_map, Option.map_eq_some_iff] at hs ht
      obtain ⟨x, hxi, rfl⟩ := hs
      obtain ⟨y, hyi, rfl⟩ := ht
      have hyindex := (hx.of_getElem? hyi).2
      have hys := mem_byIndex.1 (List.mem_of_getElem? hyi)
      rw [refilled, firstBlock?_snapshot, hhead y hys (by omega),
        hroot x (mem_byIndex.1 (List.mem_of_getElem? hxi))]
      exact head?_blocks_of_firstBlock? (hx.firstBlock? hxi hyi)
  · rw [recordedRoots, recordedRoots, List.map_map]
    refine List.map_congr_left fun x hxs => ?_
    rw [Function.comp_apply, hroot x hxs]
    rfl

/-- A chain of two trees, of which the second holds the event `"c"`. -/
def twoTrees (bs : List String) : List Snapshot :=
  [Batch.snapshot bs 0 0, Batch.snapshot [Batch.root bs, "c"] 1 0]

theorem audit_twoTrees (bs : List String) : audit (twoTrees bs) = ⟨2, []⟩ := by
  have hsorted : (twoTrees bs).Pairwise fun a b => a.treeIndex ≤ b.treeIndex := by
    simp [twoTrees, Batch.snapshot]
  refine audit_of_intact hsorted
    ⟨rfl, by simp, isGenuine_snapshot bs 0 0, rfl, ?_, isGenuine_snapshot _ 1 0, trivial⟩
  intro previous hprevious
  rw [Option.mem_some_iff] at hprevious
  rw [← hprevious, firstBlock?_snapshot]
  rfl

/-- Blocks of one leaf that run together to the same text make the same chain of roots. -/
theorem recordedRoots_twoTrees {bs cs : List String} (hbs : bs.length ≤ leafCapacity)
    (hcs : cs.length ≤ leafCapacity) (hjoin : String.join bs = String.join cs) :
    recordedRoots (twoTrees bs) = recordedRoots (twoTrees cs) := by
  have hroot : Batch.root bs = Batch.root cs := by
    rw [Batch.root, Batch.root, Batch.rootText_of_length_le hbs,
      Batch.rootText_of_length_le hcs, hjoin]
  simp only [recordedRoots, twoTrees, Batch.snapshot, List.map_cons, List.map_nil, hroot]

/-- Two events and the one event that they run together to, each followed by a tree with one
more event. -/
theorem sameTexts_or_collide_twoTrees :
    (audit (twoTrees ["a", "b"])).faults = [] ∧ (audit (twoTrees ["ab"])).faults = [] ∧
    (∀ pair, pair ∈ recordedRoots (twoTrees ["a", "b"]) ↔
      pair ∈ recordedRoots (twoTrees ["ab"])) ∧
    ((∀ x ∈ twoTrees ["a", "b"], ∀ y ∈ twoTrees ["ab"], x.treeIndex = y.treeIndex →
      Batch.SameTexts x.blocks y.blocks ∧
      ((Batch.texts x.blocks).length = (Batch.texts y.blocks).length →
        Batch.leafTexts x.blocks = Batch.leafTexts y.blocks) ∧
      (0 < x.treeIndex → x.blocks.head? = y.blocks.head?)) ∨
    Collide (levelTexts (twoTrees ["a", "b"])) (levelTexts (twoTrees ["ab"]))) := by
  have hroots : recordedRoots (twoTrees ["a", "b"]) = recordedRoots (twoTrees ["ab"]) :=
    recordedRoots_twoTrees (by decide) (by decide) (by decide)
  have hx : (audit (twoTrees ["a", "b"])).faults = [] := by rw [audit_twoTrees]
  have hy : (audit (twoTrees ["ab"])).faults = [] := by rw [audit_twoTrees]
  refine ⟨hx, hy, fun pair => by rw [hroots], ?_⟩
  exact sameTexts_or_collide_of_recordedRoots hx hy fun pair => by rw [hroots]

theorem audit_snapshot (bs : List String) (now : Nat) :
    audit [Batch.snapshot bs 0 now] = ⟨1, []⟩ :=
  audit_of_intact (List.pairwise_singleton _ _)
    ⟨rfl, by simp, isGenuine_snapshot bs 0 now, trivial⟩

theorem nodup_map_ofText : ((["", "a", "ab"] : List String).map ofText).Nodup := by
  decide +kernel

theorem mem_of_mem_hashedTexts {t : String}
    (ht : t ∈ hashedTexts ([Batch.snapshot ["a", "b"] 0 0] ++ [Batch.snapshot ["ab"] 0 0])) :
    t ∈ ["", "a", "ab"] := by
  have hnil : Batch.texts [] = [[""]] := Batch.texts_nil
  have hone : Batch.texts ["a"] = [["a"]] := Batch.texts_of_length_le (by decide)
  have htwo : Batch.texts ["a", "b"] = [["ab"]] := Batch.texts_of_length_le (by decide)
  have hab : Batch.texts ["ab"] = [["ab"]] := Batch.texts_of_length_le (by decide)
  simp [hashedTexts, Batch.snapshot, Snapshot.blocks, Batch.flatten_leaves, hnil, hone, htwo,
    hab] at ht
  rcases ht with rfl | rfl | rfl | rfl | rfl <;> decide

/-- The recorded roots do not bind the blocks: `"a"` and `"b"` can be replaced by `"ab"`, and
no two of the texts that are hashed in either chain collide. -/
theorem not_blocks_eq_or_collide_of_recordedRoots :
    ¬ ∀ xs ys : List Snapshot, (audit xs).faults = [] → (audit ys).faults = [] →
      (∀ pair, pair ∈ recordedRoots xs ↔ pair ∈ recordedRoots ys) →
      (∀ x ∈ xs, ∀ y ∈ ys, x.treeIndex = y.treeIndex → x.blocks = y.blocks) ∨
        Collide (hashedTexts (xs ++ ys)) (hashedTexts (xs ++ ys)) := by
  intro h
  have hroot : Batch.root ["a", "b"] = Batch.root ["ab"] := by
    rw [Batch.root, Batch.root, Batch.rootText_of_length_le (by decide),
      Batch.rootText_of_length_le (by decide)]
    rfl
  have hroots : recordedRoots [Batch.snapshot ["a", "b"] 0 0] =
      recordedRoots [Batch.snapshot ["ab"] 0 0] := by
    simp only [recordedRoots, Batch.snapshot, List.map_cons, List.map_nil, hroot]
  rcases h [Batch.snapshot ["a", "b"] 0 0] [Batch.snapshot ["ab"] 0 0]
      (by rw [audit_snapshot]) (by rw [audit_snapshot]) (fun pair => by rw [hroots]) with
    hsame | ⟨t, ht, u, hu, hne, heq⟩
  · have hblocks := hsame _ (List.mem_singleton_self _) _ (List.mem_singleton_self _) rfl
    rw [Snapshot.blocks, Snapshot.blocks, Batch.snapshot, Batch.snapshot,
      Batch.flatten_leaves, Batch.flatten_leaves] at hblocks
    exact absurd hblocks (by decide)
  · have hdistinct := List.inj_on_of_nodup_map nodup_map_ofText
    exact hne (hdistinct (mem_of_mem_hashedTexts ht) (mem_of_mem_hashedTexts hu) heq)

end Chain

end SealedLog
