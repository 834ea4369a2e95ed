import SealedLog.Proofs.Tree.Inclusion
import SealedLog.Proofs.Tree.Content

/-!
# Inclusion checks on a tree that was tampered with

`tamper` gives one leaf other blocks and leaves every hash as it was, so the tree stays sound
and a later append is none the wiser: it hashes what the last leaf has then. What a leaf
records is therefore the hash of the blocks that it had right after the last append to it, and
a check compares just these with the blocks that it has now. `Handled` is a tree with those
blocks on the side, through any sequence of appends and tamperings.

Main statement: `exists_run_checksExactly`.
-/

namespace SealedLog

namespace Tree

/-- The nodes are those of `arena`, save that leaves may have other blocks under the hash that
they had. -/
structure Forged (arena arena' : Arena) : Prop where
  exists_node : ∀ {id : NodeId} {n : Node}, arena.get? id = some n →
    ∃ n', arena'.get? id = some n' ∧ n'.hash = n.hash ∧ n'.level = n.level
  branch : ∀ {id : NodeId} {n : Node}, arena.get? id = some n → n.isLeaf = false →
    arena'.get? id = some n

namespace Forged

variable {arena arena' : Arena} {h : Nat} {lower upper level : Array NodeId}
  {above : List (Array NodeId)}

theorem isLevel (hf : Forged arena arena') (hl : IsLevel arena h level) :
    IsLevel arena' h level := by
  apply hl.mono
  intro i id n hi hn
  obtain ⟨n', hn', -, hlevel⟩ := hf.exists_node hn
  exact ⟨n', hn', hlevel⟩

theorem linked (hf : Forged arena arena') (hl : IsLevel arena h lower)
    (hlink : Linked arena h lower upper) : Linked arena' h lower upper where
  size_eq := hlink.size_eq
  covers {i left id} hleft hid := by
    obtain ⟨l, hget, hbranch⟩ := hlink.covers hleft hid
    obtain ⟨l', hget', hhash, -⟩ := hf.exists_node hget
    have hright : lower[2 * i + 1]?.bind arena'.hash? = lower[2 * i + 1]?.bind arena.hash? := by
      cases hplace : lower[2 * i + 1]? with
      | none => rfl
      | some right =>
          obtain ⟨r, hr, -⟩ := hl.height hplace
          obtain ⟨r', hr', hrhash, -⟩ := hf.exists_node hr
          rw [Option.bind_some, Option.bind_some, Arena.hash?_of_get? hr, Arena.hash?_of_get? hr',
            hrhash]
    refine ⟨l', hget', ?_⟩
    rw [hf.branch hbranch rfl, branchOver, branchOver, hhash, hright]

theorem tower (hf : Forged arena arena') (ht : Tower arena h lower above) :
    Tower arena' h lower above := by
  induction above generalizing h lower with
  | nil => exact ⟨hf.isLevel ht.1, ht.2⟩
  | cons upper above ih =>
      exact ⟨hf.isLevel ht.1, ht.2.1, hf.linked ht.1 ht.2.2.1, ih ht.2.2.2⟩

end Forged

/-- The leaf `n` with `new` in place of its first block `old`, and the hash that it had. -/
def forge (n : Node) (old new : String) : Node :=
  { n with shape := .leaf (n.blocks.set (n.blocks.idxOf old) new) }

theorem Sound.forged_set {t : Tree} (ht : t.Sound) {i : Nat} {id : NodeId} {n : Node}
    (hid : t.leaves[i]? = some id) (hn : t.arena.get? id = some n) (old new : String) :
    Forged t.arena (t.arena.set id (forge n old new)) := by
  obtain ⟨m, hm, blocks, hshape, -⟩ := ht.exists_leaf hid
  rw [hn, Option.some.injEq] at hm
  subst hm
  constructor
  · intro other m hm
    by_cases hother : other = id
    · subst hother
      rw [hn, Option.some.injEq] at hm
      subst hm
      refine ⟨_, Arena.get?_set_self (forge n old new) hn, rfl, ?_⟩
      rw [Node.level, Node.level, hshape]
      rfl
    · exact ⟨m, by rw [Arena.get?_set_ne _ _ hother, hm], rfl, rfl⟩
  · intro other m hm hbranch
    rw [Arena.get?_set_ne, hm]
    rintro rfl
    rw [hn, Option.some.injEq] at hm
    subst hm
    rw [Node.isLeaf, hshape] at hbranch
    cases hbranch

theorem isFilled_forge {n : Node} {last : Prop} (hn : n.IsFilled last) (old new : String) :
    (forge n old new).IsFilled last := by
  obtain ⟨blocks, hshape, hblocks⟩ := hn
  have heq : n.blocks = blocks := by rw [Node.blocks, hshape]
  exact ⟨blocks.set (blocks.idxOf old) new, by rw [forge, heq], by rwa [List.length_set]⟩

theorem tamper_eq_self {t : Tree} {old : String} (hnone : ∀ blocks ∈ t.leafBlocks, old ∉ blocks)
    (new : String) : (t.tamper old new).1 = t := by
  rw [tamper, findLeaf?_eq_none hnone]

theorem Sound.set_forge {t : Tree} (ht : t.Sound) {i : Nat} {id : NodeId} {n : Node}
    (hid : t.leaves[i]? = some id) (hn : t.arena.get? id = some n) (old new : String) :
    Sound { t with arena := t.arena.set id (forge n old new) } := by
  have hforged := ht.forged_set hid hn old new
  cases ht with
  | empty arena maxLeaves => simp [leaves] at hid
  | @grown arena lower above root maxLeaves tower top filled =>
      refine .grown (hforged.tower tower) top fun {j other} hj => ?_
      obtain ⟨m, hm, hfilled⟩ := filled hj
      by_cases hother : other = id
      · subst hother
        replace hn : arena.get? other = some n := hn
        rw [hm, Option.some.injEq] at hn
        subst hn
        exact ⟨_, Arena.get?_set_self _ hm, isFilled_forge hfilled old new⟩
      · exact ⟨m, by rw [Arena.get?_set_ne _ _ hother, hm], hfilled⟩

/-- Tampering changes the blocks of one leaf, the first one that holds the block. -/
theorem Sound.tamper {t : Tree} (ht : t.Sound) {old : String} {i : Nat} {blocks : List String}
    (hfirst : HoldsFirst t.leafBlocks old i blocks) (new : String) :
    ∃ n, t.cells[i]? = some n ∧ n.blocks = blocks ∧ (t.tamper old new).1.Sound ∧
      (t.tamper old new).1.cells = t.cells.set i (forge n old new) ∧
      (t.tamper old new).1.levels = t.levels := by
  obtain ⟨id, n, hid, hn, rfl, hfind⟩ := ht.findLeaf?_of_holdsFirst hfirst
  have htamper : (t.tamper old new).1 = { t with arena := t.arena.set id (forge n old new) } := by
    rw [Tree.tamper, hfind]
    rfl
  have hsound := ht.set_forge hid hn old new
  have hcell : t.cells[i]? = some n := by rw [ht.getElem?_cells, hid, Option.bind_some, hn]
  rw [htamper]
  refine ⟨n, hcell, rfl, hsound, ?_, rfl⟩
  apply List.ext_getElem?
  intro j
  rw [hsound.getElem?_cells, List.getElem?_set]
  change t.leaves[j]?.bind (t.arena.set id (forge n old new)).get? = _
  by_cases hij : i = j
  · subst hij
    have hlt := (List.getElem?_eq_some_iff.1 hcell).1
    rw [if_pos rfl, if_pos hlt, hid, Option.bind_some, Arena.get?_set_self _ hn]
  · rw [if_neg hij, ht.getElem?_cells]
    cases hj : t.leaves[j]? with
    | none => rfl
    | some other =>
        have hne : other ≠ id := by
          rintro rfl
          have hplaces := ht.slot?_injective (h := 0) (by rw [slot?_zero, hid])
            (by rw [slot?_zero, hj])
          exact hij hplaces.2
        rw [Option.bind_some, Option.bind_some, Arena.get?_set_ne _ _ hne]

theorem Sound.leafBlocks_tamper {t : Tree} (ht : t.Sound) {old : String} {i : Nat}
    {blocks : List String} (hfirst : HoldsFirst t.leafBlocks old i blocks) (new : String) :
    (t.tamper old new).1.leafBlocks =
      t.leafBlocks.set i (blocks.set (blocks.idxOf old) new) := by
  obtain ⟨n, -, rfl, -, hcells, -⟩ := ht.tamper hfirst new
  rw [leafBlocks_eq_map_cells, hcells, List.map_set, leafBlocks_eq_map_cells]
  rfl

/-- A block that is first found in another leaf still is, unless it was put into a leaf before
that one. -/
theorem HoldsFirst.tamper {t : Tree} {old new data : String} {i j : Nat}
    {blocks other : List String} (hdata : HoldsFirst t.leafBlocks data j other) (ht : t.Sound)
    (hold : HoldsFirst t.leafBlocks old i blocks) (hij : i ≠ j) (hnew : new = data → j < i) :
    HoldsFirst (t.tamper old new).1.leafBlocks data j other := by
  rw [ht.leafBlocks_tamper hold]
  constructor
  case blocks_eq => rw [List.getElem?_set_ne hij, hdata.blocks_eq]
  case mem => exact hdata.mem
  case first =>
    intro k leaf hk hleaf hmem
    by_cases hik : i = k
    · subst hik
      rw [List.getElem?_set_self', hold.blocks_eq] at hleaf
      obtain rfl := Option.some.inj hleaf
      rcases List.mem_or_eq_of_mem_set hmem with hmem | heq
      · exact hdata.first hk hold.blocks_eq hmem
      · exact Nat.lt_asymm hk (hnew heq.symm)
    · rw [List.getElem?_set_ne hik] at hleaf
      exact hdata.first hk hleaf hmem

/-- So it gets the answer that it got before. -/
theorem Sound.check_tamper {t : Tree} (ht : t.Sound) {old new data : String} {i j : Nat}
    {blocks other : List String} (hold : HoldsFirst t.leafBlocks old i blocks)
    (hdata : HoldsFirst t.leafBlocks data j other) (hij : i ≠ j) (hnew : new = data → j < i) :
    (t.tamper old new).1.check data = t.check data := by
  obtain ⟨n, -, -, hsound, hcells, hlevels⟩ := ht.tamper hold new
  obtain ⟨m, hm, -, hcheck⟩ := ht.check_of_holdsFirst hdata
  obtain ⟨m', hm', -, hcheck'⟩ := hsound.check_of_holdsFirst (hdata.tamper ht hold hij hnew)
  rw [hcells, List.getElem?_set_ne hij, hm, Option.some.injEq] at hm'
  rw [hcheck, hcheck', hlevels, hm']

/-- In a tree that was only appended to, every leaf hashes to what it records. -/
theorem Holds.check_of_holdsFirst {t : Tree} {bs : List String} (h : t.Holds bs) {data : String}
    {i : Nat} {blocks : List String} (hfirst : HoldsFirst t.leafBlocks data i blocks) :
    t.check data = .verified i (t.levels.length - 1) := by
  obtain ⟨n, hn, rfl, hcheck⟩ := h.sound.check_of_holdsFirst hfirst
  have hrecorded : Digest.ofBlocks n.blocks = n.hash := by
    have hcell := List.mem_of_getElem? hn
    rw [h.cells_eq, List.mem_map] at hcell
    obtain ⟨blocks, -, rfl⟩ := hcell
    rfl
  rw [hcheck, if_pos hrecorded]

theorem Holds.exists_holdsFirst {t : Tree} {bs : List String} (h : t.Holds bs) {data : String}
    (hdata : data ∈ bs) : ∃ i blocks, HoldsFirst t.leafBlocks data i blocks := by
  rw [← h.blocks_eq, Tree.blocks, List.mem_flatten] at hdata
  obtain ⟨leaf, hleaf, hmem⟩ := hdata
  exact Tree.exists_holdsFirst hleaf hmem

/-- What can be done to a tree: a block is appended, or the first block equal to `old` is
overwritten. -/
inductive Edit where
  | append (data : String)
  | tamper (old new : String)

/-- A tree, and for each of its leaves the blocks that it had right after the last append to it. -/
structure Handled where
  tree : Tree
  written : Nat → List String

namespace Handled

def empty (maxLeaves : Nat) : Handled :=
  ⟨withCapacity maxLeaves, fun _ => []⟩

/-- Only an append writes to a leaf, namely to the last one; what an intruder puts there is not
written in this sense. -/
def edit (s : Handled) : Edit → Except StructuralError Handled
  | .append data => do
    let tree ← s.tree.append data
    return ⟨tree, Function.update s.written tree.lastLeafIndex (tree.leafBlocks.getLastD [])⟩
  | .tamper old new => .ok ⟨(s.tree.tamper old new).1, s.written⟩

def run (maxLeaves : Nat) (edits : List Edit) : Except StructuralError Handled :=
  edits.foldlM edit (empty maxLeaves)

/-- Every leaf records the hash of what was last written to it. -/
structure Recorded (s : Handled) : Prop where
  sound : s.tree.Sound
  hash_eq : ∀ {i : Nat} {n : Node}, s.tree.cells[i]? = some n →
    n.hash = Digest.ofBlocks (s.written i)

theorem recorded_empty (maxLeaves : Nat) : (empty maxLeaves).Recorded where
  sound := sound_withCapacity maxLeaves
  hash_eq hn := by simp [empty] at hn

theorem edit_append {s : Handled} {data : String} {t : Tree}
    (happend : s.tree.append data = .ok t) :
    s.edit (.append data) =
      .ok ⟨t, Function.update s.written t.lastLeafIndex (t.leafBlocks.getLastD [])⟩ := by
  rw [edit, happend]
  rfl

theorem Recorded.append {s : Handled} (hs : s.Recorded) (data : String) :
    ∃ s', s.edit (.append data) = .ok s' ∧ s'.Recorded := by
  obtain ⟨t, happend, hsound, -, hcells⟩ := append_eq_ok hs.sound data
  refine ⟨_, edit_append happend, hsound, fun {i n} hn => ?_⟩
  obtain ⟨front, blocks, hnew, hfront⟩ : ∃ front blocks,
      t.cells = front ++ [Node.ofBlocks blocks] ∧ front <+: s.tree.cells := by
    rcases hcells with ⟨-, hnew⟩ | ⟨front, m, hold, -, hnew⟩
    · exact ⟨_, _, hnew, List.prefix_refl _⟩
    · exact ⟨front, _, hnew, by rw [hold]; exact List.prefix_append front [m]⟩
  have hplace : t.lastLeafIndex = front.length := by
    rw [lastLeafIndex, ← hsound.length_cells, hnew, List.length_append, List.length_singleton,
      Nat.add_sub_cancel]
  have hlast : t.leafBlocks.getLastD [] = blocks := by
    rw [leafBlocks_eq_map_cells, hnew, List.map_append, List.map_singleton,
      List.getLastD_concat, blocks_ofBlocks]
  simp only at hn ⊢
  rw [hplace, hlast]
  rw [hnew] at hn
  by_cases hi : i < front.length
  · -- a leaf before the last one is as it was
    rw [List.getElem?_append_left hi] at hn
    rw [Function.update_of_ne (Nat.ne_of_lt hi)]
    obtain ⟨rest, hrest⟩ := hfront
    have hcell : s.tree.cells[i]? = some n := by
      rw [← hrest, List.getElem?_append_left hi, hn]
    exact hs.hash_eq hcell
  · have hlt := (List.getElem?_eq_some_iff.1 hn).1
    rw [List.length_append, List.length_singleton] at hlt
    obtain rfl : i = front.length := by omega
    rw [List.getElem?_concat_length, Option.some.injEq] at hn
    rw [Function.update_self, ← hn]
    rfl

theorem Recorded.tamper {s : Handled} (hs : s.Recorded) (old new : String) :
    Recorded ⟨(s.tree.tamper old new).1, s.written⟩ := by
  by_cases hnone : ∀ blocks ∈ s.tree.leafBlocks, old ∉ blocks
  · rwa [tamper_eq_self hnone]
  · push Not at hnone
    obtain ⟨leaf, hleaf, hmem⟩ := hnone
    obtain ⟨i, blocks, hfirst⟩ := exists_holdsFirst hleaf hmem
    obtain ⟨n, hn, -, hsound, hcells, -⟩ := hs.sound.tamper hfirst new
    refine ⟨hsound, fun {j m} hm => ?_⟩
    simp only at hm ⊢
    rw [hcells] at hm
    by_cases hij : i = j
    · subst hij
      rw [List.getElem?_set_self', hn] at hm
      obtain rfl := Option.some.inj hm
      change n.hash = Digest.ofBlocks (s.written i)
      exact hs.hash_eq hn
    · rw [List.getElem?_set_ne hij] at hm
      exact hs.hash_eq hm

theorem Recorded.edit {s : Handled} (hs : s.Recorded) (e : Edit) :
    ∃ s', s.edit e = .ok s' ∧ s'.Recorded := by
  cases e with
  | append data => exact hs.append data
  | tamper old new => exact ⟨_, rfl, hs.tamper old new⟩

theorem Recorded.foldlM_edit {s : Handled} (hs : s.Recorded) (edits : List Edit) :
    ∃ s', edits.foldlM Handled.edit s = .ok s' ∧ s'.Recorded := by
  induction edits generalizing s with
  | nil => exact ⟨s, rfl, hs⟩
  | cons e edits ih =>
      obtain ⟨s₁, hedit, hs₁⟩ := hs.edit e
      obtain ⟨s', hrest, hs'⟩ := ih hs₁
      exact ⟨s', by rw [List.foldlM_cons, hedit]; exact hrest, hs'⟩

/-- Appends alone grow the tree that `ofBlocks` grows. -/
theorem foldlM_edit_append {s : Handled} {bs : List String} (hs : s.tree.Holds bs)
    (cs : List String) :
    ∃ s', (cs.map Edit.append).foldlM Handled.edit s = .ok s' ∧ s'.tree.Holds (bs ++ cs) := by
  induction cs generalizing s bs with
  | nil => exact ⟨s, rfl, by rwa [List.append_nil]⟩
  | cons c cs ih =>
      obtain ⟨t, happend, ht, -⟩ := hs.append c
      obtain ⟨s', hrest, hs'⟩ := ih (s := ⟨t, _⟩) ht
      refine ⟨s', ?_, by rwa [List.append_assoc, List.singleton_append] at hs'⟩
      rw [List.map_cons, List.foldlM_cons, edit_append happend]
      exact hrest

/-- What the inclusion checks say about each block, by the first leaf that holds it. -/
structure ChecksExactly (s : Handled) : Prop where
  notFound : ∀ {data : String},
    s.tree.check data = .notFound ↔ ∀ blocks ∈ s.tree.leafBlocks, data ∉ blocks
  mismatch : ∀ {data : String} {i : Nat} {blocks : List String},
    HoldsFirst s.tree.leafBlocks data i blocks →
    (s.tree.check data = .mismatch 0 ↔ Digest.ofBlocks blocks ≠ Digest.ofBlocks (s.written i))
  verified : ∀ {data : String} {i : Nat} {blocks : List String},
    HoldsFirst s.tree.leafBlocks data i blocks →
    Digest.ofBlocks blocks = Digest.ofBlocks (s.written i) →
    ∃ level, s.tree.rootLevel? = some level ∧ s.tree.check data = .verified i level
  level_zero : ∀ {data : String} {level : Nat}, s.tree.check data = .mismatch level → level = 0
  tamper : ∀ {old new data : String} {i j : Nat} {blocks other : List String},
    HoldsFirst s.tree.leafBlocks old i blocks → HoldsFirst s.tree.leafBlocks data j other →
    i ≠ j → (new = data → j < i) → (s.tree.tamper old new).1.check data = s.tree.check data

theorem Recorded.check_of_holdsFirst {s : Handled} (hs : s.Recorded) {data : String} {i : Nat}
    {blocks : List String} (hfirst : HoldsFirst s.tree.leafBlocks data i blocks) :
    s.tree.check data = if Digest.ofBlocks blocks = Digest.ofBlocks (s.written i) then
      .verified i (s.tree.levels.length - 1) else .mismatch 0 := by
  obtain ⟨n, hn, -, hcheck⟩ := hs.sound.check_of_holdsFirst hfirst
  rw [hcheck, hs.hash_eq hn]

/-- A block that is not held has no leaf to be looked for in, and the others have a first one. -/
theorem Recorded.check_cases {s : Handled} (hs : s.Recorded) (data : String) :
    ((∀ blocks ∈ s.tree.leafBlocks, data ∉ blocks) ∧ s.tree.check data = .notFound) ∨
    (∃ i blocks, HoldsFirst s.tree.leafBlocks data i blocks ∧
      (s.tree.check data = .verified i (s.tree.levels.length - 1) ∨
        s.tree.check data = .mismatch 0)) := by
  by_cases hnone : ∀ blocks ∈ s.tree.leafBlocks, data ∉ blocks
  · exact Or.inl ⟨hnone, check_eq_notFound hnone⟩
  · push Not at hnone
    obtain ⟨leaf, hleaf, hmem⟩ := hnone
    obtain ⟨i, blocks, hfirst⟩ := exists_holdsFirst hleaf hmem
    refine Or.inr ⟨i, blocks, hfirst, ?_⟩
    rw [hs.check_of_holdsFirst hfirst]
    split
    · exact Or.inl rfl
    · exact Or.inr rfl

theorem Recorded.checksExactly {s : Handled} (hs : s.Recorded) : s.ChecksExactly where
  notFound {data} := by
    refine ⟨fun hcheck => ?_, check_eq_notFound⟩
    rcases hs.check_cases data with ⟨hnone, -⟩ | ⟨i, blocks, -, hanswer | hanswer⟩
    · exact hnone
    · rw [hanswer] at hcheck
      cases hcheck
    · rw [hanswer] at hcheck
      cases hcheck
  mismatch hfirst := by
    rw [hs.check_of_holdsFirst hfirst]
    split
    · next heq => simp [heq]
    · next hne => simp [hne]
  verified hfirst heq := by
    have hne : s.tree.leafCount ≠ 0 := by
      rw [← hs.sound.length_cells, ← List.length_map (f := Node.blocks),
        ← leafBlocks_eq_map_cells]
      exact Nat.ne_of_gt (Nat.zero_lt_of_lt (List.getElem?_eq_some_iff.1 hfirst.blocks_eq).1)
    exact ⟨_, hs.sound.rootLevel?_eq hne, by rw [hs.check_of_holdsFirst hfirst, if_pos heq]⟩
  level_zero {data level} hcheck := by
    rcases hs.check_cases data with ⟨-, hanswer⟩ | ⟨i, blocks, -, hanswer | hanswer⟩
    · rw [hanswer] at hcheck
      cases hcheck
    · rw [hanswer] at hcheck
      cases hcheck
    · rw [hanswer, Inclusion.mismatch.injEq] at hcheck
      exact hcheck.symm
  tamper hold hdata hij hnew := hs.sound.check_tamper hold hdata hij hnew

/-- Whatever is appended to an empty tree and overwritten in it, in any order: no append fails,
and the checks answer as `ChecksExactly` says. A tree that was only appended to has every
block verified. -/
theorem exists_run_checksExactly (maxLeaves : Nat) (edits : List Edit) :
    ∃ s, run maxLeaves edits = .ok s ∧ s.ChecksExactly ∧
      ∀ blocks : List String, edits = blocks.map .append → ∀ data ∈ blocks,
        ∃ i level, s.tree.check data = .verified i level := by
  obtain ⟨s, hrun, hs⟩ := (recorded_empty maxLeaves).foldlM_edit edits
  refine ⟨s, hrun, hs.checksExactly, ?_⟩
  rintro blocks rfl data hdata
  obtain ⟨s', hrun', hholds⟩ :=
    foldlM_edit_append (s := empty maxLeaves) (holds_withCapacity maxLeaves) blocks
  rw [hrun, Except.ok.injEq] at hrun'
  subst hrun'
  obtain ⟨i, leaf, hfirst⟩ := hholds.exists_holdsFirst hdata
  exact ⟨i, _, hholds.check_of_holdsFirst hfirst⟩

/-- Where the block was put into a leaf before the one that it is first found in, the answer
for it is one about that other leaf. -/
theorem check_tamper_ne_of_earlier :
    ∃ s, run 1 (["a", "b", "c", "d", "e"].map .append) = .ok s ∧
      HoldsFirst s.tree.leafBlocks "a" 0 ["a", "b", "c", "d"] ∧
      HoldsFirst s.tree.leafBlocks "e" 1 ["e"] ∧
      s.tree.check "e" = .verified 1 1 ∧
      (s.tree.tamper "a" "e").1.check "e" ≠ s.tree.check "e" := by
  obtain ⟨s, hrun, hholds⟩ := foldlM_edit_append (s := empty 1) (holds_withCapacity 1)
    ["a", "b", "c", "d", "e"]
  have hleaves : s.tree.leafBlocks = [["a", "b", "c", "d"], ["e"]] := by
    rw [hholds.leafBlocks_eq]
    simp [Batch.leaves_of_ne_nil, leafCapacity]
  have hfirst : HoldsFirst s.tree.leafBlocks "a" 0 ["a", "b", "c", "d"] := by
    rw [hleaves]
    exact ⟨rfl, by simp, fun hj => absurd hj (Nat.not_lt_zero _)⟩
  have hsecond : HoldsFirst s.tree.leafBlocks "e" 1 ["e"] := by
    rw [hleaves]
    refine ⟨rfl, by simp, fun {j other} hj hother => ?_⟩
    obtain rfl := Nat.lt_one_iff.1 hj
    obtain rfl := Option.some.inj hother
    decide
  have hheight : s.tree.levels.length = 2 := by
    rw [hholds.sound.length_levels, hholds.leafCount_eq]
    simp [leafCapacity, Nat.clog_eq_one (Nat.le_refl 2) (Nat.le_refl 2)]
  have hcheck : s.tree.check "e" = .verified 1 1 := by
    rw [hholds.check_of_holdsFirst hsecond, hheight]
  refine ⟨s, hrun, hfirst, hsecond, hcheck, ?_⟩
  obtain ⟨n, -, -, hsound, -, -⟩ := hholds.sound.tamper hfirst "e"
  have hforged : HoldsFirst (s.tree.tamper "a" "e").1.leafBlocks "e" 0 ["e", "b", "c", "d"] := by
    rw [hholds.sound.leafBlocks_tamper hfirst, hleaves]
    exact ⟨rfl, by simp, fun hj => absurd hj (Nat.not_lt_zero _)⟩
  obtain ⟨m, -, -, hanswer⟩ := hsound.check_of_holdsFirst hforged
  rw [hanswer, hcheck]
  split
  · simp
  · simp

end Handled

end Tree

end SealedLog
