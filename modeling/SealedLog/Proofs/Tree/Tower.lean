import SealedLog.Proofs.Tree.Lookup

/-!
# Towers of levels

The shape that the levels of a growing tree have between two appends. All nodes of a
level have the same height and different names; a level of more than one node has a level
above it, which holds the parents of its nodes, pair by pair; the top level has one node.
A parent records the hash of what its children record, whatever their blocks are.

Main statements: `raise_eq_ok`, putting a node at the first free place of the lowest level,
or in place of a provisional one there, ends in a tower again; `refreshEdge_eq_ok`, hashing
the right edge anew repairs a tower in which the last node of the lowest level was changed.
Both say which nodes stay as they were.
-/

namespace SealedLog

namespace Tree

/-- The nodes of a level have the height `h` and no name stands twice. -/
structure IsLevel (arena : Arena) (h : Nat) (level : Array NodeId) : Prop where
  height : ∀ {i : Nat} {id : NodeId}, level[i]? = some id →
    ∃ n, arena.get? id = some n ∧ n.level = h
  injective : ∀ {i j : Nat} {id : NodeId}, level[i]? = some id → level[j]? = some id → i = j

/-- The branch over the node `l`, whose name is `left`, and over `right?`, both of height
`h`, with the hash that these have in `arena`. -/
def branchOver (arena : Arena) (h : Nat) (l : Node) (left : NodeId)
    (right? : Option NodeId) : Node :=
  ⟨Digest.ofChildren l.hash (right?.bind arena.hash?), .branch left right? (h + 1)⟩

@[simp] theorem level_branchOver (arena : Arena) (h : Nat) (l : Node) (left : NodeId)
    (right? : Option NodeId) : (branchOver arena h l left right?).level = h + 1 := rfl

/-- The node `id` is the branch over `left` and `right?`, as these are now. -/
def Covers (arena : Arena) (h : Nat) (left : NodeId) (right? : Option NodeId)
    (id : NodeId) : Prop :=
  ∃ l, arena.get? left = some l ∧
    arena.get? id = some (branchOver arena h l left right?)

theorem branchOver_congr (arena arena' : Arena) {right? : Option NodeId}
    (hright : ∀ {right : NodeId}, right? = some right →
      arena'.get? right = arena.get? right)
    (h : Nat) (l : Node) (left : NodeId) :
    branchOver arena' h l left right? = branchOver arena h l left right? := by
  cases right? with
  | none => rfl
  | some right =>
      rw [branchOver, branchOver, Option.bind_some, Option.bind_some, Arena.hash?,
        Arena.hash?, hright rfl]

theorem Covers.congr {arena arena' : Arena} {h : Nat} {left id : NodeId}
    {right? : Option NodeId} (hcover : Covers arena h left right? id)
    (hleft : arena'.get? left = arena.get? left)
    (hright : ∀ {right : NodeId}, right? = some right → arena'.get? right = arena.get? right)
    (hid : arena'.get? id = arena.get? id) : Covers arena' h left right? id := by
  obtain ⟨l, hl, hnode⟩ := hcover
  exact ⟨l, by rw [hleft, hl], by rw [hid, hnode, branchOver_congr arena arena' hright]⟩

/-- The level `upper` holds the parents of the nodes of `lower`, pair by pair. -/
structure Linked (arena : Arena) (h : Nat) (lower upper : Array NodeId) : Prop where
  size_eq : upper.size = (lower.size + 1) / 2
  covers : ∀ {i : Nat} {left id : NodeId}, lower[2 * i]? = some left → upper[i]? = some id →
    Covers arena h left lower[2 * i + 1]? id

/-- The levels `above` stand over `lower`, a level of height `h`, up to a single node. -/
def Tower (arena : Arena) : (h : Nat) → (lower : Array NodeId) →
    (above : List (Array NodeId)) → Prop
  | h, lower, [] => IsLevel arena h lower ∧ lower.size = 1
  | h, lower, upper :: above =>
    IsLevel arena h lower ∧ 2 ≤ lower.size ∧ Linked arena h lower upper ∧
      Tower arena (h + 1) upper above

/-- Nodes of height `h` and more are in `arena'` as they are in `arena`. -/
def AgreeFrom (h : Nat) (arena arena' : Arena) : Prop :=
  ∀ {id : NodeId} {n : Node}, arena.get? id = some n → h ≤ n.level → arena'.get? id = some n

/-- Nodes below height `h` are in `arena'` as they are in `arena`. -/
def AgreeBelow (h : Nat) (arena arena' : Arena) : Prop :=
  ∀ {id : NodeId} {n : Node}, arena.get? id = some n → n.level < h → arena'.get? id = some n

theorem IsLevel.mono {arena arena' : Arena} {h : Nat} {level : Array NodeId}
    (hl : IsLevel arena h level)
    (hsame : ∀ {i : Nat} {id : NodeId} {n : Node}, level[i]? = some id → arena.get? id = some n →
      ∃ n', arena'.get? id = some n' ∧ n'.level = n.level) : IsLevel arena' h level where
  height hi := by
    obtain ⟨n, hn, hlevel⟩ := hl.height hi
    obtain ⟨n', hn', hlevel'⟩ := hsame hi hn
    exact ⟨n', hn', by rw [hlevel', hlevel]⟩
  injective := hl.injective

theorem IsLevel.getElem?_ne {arena : Arena} {h : Nat} {level : Array NodeId} {id : NodeId}
    {n : Node} (hl : IsLevel arena h level) (hn : arena.get? id = some n) (hne : n.level ≠ h)
    {i : Nat} : level[i]? ≠ some id := by
  intro hi
  obtain ⟨n', hn', hheight⟩ := hl.height hi
  rw [hn] at hn'
  cases hn'
  exact hne hheight

theorem Tower.isLevel {arena : Arena} {h : Nat} {lower : Array NodeId}
    {above : List (Array NodeId)} (ht : Tower arena h lower above) :
    IsLevel arena h lower := by
  cases above with
  | nil => exact ht.1
  | cons upper above => exact ht.1

theorem Tower.size_pos {arena : Arena} {h : Nat} {lower : Array NodeId}
    {above : List (Array NodeId)} (ht : Tower arena h lower above) : 0 < lower.size := by
  cases above with
  | nil =>
      have hone := ht.2
      omega
  | cons upper above =>
      have htwo := ht.2.1
      omega

theorem Tower.exists_top {arena : Arena} {h : Nat} {lower : Array NodeId}
    {above : List (Array NodeId)} (ht : Tower arena h lower above) {root : NodeId}
    (top : (lower :: above).getLast? = some #[root]) : ∃ n, arena.get? root = some n := by
  induction above generalizing h lower with
  | nil =>
      rw [List.getLast?_singleton, Option.some.injEq] at top
      obtain ⟨n, hn, -⟩ := ht.isLevel.height (show lower[0]? = some root by rw [top]; rfl)
      exact ⟨n, hn⟩
  | cons upper above ih => exact ih ht.2.2.2 top

/-- A tower depends on nodes of its own heights only. -/
theorem Tower.mono {arena arena' : Arena} {h : Nat} {lower : Array NodeId}
    {above : List (Array NodeId)} (ht : Tower arena h lower above)
    (hagree : AgreeFrom h arena arena') : Tower arena' h lower above := by
  induction above generalizing h lower with
  | nil =>
      refine ⟨ht.1.mono fun hi hn => ?_, ht.2⟩
      obtain ⟨m, hm, hlevel⟩ := ht.1.height hi
      rw [hn] at hm
      cases hm
      exact ⟨_, hagree hn (by omega), rfl⟩
  | cons upper above ih =>
      obtain ⟨hlower, hsize, hlink, habove⟩ := ht
      have hget : ∀ {i : Nat} {id : NodeId}, lower[i]? = some id →
          ∃ n, arena.get? id = some n ∧ arena'.get? id = some n := by
        intro i id hi
        obtain ⟨n, hn, hlevel⟩ := hlower.height hi
        exact ⟨n, hn, hagree hn (by omega)⟩
      refine ⟨hlower.mono fun hi hn => ?_, hsize, ⟨hlink.size_eq, ?_⟩,
        ih habove fun hn hle => hagree hn (by omega)⟩
      · obtain ⟨m, hm, hm'⟩ := hget hi
        rw [hn] at hm
        cases hm
        exact ⟨_, hm', rfl⟩
      · intro i left id hleft hid
        have hsame : ∀ {i : Nat} {id : NodeId}, lower[i]? = some id →
            arena'.get? id = arena.get? id := by
          intro i id hi
          obtain ⟨n, hn, hn'⟩ := hget hi
          rw [hn, hn']
        have hcover := hlink.covers hleft hid
        refine hcover.congr (hsame hleft) (fun hright => hsame hright) ?_
        obtain ⟨l, -, hnode⟩ := hcover
        rw [hnode, hagree hnode (by simp)]

/-- The place `place` of the lowest of `levels` is the first free one, or the last one. -/
def IsOpen (arena : Arena) (h : Nat) : (levels : List (Array NodeId)) → (place : Nat) → Prop
  | [], place => place = 0
  | lower :: above, place =>
    Tower arena h lower above ∧ (place = lower.size ∨ place + 1 = lower.size)

/-- What is left of the level `lower` when its place `place` is free, and the arena then. -/
structure Vacated (arena : Arena) (lower : Array NodeId) (place : Nat) (arena' : Arena)
    (level : Array NodeId) : Prop where
  size_eq : level.size = place
  front : ∀ {j : Nat}, j < place → level[j]? = lower[j]?
  get?_eq : ∀ {id : NodeId}, lower[place]? ≠ some id → arena'.get? id = arena.get? id
  slots_eq : arena'.slots.size = arena.slots.size

theorem vacate_eq (arena : Arena) {lower : Array NodeId} {place : Nat}
    (hplace : place = lower.size ∨ place + 1 = lower.size) :
    ∃ arena' level, vacate arena place lower = (arena', level) ∧
      Vacated arena lower place arena' level := by
  rcases hplace with rfl | hplace
  · refine ⟨arena, lower, ?_, rfl, fun _ => rfl, fun _ => rfl, rfl⟩
    rw [vacate, if_neg (Nat.lt_irrefl _)]
  · have hback : lower.back? = some lower[place] := by
      rw [Array.back?_eq_getElem?, show lower.size - 1 = place by omega]
      exact Array.getElem?_eq_getElem (by omega)
    refine ⟨arena.erase lower[place], lower.pop, ?_, ?_, ?_, ?_, ?_⟩
    · rw [vacate, if_pos (by omega), hback]
    · rw [Array.size_pop]
      omega
    · intro j hj
      rw [Array.getElem?_pop, if_pos (by omega)]
    · intro id hid
      apply Arena.get?_erase_ne
      intro heq
      apply hid
      rw [heq]
      exact Array.getElem?_eq_getElem (by omega)
    · exact Arena.size_slots_erase arena _

namespace Vacated

variable {arena arena' : Arena} {h place : Nat} {lower level : Array NodeId}

/-- The nodes before the place are as they were. -/
theorem get?_of_lt (v : Vacated arena lower place arena' level) (hl : IsLevel arena h lower)
    {j : Nat} {id : NodeId} (hj : j < place) (hid : lower[j]? = some id) :
    arena'.get? id = arena.get? id := by
  apply v.get?_eq
  intro hstale
  have hindex := hl.injective hid hstale
  omega

/-- So are the nodes of other heights. -/
theorem get?_of_level_ne (v : Vacated arena lower place arena' level)
    (hl : IsLevel arena h lower) {id : NodeId} {n : Node} (hn : arena.get? id = some n)
    (hne : n.level ≠ h) : arena'.get? id = some n := by
  rw [v.get?_eq (hl.getElem?_ne hn hne), hn]

theorem getElem?_eq (v : Vacated arena lower place arena' level) {j : Nat} {id : NodeId}
    (hj : level[j]? = some id) : j < place ∧ lower[j]? = some id := by
  have hlt := (Array.getElem?_eq_some_iff.1 hj).1
  rw [v.size_eq] at hlt
  exact ⟨hlt, by rw [← v.front hlt, hj]⟩

theorem isLevel (v : Vacated arena lower place arena' level) (hl : IsLevel arena h lower) :
    IsLevel arena' h level where
  height hi := by
    obtain ⟨hlt, hid⟩ := v.getElem?_eq hi
    obtain ⟨n, hn, hheight⟩ := hl.height hid
    exact ⟨n, by rw [v.get?_of_lt hl hlt hid, hn], hheight⟩
  injective hi hj := hl.injective (v.getElem?_eq hi).2 (v.getElem?_eq hj).2

end Vacated

/-- The children of the new parent are the last pair of the level with the node on it. -/
theorem pairUp_eq (level : Array NodeId) (node : NodeId) :
    ∃ left right?, pairUp level node = (left, right?) ∧
      (level.push node)[2 * (level.size / 2)]? = some left ∧
      (level.push node)[2 * (level.size / 2) + 1]? = right? := by
  rw [pairUp]
  cases hback : level.back? with
  | none =>
      rw [Array.back?_eq_none_iff] at hback
      subst hback
      exact ⟨node, none, rfl, rfl, rfl⟩
  | some last =>
      rw [Array.back?_eq_getElem?] at hback
      by_cases hodd : level.size % 2 = 1
      · have hleft : 2 * (level.size / 2) = level.size - 1 := by omega
        have hright : 2 * (level.size / 2) + 1 = level.size := by omega
        refine ⟨last, some node, by simp [hodd], ?_, ?_⟩
        · rw [hleft, Array.getElem?_push, if_neg (by omega), hback]
        · rw [hright, Array.getElem?_push, if_pos rfl]
      · have hleft : 2 * (level.size / 2) = level.size := by omega
        refine ⟨node, none, by simp [hodd], ?_, ?_⟩
        · rw [hleft, Array.getElem?_push, if_pos rfl]
        · rw [hleft, Array.getElem?_eq_none (by simp)]

theorem IsLevel.push {arena : Arena} {h : Nat} {level : Array NodeId} {node : NodeId}
    {n : Node} (hl : IsLevel arena h level) (hn : arena.get? node = some n)
    (hlevel : n.level = h) (hfresh : ∀ {i : Nat}, level[i]? ≠ some node) :
    IsLevel arena h (level.push node) where
  height {i id} hi := by
    rw [Array.getElem?_push] at hi
    split at hi
    · cases hi
      exact ⟨n, hn, hlevel⟩
    · exact hl.height hi
  injective {i j id} hi hj := by
    rw [Array.getElem?_push] at hi hj
    split at hi <;> split at hj
    · omega
    · cases hi
      exact absurd hj hfresh
    · cases hj
      exact absurd hi hfresh
    · exact hl.injective hi hj

/-- The last pair of a level has a branch over it that `newBranch` makes. -/
theorem newBranch_eq_ok {arena : Arena} {h i : Nat} {level : Array NodeId} {left : NodeId}
    (hl : IsLevel arena h level) (hleft : level[2 * i]? = some left) :
    ∃ l, arena.get? left = some l ∧
      arena.newBranch left level[2 * i + 1]? =
        .ok (arena.insert (branchOver arena h l left level[2 * i + 1]?)) := by
  obtain ⟨l, hget, hheight⟩ := hl.height hleft
  refine ⟨l, hget, ?_⟩
  have hcombine := Arena.combine_eq_ok hget level[2 * i + 1]? fun right hright => by
    obtain ⟨r, hr, hrheight⟩ := hl.height hright
    exact ⟨r, hr, by rw [hrheight, hheight]⟩
  rw [Arena.newBranch, hcombine, hheight]
  rfl

/-- What becomes of `levels` when `raise` puts `node` at `place`: the levels `lower` and
`above` with the root `root`, in the arena `arena'`. -/
structure Raised (arena : Arena) (h : Nat) (levels : List (Array NodeId)) (place : Nat)
    (node : NodeId) (arena' : Arena) (lower : Array NodeId) (above : List (Array NodeId))
    (root : NodeId) : Prop where
  tower : Tower arena' h lower above
  top : (lower :: above).getLast? = some #[root]
  size_eq : lower.size = place + 1
  last : lower[place]? = some node
  front : ∀ {j : Nat}, j < place → lower[j]? = (levels.headD #[])[j]?
  node_eq : arena'.get? node = arena.get? node
  kept : ∀ {j : Nat} {id : NodeId}, j < place → (levels.headD #[])[j]? = some id →
    arena'.get? id = arena.get? id
  below : AgreeBelow h arena arena'

theorem raise_nil_spec {arena : Arena} {h : Nat} {node : NodeId} {n : Node}
    (hn : arena.get? node = some n) (hlevel : n.level = h) :
    Raised arena h [] 0 node arena #[node] [] node where
  tower := by
    refine ⟨⟨?_, ?_⟩, rfl⟩
    · intro i id hi
      rw [Array.getElem?_singleton] at hi
      split at hi
      · cases hi
        exact ⟨n, hn, hlevel⟩
      · simp at hi
    · intro i j id hi hj
      rw [Array.getElem?_singleton] at hi hj
      split at hi <;> split at hj <;> simp_all
  top := rfl
  size_eq := rfl
  last := rfl
  front hj := absurd hj (Nat.not_lt_zero _)
  node_eq := rfl
  kept hj := absurd hj (Nat.not_lt_zero _)
  below hn _ := hn

/-- One level of `raise`, before it goes on above: the node is at the end of what is left of
the level, and the branch over the last pair has been made. -/
structure Rung (arena : Arena) (h : Nat) (lower : Array NodeId) (place : Nat) (node : NodeId)
    (arena₁ : Arena) (level : Array NodeId) (left : NodeId) (arena₂ : Arena)
    (parent : NodeId) : Prop where
  lower_isLevel : IsLevel arena h lower
  vacated : Vacated arena lower place arena₁ level
  fresh : ∀ {i : Nat}, lower[i]? ≠ some node
  isLevel : IsLevel arena₁ h (level.push node)
  pos : 0 < place
  left_eq : (level.push node)[2 * (place / 2)]? = some left
  insert_eq : ∃ l, arena₁.get? left = some l ∧ arena₁.insert
    (branchOver arena₁ h l left (level.push node)[2 * (place / 2) + 1]?) = (arena₂, parent)

namespace Rung

variable {arena arena₁ arena₂ arena₃ : Arena} {h place : Nat} {lower level upper : Array NodeId}
  {above above' : List (Array NodeId)} {node left parent root : NodeId}

theorem get?_of_some (r : Rung arena h lower place node arena₁ level left arena₂ parent)
    {id : NodeId} {n : Node} (hn : arena₁.get? id = some n) : arena₂.get? id = some n := by
  obtain ⟨l, -, hinsert⟩ := r.insert_eq
  have hins := Arena.get?_insert_of_some
    (branchOver arena₁ h l left (level.push node)[2 * (place / 2) + 1]?) hn
  rwa [hinsert] at hins

theorem get?_of_level_ne (r : Rung arena h lower place node arena₁ level left arena₂ parent)
    {id : NodeId} {n : Node} (hn : arena.get? id = some n) (hne : n.level ≠ h) :
    arena₂.get? id = some n :=
  r.get?_of_some (r.vacated.get?_of_level_ne r.lower_isLevel hn hne)

theorem index_parent (r : Rung arena h lower place node arena₁ level left arena₂ parent) :
    parent.index = arena.slots.size := by
  obtain ⟨l, -, hinsert⟩ := r.insert_eq
  have hindex := Arena.insert_snd_index arena₁
    (branchOver arena₁ h l left (level.push node)[2 * (place / 2) + 1]?)
  rw [hinsert] at hindex
  rw [hindex, r.vacated.slots_eq]

/-- The parent has the height above and is over the last pair. -/
theorem covers_parent (r : Rung arena h lower place node arena₁ level left arena₂ parent) :
    (∃ n, arena₂.get? parent = some n ∧ n.level = h + 1) ∧
      Covers arena₂ h left (level.push node)[2 * (place / 2) + 1]? parent := by
  obtain ⟨l, hl, hinsert⟩ := r.insert_eq
  have hparent := Arena.get?_insert_self arena₁
    (branchOver arena₁ h l left (level.push node)[2 * (place / 2) + 1]?)
  rw [hinsert] at hparent
  refine ⟨⟨_, hparent, rfl⟩, l, r.get?_of_some hl, ?_⟩
  rw [hparent, branchOver_congr arena₁ arena₂]
  intro right hright
  obtain ⟨m, hm, -⟩ := r.isLevel.height hright
  rw [hm, r.get?_of_some hm]

theorem getElem?_push (r : Rung arena h lower place node arena₁ level left arena₂ parent)
    {j : Nat} (hj : j < place) : (level.push node)[j]? = lower[j]? := by
  have hsize := r.vacated.size_eq
  rw [Array.getElem?_push, if_neg (by omega), r.vacated.front hj]

theorem getElem?_push_self (r : Rung arena h lower place node arena₁ level left arena₂ parent) :
    (level.push node)[place]? = some node := by
  rw [Array.getElem?_push, if_pos r.vacated.size_eq.symm]

theorem get?_eq (r : Rung arena h lower place node arena₁ level left arena₂ parent)
    (hbelow : AgreeBelow (h + 1) arena₂ arena₃) {i : Nat} {id : NodeId}
    (hi : (level.push node)[i]? = some id) :
    arena₂.get? id = arena₁.get? id ∧ arena₃.get? id = arena₁.get? id := by
  obtain ⟨n, hn, hheight⟩ := r.isLevel.height hi
  have hn₂ := r.get?_of_some hn
  exact ⟨by rw [hn₂, hn], by rw [hbelow hn₂ (by omega), hn]⟩

theorem get?_of_lt (r : Rung arena h lower place node arena₁ level left arena₂ parent)
    (hbelow : AgreeBelow (h + 1) arena₂ arena₃) {j : Nat} {id : NodeId} (hj : j < place)
    (hid : lower[j]? = some id) : arena₃.get? id = arena.get? id := by
  have hpush : (level.push node)[j]? = some id := by rw [r.getElem?_push hj, hid]
  rw [(r.get?_eq hbelow hpush).2, r.vacated.get?_of_lt r.lower_isLevel hj hid]

/-- When `raise` is through, the level above has the parents of the new level. -/
theorem linked (r : Rung arena h lower place node arena₁ level left arena₂ parent)
    (htower : Tower arena h lower above)
    (hraised : Raised arena₂ (h + 1) above (place / 2) parent arena₃ upper above' root) :
    Linked arena₃ h (level.push node) upper := by
  have hsize := r.vacated.size_eq
  refine ⟨by rw [hraised.size_eq, Array.size_push]; omega, ?_⟩
  intro i left' id hleft' hid
  have hi : i ≤ place / 2 := by
    have hlt := (Array.getElem?_eq_some_iff.1 hid).1
    rw [hraised.size_eq] at hlt
    omega
  rcases Nat.lt_or_eq_of_le hi with hi | rfl
  · -- a pair before the last has the parent that it had
    rw [hraised.front hi] at hid
    cases above with
    | nil => simp at hid
    | cons upper₀ rest =>
        rw [r.getElem?_push (by omega)] at hleft' ⊢
        have hcover := htower.2.2.1.covers hleft' hid
        refine hcover.congr (r.get?_of_lt hraised.below (by omega) hleft')
          (fun hright => r.get?_of_lt hraised.below (by omega) hright) ?_
        obtain ⟨l, -, hnode⟩ := hcover
        rw [hraised.kept hi hid, r.get?_of_level_ne hnode (by simp), hnode]
  · rw [hraised.last] at hid
    cases hid
    rw [r.left_eq] at hleft'
    cases hleft'
    have hsame : ∀ {i : Nat} {id : NodeId}, (level.push node)[i]? = some id →
        arena₃.get? id = arena₂.get? id := by
      intro i id hi
      obtain ⟨h₂, h₃⟩ := r.get?_eq hraised.below hi
      rw [h₂, h₃]
    exact r.covers_parent.2.congr (hsame r.left_eq) (fun hright => hsame hright) hraised.node_eq

/-- What `raise` does to a level, from what it does to the levels above. -/
theorem raised (r : Rung arena h lower place node arena₁ level left arena₂ parent)
    (htower : Tower arena h lower above)
    (hraised : Raised arena₂ (h + 1) above (place / 2) parent arena₃ upper above' root) :
    Raised arena h (lower :: above) place node arena₃ (level.push node) (upper :: above')
      root where
  tower := by
    have hsize := r.vacated.size_eq
    have hpos := r.pos
    refine ⟨r.isLevel.mono fun hi hn => ?_, by rw [Array.size_push]; omega,
      r.linked htower hraised, hraised.tower⟩
    exact ⟨_, by rw [(r.get?_eq hraised.below hi).2, hn], rfl⟩
  top := by rw [List.getLast?_cons_cons, hraised.top]
  size_eq := by rw [Array.size_push, r.vacated.size_eq]
  last := r.getElem?_push_self
  front := r.getElem?_push
  node_eq := by
    rw [(r.get?_eq hraised.below r.getElem?_push_self).2, r.vacated.get?_eq r.fresh]
  kept := r.get?_of_lt hraised.below
  below hn hlt := hraised.below (r.get?_of_level_ne hn (by omega)) (by omega)

end Rung

/-- The first level of `raise` succeeds where it does not end. -/
theorem exists_rung {arena arena₁ : Arena} {h place : Nat} {lower level : Array NodeId}
    {node : NodeId} {n : Node} (hl : IsLevel arena h lower)
    (v : Vacated arena lower place arena₁ level) (hn : arena.get? node = some n)
    (hlevel : n.level = h) (hfresh : ∀ {i : Nat}, lower[i]? ≠ some node) (hpos : 0 < place) :
    ∃ left right? arena₂ parent, pairUp level node = (left, right?) ∧
      arena₁.newBranch left right? = .ok (arena₂, parent) ∧
      Rung arena h lower place node arena₁ level left arena₂ parent := by
  have hn₁ : arena₁.get? node = some n := by rw [v.get?_eq hfresh, hn]
  have hnew : IsLevel arena₁ h (level.push node) :=
    (v.isLevel hl).push hn₁ hlevel fun hi => hfresh (v.getElem?_eq hi).2
  obtain ⟨left, right?, hpair, hleft, hright⟩ := pairUp_eq level node
  rw [v.size_eq] at hleft hright
  subst hright
  obtain ⟨l, hget, hbranch⟩ := newBranch_eq_ok hnew hleft
  exact ⟨left, _, _, _, hpair, hbranch, hl, v, hfresh, hnew, hpos, hleft, l, hget, rfl⟩

/-- Above that level the tower is open at the place of the parent, whose name is new. -/
theorem Rung.isOpen {arena arena₁ arena₂ : Arena} {h place : Nat} {lower level : Array NodeId}
    {above : List (Array NodeId)} {node left parent : NodeId}
    (r : Rung arena h lower place node arena₁ level left arena₂ parent)
    (htower : Tower arena h lower above)
    (hplace : place = lower.size ∨ place + 1 = lower.size) :
    IsOpen arena₂ (h + 1) above (place / 2) ∧
      ∀ {i : Nat}, (above.headD #[])[i]? ≠ some parent := by
  have hpos := r.pos
  cases above with
  | nil =>
      have hone := htower.2
      refine ⟨?_, fun hi => by simp at hi⟩
      change place / 2 = 0
      omega
  | cons upper rest =>
      have hupper := htower.2.2.1.size_eq
      refine ⟨⟨htower.2.2.2.mono fun hm hle => r.get?_of_level_ne hm (by omega), by omega⟩, ?_⟩
      intro i hi
      obtain ⟨m, hm, -⟩ := htower.2.2.2.isLevel.height hi
      have hlt := Arena.lt_size_of_get? hm
      rw [r.index_parent] at hlt
      omega

/-- What `raise` does on a level: the node takes the place of the only one there and is the root,
or it goes to the end of the level and the branch over the last pair is raised above. -/
theorem raise_cons_cases {arena : Arena} {h place : Nat} {lower : Array NodeId}
    {above : List (Array NodeId)} {node : NodeId} {n : Node} (htower : Tower arena h lower above)
    (hplace : place = lower.size ∨ place + 1 = lower.size) (hn : arena.get? node = some n)
    (hlevel : n.level = h) (hfresh : ∀ {i : Nat}, lower[i]? ≠ some node) :
    ∃ arena₁ level, vacate arena place lower = (arena₁, level) ∧
      Vacated arena lower place arena₁ level ∧
      ((place = 0 ∧ above = [] ∧ level = #[] ∧
          raise arena (lower :: above) place node = .ok (arena₁, [#[node]], node)) ∨
        ∃ left arena₂ parent, Rung arena h lower place node arena₁ level left arena₂ parent ∧
          raise arena (lower :: above) place node =
            (raise arena₂ above (place / 2) parent).map fun (arena₃, above', root) =>
              (arena₃, level.push node :: above', root)) := by
  obtain ⟨arena₁, level, hvacate, v⟩ := vacate_eq arena hplace
  have hsize := v.size_eq
  refine ⟨arena₁, level, hvacate, v, ?_⟩
  by_cases hzero : place = 0
  · left
    have habove : above = [] := by
      cases above with
      | nil => rfl
      | cons upper rest =>
          have htwo := htower.2.1
          omega
    subst hzero habove
    obtain rfl : level = #[] := Array.size_eq_zero_iff.1 hsize
    refine ⟨rfl, rfl, rfl, ?_⟩
    rw [raise, hvacate]
    rfl
  · right
    have hempty : level.isEmpty = false := by
      rw [Array.isEmpty_eq_false_iff, ← Array.size_pos_iff]
      omega
    obtain ⟨left, right?, arena₂, parent, hpair, hbranch, r⟩ :=
      exists_rung htower.isLevel v hn hlevel hfresh (Nat.pos_of_ne_zero hzero)
    refine ⟨left, arena₂, parent, r, ?_⟩
    rw [raise, hvacate]
    simp only [hempty, Bool.false_and, Bool.false_eq_true, if_false, hpair, hbranch, bind,
      Except.bind, hsize]
    cases raise arena₂ above (place / 2) parent with
    | error e => rfl
    | ok raised => rfl

/-- Putting a node at the free end of a tower succeeds and leaves a tower. -/
theorem raise_eq_ok {levels : List (Array NodeId)} {arena : Arena} {h place : Nat}
    {node : NodeId} {n : Node} (hopen : IsOpen arena h levels place)
    (hn : arena.get? node = some n) (hlevel : n.level = h)
    (hfresh : ∀ {i : Nat}, (levels.headD #[])[i]? ≠ some node) :
    ∃ arena' lower above root, raise arena levels place node = .ok (arena', lower :: above, root) ∧
      Raised arena h levels place node arena' lower above root := by
  induction levels generalizing arena h place node n with
  | nil =>
      obtain rfl : place = 0 := hopen
      exact ⟨arena, #[node], [], node, rfl, raise_nil_spec hn hlevel⟩
  | cons lower above ih =>
      obtain ⟨htower, hplace⟩ := hopen
      obtain ⟨arena₁, level, -, v, ⟨rfl, rfl, rfl, hraise⟩ | ⟨left, arena₂, parent, r, hraise⟩⟩ :=
        raise_cons_cases htower hplace hn hlevel hfresh
      · -- the only node of a top level is replaced
        refine ⟨arena₁, #[node], [], node, hraise, ?_⟩
        have hn₁ : arena₁.get? node = some n := by rw [v.get?_eq hfresh, hn]
        exact {
          raise_nil_spec hn₁ hlevel with
          front := fun hj => absurd hj (Nat.not_lt_zero _)
          node_eq := v.get?_eq hfresh
          kept := fun hj => absurd hj (Nat.not_lt_zero _)
          below := fun hm hlt => v.get?_of_level_ne htower.isLevel hm (by omega) }
      · obtain ⟨hopen, hunused⟩ := r.isOpen htower hplace
        obtain ⟨m, hparent, hheight⟩ := r.covers_parent.1
        obtain ⟨arena₃, upper, above', root, hrest, hraised⟩ := ih hopen hparent hheight hunused
        exact ⟨arena₃, level.push node, upper :: above', root, by rw [hraise, hrest]; rfl,
          r.raised htower hraised⟩

/-- Hashing anew the branch over a pair of a level gives it the hash that the pair has now. -/
theorem refresh_eq_ok {arena : Arena} {h i : Nat} {level : Array NodeId}
    {left id : NodeId} {hash : Hash} (hl : IsLevel arena h level)
    (hleft : level[2 * i]? = some left)
    (hid : arena.get? id = some ⟨hash, .branch left level[2 * i + 1]? (h + 1)⟩) :
    ∃ l, arena.get? left = some l ∧
      arena.refresh id = .ok (arena.set id (branchOver arena h l left level[2 * i + 1]?)) := by
  obtain ⟨l, hget, hheight⟩ := hl.height hleft
  refine ⟨l, hget, ?_⟩
  have hcombine := Arena.combine_eq_ok hget level[2 * i + 1]? fun right hright => by
    obtain ⟨r, hr, hrheight⟩ := hl.height hright
    exact ⟨r, hr, by rw [hrheight, hheight]⟩
  simp only [Arena.refresh, hid, hcombine]
  rfl

/-- A level stays one if only one node is changed, and keeps its height. -/
theorem IsLevel.of_changed {arena arena' : Arena} {h : Nat} {level : Array NodeId}
    {changed : NodeId} {n : Node} (hl : IsLevel arena h level)
    (hsame : ∀ {id : NodeId}, id ≠ changed → arena'.get? id = arena.get? id)
    (hn : arena'.get? changed = some n) (hlevel : n.level = h) : IsLevel arena' h level := by
  apply hl.mono
  intro i id m hi hm
  by_cases hid : id = changed
  · subst hid
    obtain ⟨m', hm', hheight⟩ := hl.height hi
    rw [hm] at hm'
    cases hm'
    exact ⟨n, hn, by rw [hlevel, hheight]⟩
  · exact ⟨m, by rw [hsame hid, hm], rfl⟩

/-- The levels stay linked where the last node of the lower one is changed, if then the
parent of the last pair is over it and the other parents are as they were. -/
theorem Linked.of_changed {arena arena' : Arena} {h : Nat} {lower upper : Array NodeId}
    {last parent : NodeId} (hlink : Linked arena h lower upper)
    (hl : IsLevel arena h lower) (hlast : lower[lower.size - 1]? = some last)
    (hparent : upper[upper.size - 1]? = some parent)
    (hlow : ∀ {i : Nat} {id : NodeId}, lower[i]? = some id → id ≠ last →
      arena'.get? id = arena.get? id)
    (hup : ∀ {i : Nat} {id : NodeId}, upper[i]? = some id → id ≠ parent →
      arena'.get? id = arena.get? id)
    (hu : IsLevel arena (h + 1) upper)
    (hcover : ∀ {left : NodeId}, lower[2 * (upper.size - 1)]? = some left →
      Covers arena' h left lower[2 * (upper.size - 1) + 1]? parent) :
    Linked arena' h lower upper := by
  have hsize := hlink.size_eq
  refine ⟨hsize, ?_⟩
  intro i left id hleft hid
  by_cases hi : i = upper.size - 1
  · subst hi
    rw [hparent] at hid
    cases hid
    exact hcover hleft
  · -- a pair before the last one does not have the last node in it
    have hlt := (Array.getElem?_eq_some_iff.1 hid).1
    have hne : ∀ {j : Nat} {child : NodeId}, j < 2 * i + 2 → lower[j]? = some child →
        arena'.get? child = arena.get? child := by
      intro j child hj hchild
      refine hlow hchild ?_
      rintro rfl
      have hindex := hl.injective hchild hlast
      omega
    refine (hlink.covers hleft hid).congr (hne (by omega) hleft)
      (fun hright => hne (by omega) hright) (hup hid ?_)
    rintro rfl
    exact hi (hu.injective hid hparent)

/-- If only the last node of the lowest level of a tower was changed, hashing the right edge
anew succeeds and leaves a tower, with the nodes of that level as they were. -/
theorem refreshEdge_eq_ok {above : List (Array NodeId)} {arena arena₁ : Arena} {h : Nat}
    {lower : Array NodeId} {last : NodeId} {n : Node} (ht : Tower arena h lower above)
    (hlast : lower[lower.size - 1]? = some last)
    (hsame : ∀ {id : NodeId}, id ≠ last → arena₁.get? id = arena.get? id)
    (hn : arena₁.get? last = some n) (hlevel : n.level = h) :
    ∃ arena₂, refreshEdge arena₁ above = .ok arena₂ ∧ Tower arena₂ h lower above ∧
      AgreeBelow (h + 1) arena₁ arena₂ := by
  have hlower : IsLevel arena₁ h lower := ht.isLevel.of_changed hsame hn hlevel
  induction above generalizing arena arena₁ h lower last n with
  | nil => exact ⟨arena₁, rfl, ⟨hlower, ht.2⟩, fun hm _ => hm⟩
  | cons upper rest ih =>
      have hsize := ht.2.1
      have hlink := ht.2.2.1
      have hupper := hlink.size_eq
      have hagree : AgreeFrom (h + 1) arena arena₁ := by
        intro id m hm hle
        rw [hsame, hm]
        rintro rfl
        exact ht.isLevel.getElem?_ne hm (by omega) hlast
      have habove := ht.2.2.2.mono hagree
      -- the parent of the last node is the last node of the level above
      obtain ⟨id, hid⟩ : ∃ id, upper[upper.size - 1]? = some id :=
        ⟨upper[upper.size - 1], Array.getElem?_eq_getElem (by omega)⟩
      obtain ⟨left, hleft⟩ : ∃ left, lower[2 * (upper.size - 1)]? = some left :=
        ⟨lower[2 * (upper.size - 1)], Array.getElem?_eq_getElem (by omega)⟩
      obtain ⟨l, -, hcover⟩ := hlink.covers hleft hid
      have hcover₁ := hagree hcover (by simp)
      obtain ⟨l₁, hl₁, hrefresh⟩ := refresh_eq_ok hlower hleft hcover₁
      have hset := Arena.get?_set_self
        (branchOver arena₁ h l₁ left lower[2 * (upper.size - 1) + 1]?) hcover₁
      have hset_ne := fun {other : NodeId} (hother : other ≠ id) => Arena.get?_set_ne arena₁
        (branchOver arena₁ h l₁ left lower[2 * (upper.size - 1) + 1]?) hother
      generalize arena₁.set id (branchOver arena₁ h l₁ left lower[2 * (upper.size - 1) + 1]?) =
        arena₂ at hrefresh hset hset_ne
      obtain ⟨arena₃, hedge, htower₃, hbelow₃⟩ := ih habove hid hset_ne hset rfl
        (habove.isLevel.of_changed hset_ne hset rfl)
      have hkept : ∀ {other : NodeId} {m : Node}, arena₁.get? other = some m → m.level ≤ h →
          arena₃.get? other = some m := by
        intro other m hm hle
        apply hbelow₃ _ (by omega)
        rw [hset_ne, hm]
        rintro rfl
        exact habove.isLevel.getElem?_ne hm (by omega) hid
      have hlow : ∀ {i : Nat} {other : NodeId}, lower[i]? = some other →
          arena₃.get? other = arena₁.get? other := by
        intro i other hi
        obtain ⟨m, hm, hheight⟩ := hlower.height hi
        rw [hm, hkept hm (by omega)]
      refine ⟨arena₃, ?_, ⟨hlower.mono fun hi hm => ⟨_, by rw [hlow hi, hm], rfl⟩, hsize, ?_,
        htower₃⟩, fun hm hle => hkept hm (by omega)⟩
      · have hback : upper.back? = some id := by rw [Array.back?_eq_getElem?, hid]
        simp only [refreshEdge, hback, hrefresh, bind, Except.bind, hedge]
      · refine hlink.of_changed ht.isLevel hlast hid (fun hi hne => ?_) (fun hi hne => ?_)
          ht.2.2.2.isLevel fun hleft' => ?_
        · rw [hlow hi, hsame hne]
        · obtain ⟨m, hm, hheight⟩ := ht.2.2.2.isLevel.height hi
          rw [hbelow₃ (by rw [hset_ne hne, hagree hm (by omega)]) (by omega), hm]
        · rw [hleft] at hleft'
          cases hleft'
          refine ⟨l₁, by rw [hlow hleft, hl₁], ?_⟩
          rw [hbelow₃ hset (by simp), branchOver_congr arena₁ arena₃]
          exact fun hright => hlow hright

end Tree

end SealedLog
