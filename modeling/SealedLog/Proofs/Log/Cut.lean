import SealedLog.Proofs.Tree.Batch
import Mathlib.Data.List.Induction
import Mathlib.Data.List.Infix

/-!
# Events cut into trees

Which events go into which tree of a log, said without a log. The cut is greedy: events go
into the current tree until that is full, and the next event starts a new tree behind a first
block, which is the root of the full one. `Cut.trees` are the blocks of all trees, those of
the current one last.

Events that follow leave the closed trees as they are and only add to the current one:
`Extends`. What the current tree of some earlier moment held is therefore a `StateOf` the
tree of that index. A state of any tree but the first has the block that links it to the tree
before, and `Apart` says of all trees that no two states of different ones have one root.
-/

namespace SealedLog

/-- The blocks of the full trees, the oldest first, and those of the current one. -/
structure Cut where
  closed : List (List String)
  current : List String
deriving DecidableEq, Repr

namespace Cut

def empty : Cut := ⟨[], []⟩

def capacity (maxLeaves : Nat) : Nat :=
  leafCapacity * max maxLeaves 1

def trees (c : Cut) : List (List String) :=
  c.closed ++ [c.current]

/-- The current tree is closed and the next one holds its root. -/
def next (c : Cut) : Cut :=
  ⟨c.trees, [Batch.root c.current]⟩

def push (c : Cut) (block : String) : Cut :=
  { c with current := c.current ++ [block] }

/-- A full tree is closed. -/
def roll (maxLeaves : Nat) (c : Cut) : Cut :=
  if capacity maxLeaves ≤ c.current.length then c.next else c

def add (maxLeaves : Nat) (c : Cut) (payload : String) : Cut :=
  (c.roll maxLeaves).push payload

def ofEvents (maxLeaves : Nat) (events : List String) : Cut :=
  events.foldl (add maxLeaves) empty

@[simp] theorem ofEvents_nil (maxLeaves : Nat) : ofEvents maxLeaves [] = empty := rfl

theorem ofEvents_concat (maxLeaves : Nat) (events : List String) (payload : String) :
    ofEvents maxLeaves (events ++ [payload]) =
      (ofEvents maxLeaves events).add maxLeaves payload := by
  simp [ofEvents]

theorem capacity_pos (maxLeaves : Nat) : 0 < capacity maxLeaves := by
  simp only [capacity, leafCapacity]
  omega

@[simp] theorem closed_push (c : Cut) (block : String) : (c.push block).closed = c.closed := rfl

@[simp] theorem closed_next (c : Cut) : c.next.closed = c.trees := rfl

@[simp] theorem length_trees (c : Cut) : c.trees.length = c.closed.length + 1 := by
  simp [trees]

theorem getElem?_trees_of_lt {c : Cut} {i : Nat} (h : i < c.closed.length) :
    c.trees[i]? = c.closed[i]? := by
  rw [trees, List.getElem?_append_left h]

@[simp] theorem getElem?_trees_length (c : Cut) : c.trees[c.closed.length]? = some c.current := by
  rw [trees, List.getElem?_concat_length]

/-- The trees are linked, and the closed ones are the full ones. -/
structure Valid (maxLeaves : Nat) (c : Cut) : Prop where
  full : ∀ {bs : List String}, bs ∈ c.closed → bs.length = capacity maxLeaves
  room : c.current.length ≤ capacity maxLeaves
  linked : ∀ {i : Nat} {bs cs : List String}, c.trees[i]? = some bs →
    c.trees[i + 1]? = some cs → cs.head? = some (Batch.root bs)

theorem valid_empty (maxLeaves : Nat) : Valid maxLeaves empty where
  full h := by simp [empty] at h
  room := Nat.zero_le _
  linked {i bs cs} _ h := by simp [trees, empty] at h

theorem Valid.roll {maxLeaves : Nat} {c : Cut} (h : c.Valid maxLeaves) :
    (c.roll maxLeaves).Valid maxLeaves ∧
      (c.roll maxLeaves).current.length < capacity maxLeaves := by
  have hpos := capacity_pos maxLeaves
  rw [Cut.roll]
  split
  · next hfull =>
      have hone : c.next.current.length < capacity maxLeaves := by
        simp only [Cut.next, List.length_singleton, capacity, leafCapacity]
        omega
      refine ⟨⟨?_, Nat.le_of_lt hone, ?_⟩, hone⟩
      · intro bs hbs
        rw [closed_next, trees, List.mem_append, List.mem_singleton] at hbs
        rcases hbs with hbs | rfl
        · exact h.full hbs
        · exact Nat.le_antisymm h.room hfull
      · intro i bs cs hi hnext
        have hlt : i < c.trees.length := by
          have hlength := (List.getElem?_eq_some_iff.1 hnext).1
          rw [length_trees, closed_next] at hlength
          omega
        rw [getElem?_trees_of_lt (by rwa [closed_next]), closed_next] at hi
        by_cases hlast : i + 1 < c.trees.length
        · rw [getElem?_trees_of_lt (by rwa [closed_next]), closed_next] at hnext
          exact h.linked hi hnext
        · have hplace : i = c.closed.length := by
            rw [length_trees] at hlt hlast
            omega
          subst hplace
          rw [getElem?_trees_length, Option.some.injEq] at hi
          have htop := getElem?_trees_length c.next
          rw [closed_next, length_trees, hnext, Option.some.injEq] at htop
          rw [htop, ← hi]
          rfl
  · next hroom => exact ⟨h, by omega⟩

theorem Valid.push {maxLeaves : Nat} {c : Cut} (h : c.Valid maxLeaves)
    (hroom : c.current.length < capacity maxLeaves) (block : String) :
    (c.push block).Valid maxLeaves where
  full := h.full
  room := by
    simp only [Cut.push, List.length_append, List.length_singleton]
    omega
  linked {i bs cs} hi hnext := by
    have hlt := (List.getElem?_eq_some_iff.1 hnext).1
    rw [length_trees, closed_push] at hlt
    rw [getElem?_trees_of_lt (by rw [closed_push]; omega), closed_push,
      ← getElem?_trees_of_lt (by omega)] at hi
    by_cases hlast : i + 1 < c.closed.length
    · rw [getElem?_trees_of_lt (by rwa [closed_push]), closed_push,
        ← getElem?_trees_of_lt hlast] at hnext
      exact h.linked hi hnext
    · have hplace : i + 1 = c.closed.length := by omega
      have htop := getElem?_trees_length (c.push block)
      rw [closed_push, ← hplace, hnext, Option.some.injEq] at htop
      have hhead := h.linked hi (by rw [hplace, getElem?_trees_length])
      rw [htop, Cut.push, List.head?_append, hhead, Option.some_or]

theorem Valid.add {maxLeaves : Nat} {c : Cut} (h : c.Valid maxLeaves) (payload : String) :
    (c.add maxLeaves payload).Valid maxLeaves :=
  h.roll.1.push h.roll.2 payload

theorem valid_ofEvents (maxLeaves : Nat) (events : List String) :
    (ofEvents maxLeaves events).Valid maxLeaves := by
  induction events using List.reverseRecOn with
  | nil => exact valid_empty maxLeaves
  | append_singleton events payload ih =>
      rw [ofEvents_concat]
      exact ih.add payload

/-- The trees `T` hold what the trees `S` hold and possibly more, behind the last of `S`. -/
def Extends (S T : List (List String)) : Prop :=
  ∀ (i : Nat) (bs : List String), S[i]? = some bs →
    ∃ cs, T[i]? = some cs ∧ bs <+: cs ∧ (i + 1 < S.length → cs = bs)

theorem Extends.refl (S : List (List String)) : Extends S S := fun _ bs hi =>
  ⟨bs, hi, List.prefix_refl _, fun _ => rfl⟩

theorem Extends.length_le {S T : List (List String)} (h : Extends S T) :
    S.length ≤ T.length := by
  by_cases hS : S.length = 0
  · omega
  · obtain ⟨cs, hcs, -⟩ :=
      h _ _ (List.getElem?_eq_getElem (show S.length - 1 < S.length by omega))
    have hlt := (List.getElem?_eq_some_iff.1 hcs).1
    omega

theorem Extends.trans {S T U : List (List String)} (h : Extends S T) (h' : Extends T U) :
    Extends S U := by
  intro i bs hi
  obtain ⟨cs, hcs, hpre, heq⟩ := h i bs hi
  obtain ⟨ds, hds, hpre', heq'⟩ := h' i cs hcs
  refine ⟨ds, hds, hpre.trans hpre', fun hlt => ?_⟩
  have hlength := h.length_le
  rw [heq' (by omega), heq hlt]

theorem extends_push (c : Cut) (block : String) : Extends c.trees (c.push block).trees := by
  intro i bs hi
  have hlt := (List.getElem?_eq_some_iff.1 hi).1
  rw [length_trees] at hlt ⊢
  by_cases hlast : i < c.closed.length
  · refine ⟨bs, ?_, List.prefix_refl _, fun _ => rfl⟩
    rwa [getElem?_trees_of_lt (by rwa [closed_push]), closed_push, ← getElem?_trees_of_lt hlast]
  · have hplace : i = c.closed.length := by omega
    subst hplace
    rw [getElem?_trees_length, Option.some.injEq] at hi
    refine ⟨bs ++ [block], ?_, List.prefix_append _ _, fun h => by omega⟩
    rw [← closed_push c block, getElem?_trees_length, ← hi]
    rfl

theorem extends_next (c : Cut) : Extends c.trees c.next.trees := by
  intro i bs hi
  have hlt := (List.getElem?_eq_some_iff.1 hi).1
  refine ⟨bs, ?_, List.prefix_refl _, fun _ => rfl⟩
  rwa [getElem?_trees_of_lt (by rwa [closed_next]), closed_next]

theorem extends_roll (maxLeaves : Nat) (c : Cut) : Extends c.trees (c.roll maxLeaves).trees := by
  rw [roll]
  split
  · exact extends_next c
  · exact Extends.refl _

theorem extends_add (maxLeaves : Nat) (c : Cut) (payload : String) :
    Extends c.trees (c.add maxLeaves payload).trees :=
  (extends_roll maxLeaves c).trans (extends_push _ payload)

theorem extends_foldl_add (maxLeaves : Nat) (c : Cut) (events : List String) :
    Extends c.trees (events.foldl (add maxLeaves) c).trees := by
  induction events generalizing c with
  | nil => exact Extends.refl _
  | cons payload events ih => exact (extends_add maxLeaves c payload).trans (ih _)

theorem extends_ofEvents (maxLeaves : Nat) {events events' : List String}
    (h : events <+: events') :
    Extends (ofEvents maxLeaves events).trees (ofEvents maxLeaves events').trees := by
  obtain ⟨further, rfl⟩ := h
  rw [ofEvents, ofEvents, List.foldl_append]
  exact extends_foldl_add maxLeaves _ further

/-- The tree of index `i` holds `bs`, with its link, at some moment. -/
def StateOf (T : List (List String)) (i : Nat) (bs : List String) : Prop :=
  (∃ cs, T[i]? = some cs ∧ bs <+: cs) ∧ (0 < i → bs ≠ [])

theorem StateOf.mono {S T : List (List String)} {i : Nat} {bs : List String}
    (h : StateOf S i bs) (hext : Extends S T) : StateOf T i bs := by
  obtain ⟨⟨cs, hcs, hpre⟩, hne⟩ := h
  obtain ⟨ds, hds, hpre', -⟩ := hext i cs hcs
  exact ⟨⟨ds, hds, hpre.trans hpre'⟩, hne⟩

theorem StateOf.lt_length {T : List (List String)} {i : Nat} {bs : List String}
    (h : StateOf T i bs) : i < T.length := by
  obtain ⟨⟨cs, hcs, -⟩, -⟩ := h
  exact (List.getElem?_eq_some_iff.1 hcs).1

theorem Valid.stateOf {maxLeaves : Nat} {c : Cut} (h : c.Valid maxLeaves) {i : Nat}
    {bs : List String} (hi : c.trees[i]? = some bs) : StateOf c.trees i bs := by
  refine ⟨⟨bs, hi, List.prefix_refl _⟩, fun hpos hnil => ?_⟩
  subst hnil
  have hlt := (List.getElem?_eq_some_iff.1 hi).1
  have hhead := h.linked (List.getElem?_eq_getElem (show i - 1 < c.trees.length by omega))
    (show c.trees[i - 1 + 1]? = some [] by rwa [Nat.sub_add_cancel hpos])
  simp at hhead

theorem Valid.stateOf_current {maxLeaves : Nat} {c : Cut} (h : c.Valid maxLeaves) :
    StateOf c.trees c.closed.length c.current :=
  h.stateOf (getElem?_trees_length c)

theorem stateOf_next (c : Cut) : StateOf c.next.trees c.trees.length [Batch.root c.current] := by
  have htop := getElem?_trees_length c.next
  rw [closed_next] at htop
  exact ⟨⟨c.next.current, htop, List.prefix_refl _⟩, fun _ => by simp⟩

/-- No two states of different trees have one root. -/
def Apart (T : List (List String)) : Prop :=
  ∀ (i j : Nat) (bs cs : List String), StateOf T i bs → StateOf T j cs →
    Batch.root bs = Batch.root cs → i = j

theorem apart_of_length_le_one {T : List (List String)} (h : T.length ≤ 1) : Apart T := by
  intro i j bs cs hb hc _
  have hi := hb.lt_length
  have hj := hc.lt_length
  omega

theorem apart_empty : Apart empty.trees :=
  apart_of_length_le_one (Nat.le_refl 1)

theorem Apart.mono {S T : List (List String)} (h : Apart T) (hext : Extends S T) : Apart S :=
  fun i j bs cs hb hc hroot => h i j bs cs (hb.mono hext) (hc.mono hext) hroot

/-- Four events that fill a tree of one leaf, and one that goes into the next tree. -/
def blanks : List String := ["", "", "", "", "x"]

theorem root_blank : Batch.root ["", "", "", ""] = Digest.emptyRoot := by
  rw [Batch.root, Batch.rootText_of_length_le (by decide)]
  exact Digest.ofText_empty

theorem ofEvents_blanks :
    ofEvents 1 blanks = ⟨[["", "", "", ""]], [Digest.emptyRoot, "x"]⟩ := by
  rw [← root_blank]
  rfl

theorem ofText_ne_emptyRoot : Digest.ofText Digest.emptyRoot ≠ Digest.emptyRoot ∧
    Digest.ofText (Digest.emptyRoot ++ "x") ≠ Digest.emptyRoot := by
  decide +kernel

theorem root_eq_emptyRoot_iff {i : Nat} {bs : List String}
    (h : StateOf (ofEvents 1 blanks).trees i bs) :
    Batch.root bs = Digest.emptyRoot ↔ i = 0 := by
  obtain ⟨⟨cs, hcs, hpre⟩, hne⟩ := h
  have hlt := (List.getElem?_eq_some_iff.1 hcs).1
  rw [ofEvents_blanks] at hcs hlt
  change i < 2 at hlt
  obtain rfl | rfl : i = 0 ∨ i = 1 := by omega
  · obtain rfl : ["", "", "", ""] = cs := Option.some.inj hcs
    have hjoin : String.join bs = "" := by
      have hmem := (List.mem_inits _ _).2 hpre
      simp only [List.inits, List.map_cons, List.map_nil, List.mem_cons, List.not_mem_nil,
        or_false] at hmem
      rcases hmem with rfl | rfl | rfl | rfl | rfl <;> rfl
    rw [Batch.root, Batch.rootText_of_length_le hpre.length_le, hjoin, Digest.ofText_empty]
    exact ⟨fun _ => rfl, fun _ => rfl⟩
  · obtain rfl : [Digest.emptyRoot, "x"] = cs := Option.some.inj hcs
    refine iff_of_false ?_ (by decide)
    rw [Batch.root, Batch.rootText_of_length_le
      (Nat.le_trans hpre.length_le (by decide))]
    have hmem := (List.mem_inits _ _).2 hpre
    simp only [List.inits, List.map_cons, List.map_nil, List.mem_cons, List.not_mem_nil,
      or_false] at hmem
    rcases hmem with rfl | rfl | rfl
    · exact absurd rfl (hne (by decide))
    · rw [show String.join [Digest.emptyRoot] = Digest.emptyRoot by decide]
      exact ofText_ne_emptyRoot.1
    · rw [show String.join [Digest.emptyRoot, "x"] = Digest.emptyRoot ++ "x" by decide]
      exact ofText_ne_emptyRoot.2

theorem apart_blanks : Apart (ofEvents 1 blanks).trees := by
  intro i j bs cs hb hc hroot
  have hi := root_eq_emptyRoot_iff hb
  have hj := root_eq_emptyRoot_iff hc
  have hlti := hb.lt_length
  have hltj := hc.lt_length
  rw [ofEvents_blanks] at hlti hltj
  change i < 2 at hlti
  change j < 2 at hltj
  rw [hroot, hj] at hi
  omega

end Cut

end SealedLog
