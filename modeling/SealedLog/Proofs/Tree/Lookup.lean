import SealedLog.Tree.Basic

/-!
# Looking up nodes

What each operation of the arena does to the nodes it holds, said through `get?` alone.
Together the lemmas are the reason why a name never comes to mean another node: an
insertion answers to a name that had no slot, and every other operation leaves the names
it is not given as they were.
-/

namespace SealedLog

namespace Arena

theorem get?_of_size_le {arena : Arena} {id : NodeId} (h : arena.slots.size ≤ id.index) :
    arena.get? id = none := by
  rw [get?, Array.getElem?_eq_none h]
  rfl

theorem lt_size_of_get? {arena : Arena} {id : NodeId} {node : Node}
    (h : arena.get? id = some node) : id.index < arena.slots.size := by
  cases Nat.lt_or_ge id.index arena.slots.size with
  | inl hlt => exact hlt
  | inr hge =>
      rw [get?_of_size_le hge] at h
      simp at h

@[simp] theorem insert_snd_index (arena : Arena) (node : Node) :
    (arena.insert node).2.index = arena.slots.size := rfl

@[simp] theorem get?_insert_self (arena : Arena) (node : Node) :
    (arena.insert node).1.get? (arena.insert node).2 = some node := by
  simp [insert, get?]

theorem get?_insert_of_lt {arena : Arena} {node : Node} {id : NodeId}
    (h : id.index < arena.slots.size) : (arena.insert node).1.get? id = arena.get? id := by
  simp only [insert, get?]
  rw [Array.getElem?_push_lt h, Array.getElem?_eq_getElem h]

theorem get?_insert_of_some {arena : Arena} (new : Node) {id : NodeId} {node : Node}
    (h : arena.get? id = some node) : (arena.insert new).1.get? id = some node := by
  rw [get?_insert_of_lt (lt_size_of_get? h), h]

theorem get?_set_self {arena : Arena} {id : NodeId} {old : Node} (new : Node)
    (h : arena.get? id = some old) : (arena.set id new).get? id = some new := by
  have hlt := lt_size_of_get? h
  simp [set, get?, hlt]

theorem get?_set_ne (arena : Arena) (new : Node) {id other : NodeId} (h : other ≠ id) :
    (arena.set id new).get? other = arena.get? other := by
  have hindex : id.index ≠ other.index := fun heq => h (by
    cases id
    cases other
    simpa using heq.symm)
  simp [set, get?, Array.getElem?_setIfInBounds_ne hindex]

theorem get?_erase_ne (arena : Arena) {id other : NodeId} (h : other ≠ id) :
    (arena.erase id).get? other = arena.get? other := by
  have hindex : id.index ≠ other.index := fun heq => h (by
    cases id
    cases other
    simpa using heq.symm)
  simp [erase, get?, Array.getElem?_setIfInBounds_ne hindex]

@[simp] theorem size_slots_erase (arena : Arena) (id : NodeId) :
    (arena.erase id).slots.size = arena.slots.size := by
  simp [erase]

/-- The recorded hash of the node of that name. -/
def hash? (arena : Arena) (id : NodeId) : Option Hash :=
  (arena.get? id).map Node.hash

theorem hash?_of_get? {arena : Arena} {id : NodeId} {node : Node}
    (h : arena.get? id = some node) : arena.hash? id = some node.hash := by
  rw [hash?, h, Option.map_some]

/-- Over two nodes of one height, `combine` gives the hash of both and the height above. -/
theorem combine_eq_ok {arena : Arena} {left : NodeId} {l : Node}
    (hl : arena.get? left = some l) (right? : Option NodeId)
    (hr : ∀ right, right? = some right → ∃ r, arena.get? right = some r ∧ r.level = l.level) :
    arena.combine left right? =
      .ok (Digest.ofChildren l.hash (right?.bind arena.hash?), l.level + 1) := by
  rw [combine, hl]
  cases right? with
  | none => rfl
  | some right =>
      obtain ⟨r, hget, hlevel⟩ := hr right rfl
      simp only [hget, Option.bind_some, hash?_of_get? hget, hlevel, Nat.max_self]

end Arena

end SealedLog
