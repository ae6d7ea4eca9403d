import Mathlib

/-! # Max-heaps

`std::collections::BinaryHeap` seen through its contract: `push` adds an
item, `peek` shows a greatest item under the heap's order and `pop` removes
it. The heap is the list of its items from greatest to least under `r`
(`r a b`: `a` comes out no later than `b`). Which of several equal items
comes out first is the implementation's choice; nothing proved here depends
on it. -/

namespace ElasticStream.Collections

/-- A max-heap under `r`: its items, each related by `r` to every later one. -/
structure Heap (α : Type) (r : α → α → Prop) where
  items : List α
  sorted : items.Pairwise r

namespace Heap

variable {α : Type} {r : α → α → Prop}

def empty : Heap α r := ⟨[], List.Pairwise.nil⟩

def isEmpty (h : Heap α r) : Bool := h.items.isEmpty

def len (h : Heap α r) : Nat := h.items.length

def peek (h : Heap α r) : Option α := h.items.head?

def pop : Heap α r → Option (α × Heap α r)
  | ⟨[], _⟩ => none
  | ⟨x :: xs, hs⟩ => some (x, ⟨xs, hs.of_cons⟩)

section Push

variable [DecidableRel r] [Std.Total r] [IsTrans α r]

def push (h : Heap α r) (x : α) : Heap α r := ⟨h.items.orderedInsert r x, h.sorted.orderedInsert x _⟩

theorem push_perm (h : Heap α r) (x : α) : (h.push x).items.Perm (x :: h.items) :=
  List.perm_orderedInsert r x h.items

end Push

@[simp] theorem empty_items : (empty : Heap α r).items = [] := rfl

theorem isEmpty_iff {h : Heap α r} : h.isEmpty = true ↔ h.items = [] := List.isEmpty_iff

theorem peek_eq_none {h : Heap α r} : h.peek = none ↔ h.items = [] := List.head?_eq_none_iff

/-- A peeked item is the one `pop` takes, and what `pop` leaves is the rest. -/
theorem pop_of_peek {h : Heap α r} {x : α} (hp : h.peek = some x) :
    ∃ h', h.pop = some (x, h') ∧ h.items = x :: h'.items := by
  obtain ⟨items, hs⟩ := h
  cases items with
  | nil => cases hp
  | cons y ys =>
    cases hp
    exact ⟨⟨ys, hs.of_cons⟩, rfl, rfl⟩

theorem len_lt_of_pop {h h' : Heap α r} {x : α} (hp : h.pop = some (x, h')) : h'.len < h.len := by
  obtain ⟨items, hs⟩ := h
  cases items with
  | nil => cases hp
  | cons y ys =>
    cases hp
    simp [len]

theorem pop_items {h h' : Heap α r} {x : α} (hp : h.pop = some (x, h')) : h.items = x :: h'.items := by
  obtain ⟨items, hs⟩ := h
  cases items with
  | nil => cases hp
  | cons y ys =>
    cases hp
    rfl

/-- The peeked item comes out no later than any other. -/
theorem rel_of_peek {h : Heap α r} {x : α} (hp : h.peek = some x) {y : α} (hy : y ∈ h.items)
    (hne : y ≠ x) : r x y := by
  obtain ⟨h', -, hitems⟩ := pop_of_peek hp
  have hs := h.sorted
  rw [hitems] at hs hy
  exact List.rel_of_pairwise_cons hs ((List.mem_cons.mp hy).resolve_left hne)

end Heap

end ElasticStream.Collections
