import Mathlib

/-! # Ranks in sorted lists

The `k`-th element of a list sorted by a relation `R` is preceded by `k`
elements, each `R`-related to it. Counted with a predicate that holds of the
element and of everything `R`-related to it, the list therefore has at least
`k + 1` elements satisfying the predicate. Applied to an ascending sort this
bounds how many elements lie at or below the `k`-th smallest; applied to the
reversed sort, how many lie at or above the `k`-th largest. -/

namespace ElasticStream.Order

variable {α : Type}

/-- Ascending sort. On a linear order every sort yields the same list
(`mergeSort_eq_sortAsc`); insertion recurses structurally, so a sort of a
concrete list evaluates by `decide`. -/
def sortAsc [LinearOrder α] (l : List α) : List α := l.insertionSort (· ≤ ·)

/-- The stable merge sort of the standard library sorts as `sortAsc` does. -/
theorem mergeSort_eq_sortAsc [LinearOrder α] (l : List α) :
    l.mergeSort (fun a b => decide (a ≤ b)) = sortAsc l :=
  List.mergeSort_eq_insertionSort (· ≤ ·) l

theorem sortAsc_perm [LinearOrder α] (l : List α) : (sortAsc l).Perm l := List.perm_insertionSort _ _

@[simp] theorem length_sortAsc [LinearOrder α] (l : List α) : (sortAsc l).length = l.length :=
  List.length_insertionSort _ _

theorem sortAsc_pairwise [LinearOrder α] (l : List α) : (sortAsc l).Pairwise (· ≤ ·) :=
  List.pairwise_insertionSort _ _

theorem eq_take_append_cons_drop {s : List α} {k : Nat} {e : α} (he : s[k]? = some e) :
    s = s.take k ++ e :: s.drop (k + 1) := by
  obtain ⟨hk, rfl⟩ := List.getElem?_eq_some_iff.mp he
  rw [← List.drop_eq_getElem_cons hk, List.take_append_drop]

/-- **Rank counting.** The `k`-th element `e` of an `R`-sorted list and the
`k` elements before it satisfy any predicate that holds of `e` and of
everything `R`-related to `e`. -/
theorem le_countP_of_pairwise {R : α → α → Prop} {P : α → Bool} {s : List α} {k : Nat} {e : α}
    (hs : s.Pairwise R) (he : s[k]? = some e) (hPe : P e = true) (hP : ∀ x, R x e → P x = true) :
    k + 1 ≤ s.countP P := by
  have hsplit := eq_take_append_cons_drop he
  have hk : k < s.length := (List.getElem?_eq_some_iff.mp he).1
  -- every element before position `k` is `R`-related to `e`
  have hbefore : ∀ x ∈ s.take k, R x e := by
    rw [hsplit] at hs
    exact fun x hx => (List.pairwise_append.mp hs).2.2 x hx e List.mem_cons_self
  have htake : (s.take k).countP P = k := by
    rw [List.countP_eq_length.mpr (fun x hx => hP x (hbefore x hx)), List.length_take]
    omega
  calc k + 1 = (s.take k).countP P + 1 := by rw [htake]
    _ ≤ (s.take k).countP P + (e :: s.drop (k + 1)).countP P := by
        rw [List.countP_cons_of_pos hPe]; omega
    _ = s.countP P := by rw [← List.countP_append, ← hsplit]

/-- Two elements of a list are equal or related in one order or the other. -/
theorem eq_or_rel_of_mem {R : α → α → Prop} :
    ∀ {l : List α}, l.Pairwise R → ∀ {a b : α}, a ∈ l → b ∈ l → a = b ∨ R a b ∨ R b a
  | [], _, _, _, ha, _ => by simp at ha
  | c :: l, hl, a, b, ha, hb => by
    obtain ⟨hc, hl⟩ := List.pairwise_cons.mp hl
    rcases List.mem_cons.mp ha with rfl | hal <;> rcases List.mem_cons.mp hb with rfl | hbl
    · exact .inl rfl
    · exact .inr (.inl (hc b hbl))
    · exact .inr (.inr (hc a hal))
    · exact eq_or_rel_of_mem hl hal hbl

/-- In a list sorted by a key, a prefix that holds an element of a greater key
holds every element of key `x`. -/
theorem countP_prefix_eq {β : Type} [LinearOrder β] {f : α → β} {l p : List α}
    (hl : l.Pairwise fun a b => f a ≤ f b) (hp : p <+: l) {b : α} (hb : b ∈ p) {x : β} (hx : x < f b) :
    p.countP (fun a => decide (f a = x)) = l.countP (fun a => decide (f a = x)) := by
  obtain ⟨q, rfl⟩ := hp
  have hq : q.countP (fun a => decide (f a = x)) = 0 := by
    refine List.countP_eq_zero.mpr fun c hc hcx => ?_
    have hbc := (List.pairwise_append.mp hl).2.2 b hb c hc
    rw [of_decide_eq_true hcx] at hbc
    exact absurd hbc (not_le.mpr hx)
  rw [List.countP_append, hq, Nat.add_zero]

end ElasticStream.Order
