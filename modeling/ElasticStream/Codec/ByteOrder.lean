import Mathlib
import ElasticStream.Codec.BigEndian

/-! # Byte strings in lexicographic order

Byte strings compared lexicographically, as a key-value store's bytewise
comparator does. Strings of one width compare as the numbers they spell, so a
key laid out as fixed-width big-endian fields sorts by its fields, most
significant first; a bound that is a shorter prefix compares with a key as
with the key's prefix of its width. -/

namespace ElasticStream.Codec

theorem ofBytes_cons (b : UInt8) (bs : List UInt8) :
    ofBytes (b :: bs) = b.toNat * 256 ^ bs.length + ofBytes bs := by
  induction bs using List.reverseRecOn with
  | nil => simp [ofBytes]
  | append_singleton bs c ih =>
    rw [← List.cons_append, ofBytes_append_singleton, ih, ofBytes_append_singleton,
      List.length_append, List.length_singleton, Nat.pow_succ]
    ring

/-- Digits in base `N` compare most significant first. -/
theorem mul_add_lt_mul_add_iff {N a b x y : Nat} (hx : x < N) (hy : y < N) :
    a * N + x < b * N + y ↔ a < b ∨ a = b ∧ x < y := by
  constructor
  · intro h
    rcases Nat.lt_trichotomy a b with hab | rfl | hab
    · exact .inl hab
    · exact .inr ⟨rfl, by omega⟩
    · have : (b + 1) * N ≤ a * N := Nat.mul_le_mul_right N hab
      rw [Nat.succ_mul] at this
      omega
  · rintro (hab | ⟨rfl, hxy⟩)
    · have : (a + 1) * N ≤ b * N := Nat.mul_le_mul_right N hab
      rw [Nat.succ_mul] at this
      omega
    · omega

/-- Byte strings of one width compare as the numbers they spell. -/
theorem lt_iff_ofBytes_lt : ∀ {l m : List UInt8}, l.length = m.length → (l < m ↔ ofBytes l < ofBytes m)
  | [], [], _ => by simp [ofBytes]
  | a :: l, b :: m, h => by
    have hl : l.length = m.length := by simpa using h
    rw [List.cons_lt_cons_iff, lt_iff_ofBytes_lt hl, ofBytes_cons, ofBytes_cons, hl,
      mul_add_lt_mul_add_iff (hl ▸ ofBytes_lt l) (ofBytes_lt m), UInt8.lt_iff_toNat_lt, UInt8.toNat_inj]

theorem toBytes_lt_toBytes_iff {n a b : Nat} (ha : a < 256 ^ n) (hb : b < 256 ^ n) :
    toBytes n a < toBytes n b ↔ a < b := by
  rw [lt_iff_ofBytes_lt (by simp), ofBytes_toBytes, ofBytes_toBytes, Nat.mod_eq_of_lt ha,
    Nat.mod_eq_of_lt hb]

theorem toBytes_inj {n a b : Nat} (ha : a < 256 ^ n) (hb : b < 256 ^ n) :
    toBytes n a = toBytes n b ↔ a = b := by
  constructor
  · intro h
    have := congrArg ofBytes h
    rwa [ofBytes_toBytes, ofBytes_toBytes, Nat.mod_eq_of_lt ha, Nat.mod_eq_of_lt hb] at this
  · rintro rfl
    rfl

/-- Strings that start with fields of one width compare by those fields first. -/
theorem append_lt_append_iff : ∀ {l₁ l₂ m₁ m₂ : List UInt8}, l₁.length = l₂.length →
    (l₁ ++ m₁ < l₂ ++ m₂ ↔ l₁ < l₂ ∨ l₁ = l₂ ∧ m₁ < m₂)
  | [], [], _, _, _ => by simp
  | a :: l₁, b :: l₂, m₁, m₂, h => by
    have hl : l₁.length = l₂.length := by simpa using h
    simp only [List.cons_append, List.cons_lt_cons_iff, append_lt_append_iff hl, List.cons.injEq]
    tauto

/-- A lower bound as wide as a prefix of the string compares as with that prefix. -/
theorem le_append_iff {p k r : List UInt8} (h : p.length = k.length) : p ≤ k ++ r ↔ p ≤ k := by
  have hlt := @append_lt_append_iff k p r [] h.symm
  rw [List.append_nil] at hlt
  rw [← List.not_lt, ← List.not_lt, hlt]
  simp

/-- An upper bound as wide as a prefix of the string compares as with that prefix. -/
theorem append_lt_iff {p k r : List UInt8} (h : p.length = k.length) : k ++ r < p ↔ k < p := by
  have hlt := @append_lt_append_iff k p r [] h.symm
  rw [List.append_nil] at hlt
  rw [hlt]
  simp

end ElasticStream.Codec
