import Mathlib
import ElasticStream.Codec.BigEndian

/-! # Byte cursors

A reader over a byte slice in the manner of `bytes::Buf` on a
`std::io::Cursor`: the bytes not yet read and the position reached. A read
either returns its value and the moved cursor or, past the end, fails. `Buf`
panics there, and so does an unsigned counter that underflows or a
`debug_assert!` that fails in a debug build; a decoder returns an `Outcome`,
which tells those panics apart from the errors it returns. -/

namespace ElasticStream.Codec

/-- How a decoder ends: with a value, with an error it returns, or in a panic. -/
inductive Outcome (ε α : Type) where
  | ok (a : α)
  | error (e : ε)
  | panic
  deriving DecidableEq, Repr

namespace Outcome

variable {ε α β : Type}

def bind : Outcome ε α → (α → Outcome ε β) → Outcome ε β
  | ok a, f => f a
  | error e, _ => error e
  | panic, _ => panic

instance : Monad (Outcome ε) where
  pure := ok
  bind := bind

/-- A read of `Buf` that may run past the end: there it panics. -/
def ofOption : Option α → Outcome ε α
  | some a => ok a
  | none => panic

instance : MonadLift Option (Outcome ε) := ⟨ofOption⟩

/-- `a -= b` on an unsigned counter, which panics on underflow. -/
def sub (a b : Nat) : Outcome ε Nat := if b ≤ a then ok (a - b) else panic

/-- `debug_assert!`. -/
def assert (p : Prop) [Decidable p] : Outcome ε Unit := if p then ok () else panic

/-! The lemmas that run a decoder are proved from the equations of `bind`
and `ofOption`, not by `rfl`: `simp` then rewrites with them instead of
unfolding, and the kernel does not evaluate the whole decoder again to check
the result. -/

@[simp] theorem pure_eq (a : α) : (pure a : Outcome ε α) = ok a := rfl
@[simp] theorem ok_bind (a : α) (f : α → Outcome ε β) : (ok a >>= f) = f a := bind.eq_1 f a
@[simp] theorem error_bind (e : ε) (f : α → Outcome ε β) : (error e >>= f) = error e := bind.eq_2 f e
@[simp] theorem panic_bind (f : α → Outcome ε β) : (panic >>= f) = panic := bind.eq_3 f
@[simp] theorem liftM_some (a : α) : (liftM (some a) : Outcome ε α) = ok a := ofOption.eq_1 a
@[simp] theorem liftM_none : (liftM (none : Option α) : Outcome ε α) = panic := ofOption.eq_2

@[simp] theorem sub_of_le {a b : Nat} (h : b ≤ a) : (sub a b : Outcome ε Nat) = ok (a - b) :=
  if_pos h

@[simp] theorem assert_of_true {p : Prop} [Decidable p] (h : p) : (assert p : Outcome ε Unit) = ok () :=
  if_pos h

theorem bind_eq_ok {x : Outcome ε α} {f : α → Outcome ε β} {b : β} :
    (x >>= f) = ok b ↔ ∃ a, x = ok a ∧ f a = ok b := by
  cases x <;> simp

theorem liftM_eq_ok {o : Option α} {a : α} : (liftM o : Outcome ε α) = ok a ↔ o = some a := by
  cases o <;> simp

/-- `a + b` on an unsigned integer below `bound`, which panics on overflow in
a debug build. -/
def add (bound a b : Nat) : Outcome ε Nat := if a + b < bound then ok (a + b) else panic

@[simp] theorem add_of_lt {bound a b : Nat} (h : a + b < bound) : (add bound a b : Outcome ε Nat) = ok (a + b) :=
  if_pos h

theorem add_of_le {bound a b : Nat} (h : bound ≤ a + b) : (add bound a b : Outcome ε Nat) = panic :=
  if_neg (Nat.not_lt.mpr h)

end Outcome

/-- `x as usize` for an `i32` on a 64-bit target: the sign is extended, so a
negative value lands within 2^31 of 2^64. -/
def asUsize (x : Int32) : Nat := (x.toInt % 2 ^ 64).toNat

/-- The `i32` read from a word below 2^31 is that word. -/
theorem asUsize_toInt32 {x : UInt32} (h : x.toNat < 2 ^ 31) : asUsize x.toInt32 = x.toNat := by
  have hint : x.toInt32.toInt = x.toNat := by
    rw [show x.toInt32.toInt = x.toBitVec.toInt from rfl, BitVec.toInt_eq_toNat_cond, if_pos (by simp; omega)]
    rfl
  rw [asUsize, hint, Int.emod_eq_of_lt (by omega) (by omega)]
  rfl

theorem asUsize_ofNat {n : Nat} (h : n < 2 ^ 31) : asUsize (UInt32.ofNat n).toInt32 = n := by
  have hn : (UInt32.ofNat n).toNat = n := UInt32.toNat_ofNat_of_lt' (by rw [UInt32.size]; omega)
  rw [asUsize_toInt32 (by omega), hn]

/-- A word at or above 2^31 is a negative `i32`, which widens past `2^64 - 2^31`. -/
theorem asUsize_toInt32_of_ge {x : UInt32} (h : 2 ^ 31 ≤ x.toNat) :
    asUsize x.toInt32 = x.toNat + (2 ^ 64 - 2 ^ 32) := by
  have hx := x.toNat_lt
  have hint : x.toInt32.toInt = x.toNat - 2 ^ 32 := by
    rw [show x.toInt32.toInt = x.toBitVec.toInt from rfl, BitVec.toInt_eq_toNat_cond, if_neg (by simp; omega)]
    rfl
  have hmod : ((x.toNat : Int) - 2 ^ 32) % 2 ^ 64 = (x.toNat + (2 ^ 64 - 2 ^ 32) : Nat) := by omega
  rw [asUsize, hint, hmod]
  rfl

/-- `Bytes::slice(lo..hi)`, which panics when the range is out of bounds. -/
def Bytes.slice (buf : List UInt8) (lo hi : Nat) : Outcome ε (List UInt8) :=
  if lo ≤ hi ∧ hi ≤ buf.length then .ok ((buf.drop lo).take (hi - lo)) else .panic

/-- `Bytes::advance`, which panics past the end. -/
def Bytes.advance (buf : List UInt8) (n : Nat) : Outcome ε (List UInt8) :=
  if n ≤ buf.length then .ok (buf.drop n) else .panic

theorem Bytes.advance_append {pre post : List UInt8} {n : Nat} (h : pre.length = n) :
    (Bytes.advance (pre ++ post) n : Outcome ε (List UInt8)) = .ok post := by
  subst h
  simp [Bytes.advance]

/-- A cursor over a byte slice: the bytes from the position on, and the
position. -/
structure Cursor where
  rest : List UInt8
  pos : Nat
  deriving DecidableEq, Repr

namespace Cursor

/-- `Cursor::new`: at the start of the bytes. -/
def new (bytes : List UInt8) : Cursor := ⟨bytes, 0⟩

def remaining (c : Cursor) : Nat := c.rest.length

/-- `copy_to_bytes n`: the next `n` bytes. -/
def take (c : Cursor) (n : Nat) : Option (List UInt8 × Cursor) :=
  if n ≤ c.rest.length then some (c.rest.take n, ⟨c.rest.drop n, c.pos + n⟩) else none

def advance (c : Cursor) (n : Nat) : Option Cursor := (c.take n).map Prod.snd

def getU8 (c : Cursor) : Option (UInt8 × Cursor) :=
  (c.take 1).map fun r => (UInt8.ofNat (ofBytes r.1), r.2)

/-- `get_u16`, big-endian. -/
def getU16 (c : Cursor) : Option (UInt16 × Cursor) :=
  (c.take 2).map fun r => (UInt16.ofNat (ofBytes r.1), r.2)

/-- `get_u32` (and `read_u32::<NetworkEndian>`), big-endian. -/
def getU32 (c : Cursor) : Option (UInt32 × Cursor) :=
  (c.take 4).map fun r => (fromBe32 r.1, r.2)

/-- `get_u64`, big-endian. -/
def getU64 (c : Cursor) : Option (Nat × Cursor) :=
  (c.take 8).map fun r => (ofBytes r.1, r.2)

/-- `get_i8`. -/
def getI8 (c : Cursor) : Option (Int8 × Cursor) := c.getU8.map fun r => (r.1.toInt8, r.2)

/-- `get_i32`, big-endian. -/
def getI32 (c : Cursor) : Option (Int32 × Cursor) := c.getU32.map fun r => (r.1.toInt32, r.2)

@[simp] theorem remaining_mk (rest : List UInt8) (pos : Nat) :
    (Cursor.mk rest pos).remaining = rest.length := rfl

/-! ## Reads of what is there

The width is a hypothesis, so that a caller whose bytes have a computed
length never rewrites it first. -/

section Append

variable {xs ys : List UInt8} {n p : Nat}

theorem take_append (h : xs.length = n) :
    (Cursor.mk (xs ++ ys) p).take n = some (xs, ⟨ys, p + n⟩) := by
  subst h
  simp [take]

theorem advance_append (h : xs.length = n) :
    (Cursor.mk (xs ++ ys) p).advance n = some ⟨ys, p + n⟩ := by
  simp [advance, take_append h]

@[simp] theorem advance_cons (b : UInt8) : (Cursor.mk (b :: ys) p).advance 1 = some ⟨ys, p + 1⟩ :=
  @advance_append [b] ys 1 p rfl

@[simp] theorem getU8_cons (b : UInt8) : (Cursor.mk (b :: ys) p).getU8 = some (b, ⟨ys, p + 1⟩) := by
  have : (Cursor.mk (b :: ys) p).take 1 = some ([b], ⟨ys, p + 1⟩) := @take_append [b] ys 1 p rfl
  simp [getU8, this, ofBytes]

@[simp] theorem getU16_append (x : UInt16) :
    (Cursor.mk (be16 x ++ ys) p).getU16 = some (x, ⟨ys, p + 2⟩) := by
  have hx := x.toNat_lt
  have hsize : UInt16.size = 256 ^ 2 := rfl
  rw [getU16, take_append (length_be16 x), Option.map_some, be16, ofBytes_toBytes,
    Nat.mod_eq_of_lt (by omega)]
  simp

@[simp] theorem getU32_append (x : UInt32) :
    (Cursor.mk (be32 x ++ ys) p).getU32 = some (x, ⟨ys, p + 4⟩) := by
  simp [getU32, take_append (length_be32 x), fromBe32_be32]

@[simp] theorem getI8_cons (b : UInt8) : (Cursor.mk (b :: ys) p).getI8 = some (b.toInt8, ⟨ys, p + 1⟩) := by
  simp [getI8]

@[simp] theorem getI32_append (x : UInt32) :
    (Cursor.mk (be32 x ++ ys) p).getI32 = some (x.toInt32, ⟨ys, p + 4⟩) := by
  simp [getI32]

theorem getU64_append {x : Nat} (hx : x < 2 ^ 64) :
    (Cursor.mk (be64 x ++ ys) p).getU64 = some (x, ⟨ys, p + 8⟩) := by
  have hlen : (be64 x).length = 8 := length_toBytes 8 x
  rw [getU64, take_append hlen, Option.map_some, be64, ofBytes_toBytes,
    Nat.mod_eq_of_lt (by simpa using hx)]

end Append

/-! ## What a read that succeeds has read -/

section Inversion

variable {c c' : Cursor} {n : Nat}

theorem take_eq_some {xs : List UInt8} (h : c.take n = some (xs, c')) :
    c.rest = xs ++ c'.rest ∧ xs.length = n ∧ c'.pos = c.pos + n := by
  unfold take at h
  split at h
  · cases h
    simp_all
  · cases h

theorem advance_eq_some (h : c.advance n = some c') :
    ∃ xs, c.rest = xs ++ c'.rest ∧ xs.length = n ∧ c'.pos = c.pos + n := by
  obtain ⟨⟨xs, c''⟩, hxs, rfl⟩ := Option.map_eq_some_iff.mp h
  exact ⟨xs, take_eq_some hxs⟩

theorem getU8_eq_some {b : UInt8} (h : c.getU8 = some (b, c')) :
    c.rest = b :: c'.rest ∧ c'.pos = c.pos + 1 := by
  obtain ⟨⟨xs, c''⟩, hxs, hb⟩ := Option.map_eq_some_iff.mp h
  obtain ⟨hrest, hlen, hpos⟩ := take_eq_some hxs
  cases hb
  obtain ⟨a, rfl⟩ := List.length_eq_one_iff.mp hlen
  simp_all [ofBytes]

theorem getU16_eq_some {x : UInt16} (h : c.getU16 = some (x, c')) :
    c.rest = be16 x ++ c'.rest ∧ c'.pos = c.pos + 2 := by
  obtain ⟨⟨xs, c''⟩, hxs, hx⟩ := Option.map_eq_some_iff.mp h
  obtain ⟨hrest, hlen, hpos⟩ := take_eq_some hxs
  cases hx
  exact ⟨by rw [hrest, be16_ofBytes hlen], hpos⟩

theorem getU32_eq_some {x : UInt32} (h : c.getU32 = some (x, c')) :
    c.rest = be32 x ++ c'.rest ∧ c'.pos = c.pos + 4 := by
  obtain ⟨⟨xs, c''⟩, hxs, hx⟩ := Option.map_eq_some_iff.mp h
  obtain ⟨hrest, hlen, hpos⟩ := take_eq_some hxs
  cases hx
  exact ⟨by rw [hrest, be32_fromBe32 hlen], hpos⟩

theorem getI8_eq_some {x : Int8} (h : c.getI8 = some (x, c')) :
    ∃ b : UInt8, b.toInt8 = x ∧ c.rest = b :: c'.rest ∧ c'.pos = c.pos + 1 := by
  obtain ⟨⟨b, c''⟩, hb, hx⟩ := Option.map_eq_some_iff.mp h
  cases hx
  exact ⟨b, rfl, getU8_eq_some hb⟩

theorem getI32_eq_some {x : Int32} (h : c.getI32 = some (x, c')) :
    ∃ w : UInt32, w.toInt32 = x ∧ c.rest = be32 w ++ c'.rest ∧ c'.pos = c.pos + 4 := by
  obtain ⟨⟨w, c''⟩, hw, hx⟩ := Option.map_eq_some_iff.mp h
  cases hx
  exact ⟨w, rfl, getU32_eq_some hw⟩

/-- Enough bytes for a read: the cursor's bytes start with what it reads. -/
theorem exists_append_of_le {l : List UInt8} (h : n ≤ l.length) :
    ∃ xs ys, l = xs ++ ys ∧ xs.length = n :=
  ⟨l.take n, l.drop n, (List.take_append_drop n l).symm, List.length_take_of_le h⟩

theorem exists_be16 {l : List UInt8} (h : 2 ≤ l.length) : ∃ x ys, l = be16 x ++ ys := by
  obtain ⟨xs, ys, rfl, hxs⟩ := exists_append_of_le h
  exact ⟨UInt16.ofNat (ofBytes xs), ys, by rw [be16_ofBytes hxs]⟩

theorem exists_be32 {l : List UInt8} (h : 4 ≤ l.length) : ∃ x ys, l = be32 x ++ ys := by
  obtain ⟨xs, ys, rfl, hxs⟩ := exists_append_of_le h
  exact ⟨fromBe32 xs, ys, by rw [be32_fromBe32 hxs]⟩

/-- A read fails only for want of bytes. -/
theorem take_eq_none (h : c.rest.length < n) : c.take n = none := by
  simp [take, Nat.not_le.mpr h]

theorem take_isSome (h : n ≤ c.rest.length) : (c.take n).isSome := by
  simp [take, h]

theorem getI32_eq_none (h : c.rest.length < 4) : c.getI32 = none := by
  simp [getI32, getU32, take_eq_none h]

end Inversion

end Cursor

end ElasticStream.Codec
