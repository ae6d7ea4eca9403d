import Mathlib

/-! # Big-endian byte encodings

Fixed-width unsigned integers written most significant byte first, as
`put_u32`/`put_u64` of `bytes::BufMut` and `u32::from_be_bytes` do, and the
round trip between them. -/

namespace ElasticStream.Codec

/-- The `n` bytes of `x`, most significant first (`x` taken modulo `2^(8n)`). -/
def toBytes : Nat → Nat → List UInt8
  | 0, _ => []
  | n + 1, x => toBytes n (x / 256) ++ [UInt8.ofNat x]

/-- The number the bytes spell, most significant first. -/
def ofBytes (bs : List UInt8) : Nat := bs.foldl (fun acc b => acc * 256 + b.toNat) 0

def be16 (x : UInt16) : List UInt8 := toBytes 2 x.toNat
def be32 (x : UInt32) : List UInt8 := toBytes 4 x.toNat
def be64 (x : Nat) : List UInt8 := toBytes 8 x

/-- `u32::from_be_bytes`. -/
def fromBe32 (bs : List UInt8) : UInt32 := UInt32.ofNat (ofBytes bs)

@[simp] theorem length_toBytes (n x : Nat) : (toBytes n x).length = n := by
  induction n generalizing x with
  | zero => rfl
  | succ n ih => simp [toBytes, ih]

theorem ofBytes_append_singleton (bs : List UInt8) (b : UInt8) :
    ofBytes (bs ++ [b]) = ofBytes bs * 256 + b.toNat := by
  simp [ofBytes, List.foldl_append]

theorem ofBytes_toBytes (n x : Nat) : ofBytes (toBytes n x) = x % 256 ^ n := by
  induction n generalizing x with
  | zero => simp [toBytes, ofBytes, Nat.mod_one]
  | succ n ih =>
    have hbyte : (UInt8.ofNat x).toNat = x % 256 := by simp
    rw [toBytes, ofBytes_append_singleton, ih, hbyte]
    -- the low byte below, the rest shifted up by one byte
    rw [Nat.pow_succ, Nat.mul_comm (256 ^ n) 256, Nat.mod_mul]
    omega

theorem fromBe32_be32 (x : UInt32) : fromBe32 (be32 x) = x := by
  have hx := x.toNat_lt
  simp only [fromBe32, be32, ofBytes_toBytes]
  apply UInt32.toNat_inj.mp
  have hlt : x.toNat % 256 ^ 4 = x.toNat := Nat.mod_eq_of_lt (by omega)
  rw [hlt]
  simp

@[simp] theorem length_be16 (x : UInt16) : (be16 x).length = 2 := length_toBytes 2 _
@[simp] theorem length_be32 (x : UInt32) : (be32 x).length = 4 := length_toBytes 4 _

theorem ofBytes_lt (bs : List UInt8) : ofBytes bs < 256 ^ bs.length := by
  induction bs using List.reverseRecOn with
  | nil => simp [ofBytes]
  | append_singleton bs b ih =>
    have hb := b.toNat_lt
    rw [ofBytes_append_singleton, List.length_append, List.length_singleton, Nat.pow_succ]
    have : UInt8.size = 256 := rfl
    omega

/-- Only the low `n` bytes of `x` are written. -/
theorem toBytes_mod (n x : Nat) : toBytes n (x % 256 ^ n) = toBytes n x := by
  induction n generalizing x with
  | zero => rfl
  | succ n ih =>
    have hdiv : x % 256 ^ (n + 1) / 256 = x / 256 % 256 ^ n := by
      rw [Nat.pow_succ, Nat.mul_comm, Nat.mod_mul_right_div_self]
    have hbyte : UInt8.ofNat (x % 256 ^ (n + 1)) = UInt8.ofNat x := by
      apply UInt8.toNat_inj.mp
      simp only [UInt8.toNat_ofNat', Nat.pow_succ]
      rw [Nat.mod_mod_of_dvd _ (Dvd.intro_left _ rfl)]
    rw [toBytes, toBytes, hdiv, ih, hbyte]

/-- The most significant byte comes first. -/
theorem toBytes_succ_eq_cons (n x : Nat) :
    toBytes (n + 1) x = UInt8.ofNat (x / 256 ^ n) :: toBytes n x := by
  induction n generalizing x with
  | zero => simp [toBytes]
  | succ n ih =>
    rw [toBytes, ih, toBytes, Nat.div_div_eq_div_mul, ← Nat.pow_succ']
    rfl

/-- Bytes written back from the number they spell are the same bytes. -/
theorem toBytes_ofBytes (bs : List UInt8) : toBytes bs.length (ofBytes bs) = bs := by
  induction bs using List.reverseRecOn with
  | nil => rfl
  | append_singleton bs b ih =>
    have hb := b.toNat_lt
    have hsize : UInt8.size = 256 := rfl
    have hdiv : (ofBytes bs * 256 + b.toNat) / 256 = ofBytes bs := by omega
    have hbyte : UInt8.ofNat (ofBytes bs * 256 + b.toNat) = b := by
      apply UInt8.toNat_inj.mp
      simp only [UInt8.toNat_ofNat']
      omega
    rw [List.length_append, List.length_singleton, ofBytes_append_singleton, toBytes, hdiv, ih,
      hbyte]

theorem be16_ofBytes {bs : List UInt8} (h : bs.length = 2) :
    be16 (UInt16.ofNat (ofBytes bs)) = bs := by
  have hlt := ofBytes_lt bs
  rw [h] at hlt
  rw [be16, UInt16.toNat_ofNat', Nat.mod_eq_of_lt (by simpa using hlt), ← h, toBytes_ofBytes]

theorem be32_fromBe32 {bs : List UInt8} (h : bs.length = 4) : be32 (fromBe32 bs) = bs := by
  have hlt := ofBytes_lt bs
  rw [h] at hlt
  rw [be32, fromBe32, UInt32.toNat_ofNat', Nat.mod_eq_of_lt (by simpa using hlt), ← h,
    toBytes_ofBytes]

@[simp] theorem toBytes_zero (n : Nat) : toBytes n 0 = List.replicate n 0 := by
  induction n with
  | zero => rfl
  | succ n ih => simp [toBytes, ih, List.replicate_succ']

theorem ofBytes_replicate_zero (n : Nat) : ofBytes (List.replicate n 0) = 0 := by
  induction n with
  | zero => rfl
  | succ n ih => rw [List.replicate_succ', ofBytes_append_singleton, ih]; rfl

@[simp] theorem fromBe32_zeros (n : Nat) : fromBe32 (List.replicate n 0) = 0 := by
  simp [fromBe32, ofBytes_replicate_zero]

end ElasticStream.Codec
