import Mathlib

/-!
# Fixed-size byte buffers

`Bytes n` is an array of `n` bytes kept as one bit vector, byte `i` in bits
`8 i .. 8 i + 7`, so that a multi-byte field reads as a little-endian number.
`slice` reads a run of bytes and `splice` overwrites one; every load, store and
`memcpy` is one of the two.

* `slice_splice_inside`, `slice_splice_around`, `slice_splice_disjoint`: reading
  inside, around or apart from the bytes just written.
* `slice_slice`: a run of a run.
* `splice_splice_same`, `splice_slice_self`: overwriting twice, and overwriting
  with what is there.
-/

namespace ToySQL

/-- `n` bytes. -/
@[ext]
structure Bytes (n : ℕ) where
  bits : BitVec (8 * n)
deriving DecidableEq

namespace Bytes

variable {n m k : ℕ}

/-- All bytes zero. -/
def zero (n : ℕ) : Bytes n := ⟨0⟩

/-- The little-endian number `v` in `n` bytes, high bits dropped. -/
def ofNat (n v : ℕ) : Bytes n := ⟨BitVec.ofNat (8 * n) v⟩

/-- The bytes as a little-endian number. -/
def toNat (b : Bytes n) : ℕ := b.bits.toNat

/-- The `m` bytes from offset `off` on. -/
def slice (b : Bytes n) (off m : ℕ) : Bytes m := ⟨b.bits.extractLsb' (8 * off) (8 * m)⟩

/-- `b` with the bytes from `off` on replaced by those of `c`. -/
def splice (b : Bytes n) (off : ℕ) (c : Bytes m) : Bytes n :=
  ⟨(b.bits &&& ~~~((BitVec.allOnes (8 * m)).setWidth (8 * n) <<< (8 * off))) |||
    c.bits.setWidth (8 * n) <<< (8 * off)⟩

/-- Bit `i` of the buffer. -/
def bit (b : Bytes n) (i : ℕ) : Bool := b.bits.getLsbD i

/-- Byte strings with the same bits are equal. -/
theorem ext_bit {b c : Bytes n} (h : ∀ i < 8 * n, b.bit i = c.bit i) : b = c := by
  ext1
  exact BitVec.eq_of_getLsbD_eq h

theorem bit_of_ge (b : Bytes n) {i : ℕ} (hi : 8 * n ≤ i) : b.bit i = false :=
  BitVec.getLsbD_of_ge _ _ hi

theorem bit_slice (b : Bytes n) (off m i : ℕ) :
    (b.slice off m).bit i = (decide (i < 8 * m) && b.bit (8 * off + i)) := by
  simp [slice, bit]

theorem bit_splice (b : Bytes n) (off : ℕ) (c : Bytes m) {i : ℕ} (hi : i < 8 * n) :
    (b.splice off c).bit i =
      if 8 * off ≤ i ∧ i < 8 * off + 8 * m then c.bit (i - 8 * off) else b.bit i := by
  have hc := c.bit_of_ge (i := i - 8 * off)
  simp only [bit] at hc ⊢
  simp only [splice, BitVec.getLsbD_or, BitVec.getLsbD_and, BitVec.getLsbD_not,
    BitVec.getLsbD_shiftLeft, BitVec.getLsbD_setWidth, BitVec.getLsbD_allOnes, hi, decide_true,
    Bool.true_and]
  rcases lt_or_ge i (8 * off) with h1 | h1
  · simp [h1, show ¬ 8 * off ≤ i by omega]
  · have h3 : i - 8 * off < 8 * n := by omega
    rcases lt_or_ge i (8 * off + 8 * m) with h2 | h2
    · have h4 : i - 8 * off < 8 * m := by omega
      simp [h1, h2, h3, h4, show ¬ i < 8 * off by omega]
    · have h4 : ¬ i - 8 * off < 8 * m := by omega
      simp [h1, h4, show ¬ i < 8 * off by omega, show ¬ i < 8 * off + 8 * m by omega,
        hc (by omega)]

/-- **Reading inside the bytes just written.** -/
theorem slice_splice_inside (b : Bytes n) (c : Bytes m) {off o k : ℕ} (h1 : off ≤ o)
    (h2 : o + k ≤ off + m) (hn : o + k ≤ n) :
    (b.splice off c).slice o k = c.slice (o - off) k := by
  refine ext_bit fun i hi => ?_
  rw [bit_slice, bit_slice, bit_splice _ _ _ (by omega), if_pos (by omega)]
  congr 2
  omega

/-- **Reading apart from the bytes just written.** -/
theorem slice_splice_disjoint (b : Bytes n) (c : Bytes m) {off o k : ℕ}
    (h : o + k ≤ off ∨ off + m ≤ o) : (b.splice off c).slice o k = b.slice o k := by
  refine ext_bit fun i hi => ?_
  rw [bit_slice, bit_slice]
  rcases lt_or_ge (8 * o + i) (8 * n) with hn | hn
  · rw [bit_splice _ _ _ hn, if_neg (by omega)]
  · rw [bit_of_ge _ hn, bit_of_ge _ hn]

/-- **Reading around the bytes just written.** -/
theorem slice_splice_around (b : Bytes n) (c : Bytes m) {o d k : ℕ} (h : o + k ≤ n) :
    (b.splice (o + d) c).slice o k = (b.slice o k).splice d c := by
  refine ext_bit fun i hi => ?_
  rw [bit_slice, bit_splice _ _ _ hi, bit_splice _ _ _ (by omega), bit_slice]
  by_cases hc : 8 * d ≤ i ∧ i < 8 * d + 8 * m
  · rw [if_pos (by omega), if_pos hc, show 8 * o + i - 8 * (o + d) = i - 8 * d by omega]
    simp [hi]
  · rw [if_neg (by omega), if_neg hc]

theorem slice_slice (b : Bytes n) {o o' m k : ℕ} (h : o' + k ≤ m) :
    (b.slice o m).slice o' k = b.slice (o + o') k := by
  refine ext_bit fun i hi => ?_
  simp only [bit_slice, show 8 * o' + i < 8 * m by omega, decide_true, Bool.true_and]
  congr 2
  omega

@[simp] theorem slice_zero_self (b : Bytes n) : b.slice 0 n = b := by
  refine ext_bit fun i hi => ?_
  simp [bit_slice, hi]

/-- Reading back exactly what was written. -/
theorem slice_splice_same (b : Bytes n) (c : Bytes m) {off : ℕ} (h : off + m ≤ n) :
    (b.splice off c).slice off m = c := by
  rw [slice_splice_inside b c le_rfl le_rfl h, Nat.sub_self, slice_zero_self]

/-- The second splice at an offset overwrites the first. -/
theorem splice_splice_same (b : Bytes n) (c d : Bytes m) (off : ℕ) :
    (b.splice off c).splice off d = b.splice off d := by
  refine ext_bit fun i hi => ?_
  simp only [bit_splice _ _ _ hi]
  split_ifs <;> rfl

/-- Writing back a slice changes nothing. -/
theorem splice_slice_self (b : Bytes n) (off m : ℕ) : b.splice off (b.slice off m) = b := by
  refine ext_bit fun i hi => ?_
  rw [bit_splice _ _ _ hi]
  split
  · rename_i h
    rw [bit_slice, show 8 * off + (i - 8 * off) = i by omega]
    simp; omega
  · rfl

/-- A number is kept modulo the width. -/
@[simp] theorem toNat_ofNat (n v : ℕ) : (ofNat n v).toNat = v % 2 ^ (8 * n) := by
  simp [ofNat, toNat]

theorem slice_zero (n off m : ℕ) : (zero n).slice off m = zero m := ext_bit fun i hi => by
  rw [bit_slice]; simp [bit, zero]

theorem toNat_slice_zero (n off m : ℕ) : ((zero n).slice off m).toNat = 0 := by
  rw [slice_zero]; rfl

theorem toNat_lt (b : Bytes n) : b.toNat < 2 ^ (8 * n) := b.bits.isLt

/-- Byte strings are written and read back. -/
@[simp] theorem ofNat_toNat (b : Bytes n) : ofNat n b.toNat = b := by
  ext1; simp [ofNat, toNat]

/-- The number determines the bytes. -/
theorem toNat_inj {b c : Bytes n} : b.toNat = c.toNat ↔ b = c := by
  constructor
  · intro h; rw [← ofNat_toNat b, h, ofNat_toNat]
  · intro h; rw [h]

end Bytes

end ToySQL
