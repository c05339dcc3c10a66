import ToySQL.Spec.View

/-!
# The file as an array of pages

`FStream.Works` says that a stream is in working order, `FStream.Open` also that its file
holds all pages. Reading a page that is in the file gives the bytes at its place
(`read_page`), and writing one replaces these and no other page (`write_page`).
-/

namespace ToySQL

namespace File

variable (f : File) {pos pos' n n' : ℕ}

/-- Reading takes the bits from the position on. -/
theorem bit_bytes {i : ℕ} (hi : i < 8 * n) :
    (f.bytes pos n).bit i = f.content.testBit (8 * pos + i) := by
  unfold bytes Bytes.bit
  rw [BitVec.getLsbD_ofNat, Nat.testBit_shiftRight]
  simp [hi]

/-- Writing replaces the bits from the position on. -/
theorem testBit_write (b : Bytes n) (i : ℕ) : (f.write pos b).content.testBit i =
    if 8 * pos ≤ i ∧ i < 8 * (pos + n) then b.bit (i - 8 * pos) else f.content.testBit i := by
  have hb : ∀ j, 8 * n ≤ j → b.toNat.testBit j = false := fun j hj =>
    Nat.testBit_lt_two_pow (lt_of_lt_of_le b.toNat_lt (Nat.pow_le_pow_right (by omega) hj))
  have hbit : ∀ j, b.bit j = b.toNat.testBit j := fun j => rfl
  unfold write
  simp only [Nat.testBit_or, Nat.testBit_mod_two_pow, Nat.testBit_shiftLeft,
    Nat.testBit_shiftRight, hbit]
  by_cases h1 : i < 8 * pos
  · simp [h1, show ¬ 8 * pos ≤ i by omega, show ¬ 8 * (pos + n) ≤ i by omega]
  · by_cases h2 : i < 8 * (pos + n)
    · simp [h1, show 8 * pos ≤ i by omega, h2, show ¬ 8 * (pos + n) ≤ i by omega]
    · have h3 : 8 * (pos + n) + (i - 8 * (pos + n)) = i := by omega
      simp [h1, h2, show 8 * pos ≤ i by omega, show 8 * (pos + n) ≤ i by omega, h3,
        hb (i - 8 * pos) (by omega)]

/-- Reading inside of what has been written. -/
theorem bytes_write_inside (b : Bytes n) (h1 : pos ≤ pos') (h2 : pos' + n' ≤ pos + n) :
    (f.write pos b).bytes pos' n' = b.slice (pos' - pos) n' := by
  refine Bytes.ext_bit fun i hi => ?_
  rw [bit_bytes _ hi, testBit_write, if_pos (by omega), Bytes.bit_slice]
  simp only [hi, decide_true, Bool.true_and]
  congr 1
  omega

theorem bytes_write_same (b : Bytes n) : (f.write pos b).bytes pos n = b := by
  rw [bytes_write_inside f b le_rfl le_rfl, Nat.sub_self, Bytes.slice_zero_self]

/-- Reading beside what has been written. -/
theorem bytes_write_disjoint (b : Bytes n) (h : pos + n ≤ pos' ∨ pos' + n' ≤ pos) :
    (f.write pos b).bytes pos' n' = f.bytes pos' n' := by
  refine Bytes.ext_bit fun i hi => ?_
  rw [bit_bytes _ hi, bit_bytes _ hi, testBit_write, if_neg (by omega)]

end File

namespace FStream

/-- The bytes of a page in the file. -/
def page (f : FStream) (p : ℕ) : Page := f.file.bytes (p * pageSize) pageSize

/-- Neither state bit is set. -/
structure Works (f : FStream) : Prop where
  eof : f.eof = false
  fail : f.fail = false

/-- The stream works, and the file holds all pages. -/
structure Open (f : FStream) : Prop extends Works f where
  size : filePagesNum * pageSize ≤ f.file.size

variable {f : FStream} {p q : ℕ}

/-- The offset of a page does not wrap around. -/
theorem u32_page (hp : p < filePagesNum) : u32 (p * pageSize) = p * pageSize := by
  unfold u32
  refine Nat.mod_eq_of_lt ?_
  unfold filePagesNum at hp
  unfold pageSize
  omega

/-- Seeking for reading clears the end of file and moves the one position. -/
theorem Works.seekg (h : f.Works) (pos : ℕ) : f.seekg pos = { f with eof := false, pos } := by
  unfold FStream.seekg; rw [h.fail]; rfl

/-- Seeking for writing moves the one position. -/
theorem Works.seekp (h : f.Works) (pos : ℕ) : f.seekp pos = { f with pos } := by
  unfold FStream.seekp; rw [h.fail]; rfl

/-- A file of all pages holds each of them whole. -/
theorem Open.holds (h : f.Open) (hp : p < filePagesNum) :
    p * pageSize + pageSize ≤ f.file.size := by
  have := h.size
  unfold filePagesNum at hp
  unfold filePagesNum pageSize at this
  unfold pageSize
  omega

/-- **Reading a page.** -/
theorem Works.read_page (h : f.Works) (hp : p < filePagesNum)
    (hle : p * pageSize + pageSize ≤ f.file.size)
    (buffer : Page) :
    ∃ f', (f.seekg (u32 (p * pageSize))).read buffer = (f.page p, f') ∧ f'.Works ∧
      f'.file = f.file := by
  rw [u32_page hp, h.seekg]
  unfold read
  simp only [h.fail, Bool.or_false, Bool.false_eq_true, if_false]
  rw [if_pos (by omega)]
  exact ⟨_, rfl, ⟨rfl, rfl⟩, rfl⟩

/-- **Writing a page.** -/
theorem Works.write_page (h : f.Works) (hp : p < filePagesNum) (b : Page) :
    ((f.seekp (u32 (p * pageSize))).write b).Works ∧
      f.file.size ≤ ((f.seekp (u32 (p * pageSize))).write b).file.size ∧
      ∀ q, ((f.seekp (u32 (p * pageSize))).write b).page q = if q = p then b else f.page q := by
  rw [u32_page hp, h.seekp]
  unfold write
  simp only [h.eof, h.fail, Bool.or_false, Bool.false_eq_true, if_false]
  refine ⟨⟨rfl, rfl⟩, le_max_left _ _, fun q => ?_⟩
  unfold page
  by_cases hq : q = p
  · rw [if_pos hq, hq]; exact File.bytes_write_same _ _
  · rw [if_neg hq]
    refine File.bytes_write_disjoint _ _ ?_
    unfold pageSize
    omega

end FStream

end ToySQL
