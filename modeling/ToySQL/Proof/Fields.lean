import ToySQL.Proof.Memory
import ToySQL.Spec.View

/-!
# Fields of a page

Reading a field after writing another. The header fields of leaves and of internal
nodes share their bytes (`numCells` and `numKeys`, `nextLeaf` and `rightChild`); the
cells start after the header; cells of one kind do not overlap. Everything the code
reads of a page is one of these fields.

* `load_store_header`, `load_header_store_body`: the header apart from the cells.
* `load_internalCell_store`, `load_internalKey_store`: the cells of an internal node.
* `key_copyCell`, `value_copyCell`: the cells of a leaf after a `memcpy` of one cell.
* `Page.erase`: a page up to its parent field.
-/

namespace ToySQL

open Bytes

namespace Loc

/-- The fields before the cells. -/
inductive Header : Loc → Prop where
  | nodeType : Header nodeType
  | isRoot : Header isRoot
  | parent : Header parent
  | numCells : Header numCells
  | nextLeaf : Header nextLeaf
  | numKeys : Header numKeys
  | rightChild : Header rightChild

/-- The fields of the cells. -/
inductive Body : Loc → Prop where
  | leafCell (i : ℕ) : Body (leafCell i)
  | leafKey (i : ℕ) : Body (leafKey i)
  | leafValue (i : ℕ) : Body (leafValue i)
  | internalCell (i : ℕ) : Body (internalCell i)
  | internalKey (i : ℕ) : Body (internalKey i)

attribute [simp] Header.nodeType Header.isRoot Header.parent Header.numCells Header.nextLeaf
  Header.numKeys Header.rightChild Body.leafCell Body.leafKey Body.leafValue Body.internalCell
  Body.internalKey

attribute [simp] width nodeTypeSize isRootSize

@[simp] theorem offset_start : offset start = 0 := rfl
@[simp] theorem offset_nodeType : offset nodeType = 0 := rfl
@[simp] theorem offset_isRoot : offset isRoot = 1 := rfl
@[simp] theorem offset_parent : offset parent = 2 := rfl
@[simp] theorem offset_numCells : offset numCells = 6 := rfl
@[simp] theorem offset_nextLeaf : offset nextLeaf = 10 := rfl
@[simp] theorem offset_numKeys : offset numKeys = 6 := rfl
@[simp] theorem offset_rightChild : offset rightChild = 10 := rfl

/-- The cells of a leaf begin after the header, one after the other. -/
theorem offset_leafCell {i : ℕ} (h : i < 2 ^ 20) : offset (leafCell i) = 14 + 264 * i := by
  show 14 + u32 (i * 264) = _
  unfold u32; omega

theorem offset_leafKey {i : ℕ} (h : i < 2 ^ 20) : offset (leafKey i) = 14 + 264 * i :=
  offset_leafCell h

theorem offset_leafValue {i : ℕ} (h : i < 2 ^ 20) : offset (leafValue i) = 18 + 264 * i := by
  show offset (leafCell i) + 4 = _
  rw [offset_leafCell h]; omega

/-- The cells of an internal node begin after the header. -/
theorem offset_internalCell {i : ℕ} (h : i < 2 ^ 29) : offset (internalCell i) = 14 + 8 * i := by
  show 14 + u32 (i * 8) = _
  unfold u32; omega

/-- The separator of a cell is behind its child. -/
theorem offset_internalKey {i : ℕ} (h : i < 2 ^ 29) : offset (internalKey i) = 18 + 8 * i := by
  show offset (internalCell i) + 4 = _
  rw [offset_internalCell h]; omega

/-- The index wraps around at 2 ^ 29, since it is multiplied by the size of a cell. -/
theorem offset_internalKey_mod (i : ℕ) : offset (internalKey i) = 18 + 8 * (i % 2 ^ 29) := by
  show 14 + u32 (i * 8) + 4 = _
  unfold u32; omega

/-- The header ends where the cells begin. -/
theorem Header.end_le {l : Loc} (h : l.Header) : l.offset + l.width ≤ 14 := by
  cases h <;> decide

/-- Cells begin after the header. -/
theorem Body.le_offset {l : Loc} (h : l.Body) : 14 ≤ l.offset := by
  cases h <;>
    first
    | exact Nat.le_add_right _ _
    | exact Nat.le_trans (Nat.le_add_right _ _) (Nat.le_add_right _ _)

end Loc

namespace Page

variable (pg : Page) {l l' : Loc} {i j v : ℕ}

theorem load_parent : pg.load .parent = pg.parent := rfl
theorem load_numKeys : pg.load .numKeys = pg.numKeys := rfl
theorem load_rightChild : pg.load .rightChild = pg.rightChild := rfl
theorem load_internalCell : pg.load (.internalCell i) = pg.child i := rfl

theorem load_lt : pg.load l < 2 ^ (8 * l.width) := toNat_lt _

/-! ## Loads after stores -/

/-- The bytes of the two locations do not overlap. -/
theorem load_store_apart (h : l.offset + l.width ≤ l'.offset ∨ l'.offset + l'.width ≤ l.offset) :
    (pg.store l v).load l' = pg.load l' := by
  unfold load store
  rw [slice_splice_disjoint _ _ h.symm]

/-- Reading what has been written, cut to the width of the field. -/
theorem load_store_same (hw : l.width = l'.width) (ho : l.offset = l'.offset)
    (h : l'.offset + l'.width ≤ pageSize) :
    (pg.store l v).load l' = v % 2 ^ (8 * l'.width) := by
  unfold load store
  rw [hw, ho, slice_splice_same _ _ h, toNat_ofNat]

/-- Header fields: only the one at the same offset changes. -/
@[simp] theorem load_store_header (h : l.Header) (h' : l'.Header) :
    (pg.store l v).load l' =
      if l.offset = l'.offset then v % 2 ^ (8 * l'.width) else pg.load l' := by
  split
  · rename_i ho
    refine load_store_same pg ?_ ho (le_trans h'.end_le (by decide))
    cases h <;> cases h' <;> first | rfl | simp at ho
  · rename_i ho
    refine load_store_apart pg ?_
    cases h <;> cases h' <;> first | decide | simp at ho

/-- A write to the header changes no cell. -/
@[simp] theorem load_body_store_header (h : l.Header) (h' : l'.Body) :
    (pg.store l v).load l' = pg.load l' :=
  load_store_apart pg (Or.inl (le_trans h.end_le h'.le_offset))

/-- A write to a cell changes no field of the header. -/
@[simp] theorem load_header_store_body (h : l.Body) (h' : l'.Header) :
    (pg.store l v).load l' = pg.load l' :=
  load_store_apart pg (Or.inr (le_trans h'.end_le h.le_offset))

/-- A child written to a cell is in that cell alone. -/
theorem load_internalCell_store (hi : i < 500) (hj : j < 500) :
    (pg.store (.internalCell i) v).load (.internalCell j) =
      if i = j then v % 2 ^ 32 else pg.load (.internalCell j) := by
  have h1 := Loc.offset_internalCell (i := i) (by omega)
  have h2 := Loc.offset_internalCell (i := j) (by omega)
  split
  · rename_i h; subst h
    exact load_store_same pg rfl rfl (by rw [h1]; show _ + 4 ≤ 4096; omega)
  · refine load_store_apart pg ?_
    rw [h1, h2]; show _ + 4 ≤ _ ∨ _ + 4 ≤ _; omega

/-- A separator written to a cell is in that cell alone. -/
theorem load_internalKey_store (hi : i < 500) (hj : j < 500) :
    (pg.store (.internalKey i) v).load (.internalKey j) =
      if i = j then v % 2 ^ 32 else pg.load (.internalKey j) := by
  have h1 := Loc.offset_internalKey (i := i) (by omega)
  have h2 := Loc.offset_internalKey (i := j) (by omega)
  split
  · rename_i h; subst h
    exact load_store_same pg rfl rfl (by rw [h1]; show _ + 4 ≤ 4096; omega)
  · refine load_store_apart pg ?_
    rw [h1, h2]; show _ + 4 ≤ _ ∨ _ + 4 ≤ _; omega

/-- Writing children changes no separator. -/
theorem load_internalKey_store_internalCell (hi : i < 2 ^ 29) (hj : j < 2 ^ 29) :
    (pg.store (.internalCell i) v).load (.internalKey j) = pg.load (.internalKey j) := by
  refine load_store_apart pg ?_
  rw [Loc.offset_internalCell hi, Loc.offset_internalKey hj]
  show _ + 4 ≤ _ ∨ _ + 4 ≤ _; omega

/-- Writing separators changes no child, whatever the index is. -/
theorem load_internalCell_store_internalKey (hj : j < 2 ^ 29) :
    (pg.store (.internalKey i) v).load (.internalCell j) = pg.load (.internalCell j) := by
  refine load_store_apart pg ?_
  rw [Loc.offset_internalKey_mod, Loc.offset_internalCell hj]
  show _ + 4 ≤ _ ∨ _ + 4 ≤ _; omega

/-! ## The cells of a leaf -/

/-- A key written to a leaf is in its cell alone. -/
theorem key_store (hi : i < 15) (hj : j < 15) :
    (pg.store (.leafKey i) v).key j = if j = i then v % 2 ^ 32 else pg.key j := by
  have h1 := Loc.offset_leafKey (i := i) (by omega)
  have h2 := Loc.offset_leafKey (i := j) (by omega)
  unfold key
  split
  · rename_i h; subst h
    exact load_store_same pg rfl rfl (by rw [h1]; show _ + 4 ≤ 4096; omega)
  · refine load_store_apart pg ?_
    rw [h1, h2]; show _ + 4 ≤ _ ∨ _ + 4 ≤ _; omega

/-- Writing keys changes no row. -/
theorem value_store (hi : i < 15) (hj : j < 15) :
    (pg.store (.leafKey i) v).value j = pg.value j := by
  unfold value store
  refine slice_splice_disjoint _ _ ?_
  rw [Loc.offset_leafKey (by omega), Loc.offset_leafValue (by omega)]
  show _ + 260 ≤ _ ∨ _ + 4 ≤ _; omega

/-- Writing a row changes no key. -/
theorem key_fill (b : Bytes rowSize) (hi : i < 15) (hj : j < 15) :
    Page.key (pg.splice (Loc.leafValue i).offset b) j = pg.key j := by
  unfold key load
  rw [slice_splice_disjoint]
  rw [Loc.offset_leafKey (by omega), Loc.offset_leafValue (by omega)]
  show _ + 4 ≤ _ ∨ _ + 260 ≤ _; omega

/-- A row written to a leaf is in its cell alone. -/
theorem value_fill (b : Bytes rowSize) (hi : i < 15) (hj : j < 15) :
    Page.value (pg.splice (Loc.leafValue i).offset b) j = if j = i then b else pg.value j := by
  have h1 := Loc.offset_leafValue (i := i) (by omega)
  have h2 := Loc.offset_leafValue (i := j) (by omega)
  unfold value
  split
  · rename_i h; subst h
    exact slice_splice_same _ _ (by rw [h1]; show _ + 260 ≤ 4096; omega)
  · refine slice_splice_disjoint _ _ ?_
    rw [h1, h2]; show _ + 260 ≤ _ ∨ _ + 260 ≤ _; omega

/-- Writing a row changes no field of the header. -/
theorem load_header_fill (b : Bytes rowSize) (h : l.Header) :
    Page.load (pg.splice (Loc.leafValue i).offset b) l = pg.load l := by
  unfold load
  rw [slice_splice_disjoint]
  exact Or.inl (le_trans h.end_le (Loc.Body.le_offset (.leafValue i)))

/-- A page with the cell `j` of `src` copied over its cell `i`. -/
def copyCell (src : Page) (i j : ℕ) : Page :=
  pg.splice (Loc.leafCell i).offset (src.slice (Loc.leafCell j).offset leafNodeCellSize)

variable {src : Page} {k : ℕ}

/-- A copied cell has the key of its source. -/
theorem key_copyCell (hi : i < 15) (hj : j < 15) (hk : k < 15) :
    (pg.copyCell src i j).key k = if k = i then src.key j else pg.key k := by
  have h1 := Loc.offset_leafCell (i := i) (by omega)
  have h2 := Loc.offset_leafKey (i := k) (by omega)
  have h3 := Loc.offset_leafCell (i := j) (by omega)
  unfold key load copyCell
  split
  · rename_i h; subst h
    rw [slice_splice_inside _ _ (by rw [h1, h2]) (by rw [h1, h2]; show _ + 4 ≤ _ + 264; omega)
      (by rw [h2]; show _ + 4 ≤ 4096; omega), h1, h2, Nat.sub_self,
      slice_slice _ (by show 0 + 4 ≤ 264; omega), h3,
      Loc.offset_leafKey (by omega)]
    rfl
  · rw [slice_splice_disjoint]
    rw [h1, h2]; show _ + 4 ≤ _ ∨ _ + 264 ≤ _; omega

/-- A copied cell has the row of its source. -/
theorem value_copyCell (hi : i < 15) (hj : j < 15) (hk : k < 15) :
    (pg.copyCell src i j).value k = if k = i then src.value j else pg.value k := by
  have h1 := Loc.offset_leafCell (i := i) (by omega)
  have h2 := Loc.offset_leafValue (i := k) (by omega)
  have h3 := Loc.offset_leafCell (i := j) (by omega)
  unfold value copyCell
  split
  · rename_i h; subst h
    rw [slice_splice_inside _ _ (by rw [h1, h2]; omega)
      (by rw [h1, h2]; show _ + 260 ≤ _ + 264; omega)
      (by rw [h2]; show _ + 260 ≤ 4096; omega), h1, h2, h3, Loc.offset_leafValue (by omega),
      show 18 + 264 * k - (14 + 264 * k) = 4 by omega, slice_slice _ (by show 4 + 260 ≤ 264; omega),
      show 14 + 264 * j + 4 = 18 + 264 * j by omega]
  · rw [slice_splice_disjoint]
    rw [h1, h2]; show _ + 260 ≤ _ ∨ _ + 264 ≤ _; omega

/-- Copying cells changes no field of the header. -/
theorem load_header_copyCell (h : l.Header) : (pg.copyCell src i j).load l = pg.load l := by
  unfold load copyCell
  rw [slice_splice_disjoint]
  exact Or.inl (le_trans h.end_le (Loc.Body.le_offset (.leafCell i)))

/-! A key of an internal node written into a leaf lands in the value of its first cell. -/

/-- A separator written into a leaf hits no key. -/
theorem key_store_internalKey (hi : i < 32) (hj : j < 15) :
    (pg.store (.internalKey i) v).key j = pg.key j := by
  refine load_store_apart pg ?_
  rw [Loc.offset_internalKey (by omega), Loc.offset_leafKey (by omega)]
  show _ + 4 ≤ _ ∨ _ + 4 ≤ _; omega

/-- A separator written into a leaf hits the row of the first cell. -/
theorem value_store_internalKey (hi : i < 32) (hj : j < 15) :
    (pg.store (.internalKey i) v).value j =
      if j = 0 then (pg.value 0).splice (8 * i) (Bytes.ofNat 4 v) else pg.value j := by
  have h1 := Loc.offset_internalKey (i := i) (by omega)
  have h2 := Loc.offset_leafValue (i := j) (by omega)
  unfold value store
  split
  · rename_i h; subst h
    rw [h1, h2, show 18 + 8 * i = 18 + 264 * 0 + 8 * i by omega]
    exact slice_splice_around _ _ (by decide)
  · rw [slice_splice_disjoint]
    rw [h1, h2]; show _ + 260 ≤ _ ∨ _ + 4 ≤ _; omega

/-! ## Pages up to their parent field -/

/-- The page with its parent field cleared: what the splits above a leaf leave of it. -/
def erase : Page := pg.store .parent 0

/-- Up to the parent field, writing it does nothing. -/
@[simp] theorem erase_store_parent (v : ℕ) : (pg.store .parent v).erase = pg.erase := by
  unfold erase store; exact splice_splice_same _ _ _ _

/-- The other fields can be read from the erased page. -/
theorem load_erase (h : l ≠ .parent) (h' : l.Header ∨ l.Body) : pg.erase.load l = pg.load l := by
  unfold erase
  rcases h' with h' | h'
  · rw [load_store_header _ .parent h', if_neg]
    cases h' <;> first | decide | exact absurd rfl h
  · exact load_body_store_header _ .parent h'

theorem value_erase (i : ℕ) : pg.erase.value i = pg.value i := by
  unfold erase store value
  rw [slice_splice_disjoint]
  exact Or.inr (le_trans (by decide) (Loc.Body.le_offset (.leafValue i)))

variable {pg} {pg' : Page}

/-- Pages that agree up to the parent field agree in the other fields. -/
theorem load_of_erase (h : pg.erase = pg'.erase) (hl : l ≠ .parent) (hl' : l.Header ∨ l.Body) :
    pg.load l = pg'.load l := by
  rw [← load_erase pg hl hl', h, load_erase pg' hl hl']

/-- Pages that agree up to the parent field have the same rows. -/
theorem rows_of_erase (h : pg.erase = pg'.erase) : pg.rows = pg'.rows := by
  have hn : pg.numCells = pg'.numCells := load_of_erase h (by decide) (Or.inl .numCells)
  unfold rows
  rw [hn]
  refine List.map_congr_left fun i _ => ?_
  have hk : pg.key i = pg'.key i := load_of_erase h (by simp) (Or.inr (.leafKey i))
  have hv : pg.value i = pg'.value i := by rw [← value_erase pg, h, value_erase]
  rw [hk, hv]

/-! ## Whole pages -/

/-- Copying a whole page gives the copied page. -/
theorem splice_page (a b : Page) : a.splice 0 (b.slice 0 pageSize) = b := by
  refine ext_bit fun i hi => ?_
  rw [bit_splice _ _ _ hi, if_pos (by omega), slice_zero_self]
  rfl

end Page

/-! ## Accesses -/

namespace Mem

variable {K : ℕ → Prop} {data : Page} {l : Loc} {i : ℕ}

@[simp] theorem access_header (h : l.Header) : Access K data l :=
  ⟨le_trans h.end_le (by decide), fun _ he => by subst he; cases h⟩

theorem access_leafKey (h : i < 15) : Access K data (.leafKey i) :=
  ⟨by rw [Loc.offset_leafKey (by omega)]; show _ + 4 ≤ 4096; omega, fun _ he => by cases he⟩

/-- The cells of a leaf are inside the page. -/
theorem access_leafCell (h : i < 15) : Access K data (.leafCell i) :=
  ⟨by rw [Loc.offset_leafCell (by omega)]; show _ + 4 ≤ 4096; omega, fun _ he => by cases he⟩

/-- The cells of an internal node are inside the page, far beyond those in use. -/
theorem access_internalCell (h : i < 500) : Access K data (.internalCell i) :=
  ⟨by rw [Loc.offset_internalCell (by omega)]; show _ + 4 ≤ 4096; omega, fun _ he => by cases he⟩

theorem access_internalKey (h : i < 500) (hK : K i) : Access K data (.internalKey i) :=
  ⟨by rw [Loc.offset_internalKey (by omega)]; show _ + 4 ≤ 4096; omega,
    fun j he _ => by cases he; exact hK⟩

/-- In a leaf there is no separator that must not be read. -/
theorem access_internalKey_of_leaf (h : i < 500) (hl : data.isLeaf) :
    Access K data (.internalKey i) := by
  refine ⟨by rw [Loc.offset_internalKey (by omega)]; show _ + 4 ≤ 4096; omega, fun j _ h0 => ?_⟩
  simp [Page.isLeaf, Page.type, h0, NodeType.toByte, NodeType.ofByte] at hl

end Mem

end ToySQL
