import ToySQL.Proof.Nodes
import ToySQL.Proof.Stages

/-!
# Insertion into a leaf

* `wp_leafNodeInsert_room`: in a leaf with room the new row is inserted at the cursor.
* `wp_leafNodeInsert_full`: a full leaf is cut in two. Its rows with the new one at the
  cursor are distributed over the old page and the new one, the links are spliced, and
  the code goes on with a new root or with the insertion of the new page into the
  parent. `Halves` is what then is known of the two pages.
* `Page.stray`: what the separator written through the page of the cursor does to the
  lower half. It hits the value of the first row (`value_stray`) and nothing else.
-/

namespace ToySQL

open Program

/-- A sequence with `x` put in at `c`. -/
def insertAt {α : Type} (f : ℕ → α) (c : ℕ) (x : α) (i : ℕ) : α :=
  if i < c then f i else if i = c then x else f (i - 1)

/-- The list of the values with one put in. -/
theorem map_insertAt {α : Type} (f : ℕ → α) {c n : ℕ} (x : α) (h : c ≤ n) :
    (List.range (n + 1)).map (insertAt f c x) = ((List.range n).map f).insertIdx c x := by
  refine List.ext_getElem (by simp [List.length_insertIdx, h]) fun i hi _ => ?_
  have hi' : i < n + 1 := by simpa using hi
  rw [List.getElem_insertIdx]
  simp only [List.getElem_map, List.getElem_range, insertAt]
  split
  · rfl
  · split <;> rfl

namespace Page

/-- The cell `i` of a leaf. -/
def row (pg : Page) (i : ℕ) : ℕ × Bytes rowSize := (pg.key i, pg.value i)

/-- The headers agree but for the fields at some offsets. -/
def SameHeader (a b : Page) (except : List ℕ) : Prop :=
  ∀ l : Loc, l.Header → l.offset ∉ except → a.load l = b.load l

variable {pg a b : Page} {except : List ℕ}

theorem SameHeader.refl (a : Page) (except : List ℕ) : a.SameHeader a except := fun _ _ _ => rfl

theorem SameHeader.trans {c : Page} (h : a.SameHeader b except) (h' : b.SameHeader c except) :
    a.SameHeader c except := fun l hl hn => (h l hl hn).trans (h' l hl hn)

theorem SameHeader.mono {more : List ℕ} (h : a.SameHeader b except) (hm : except ⊆ more) :
    a.SameHeader b more := fun l hl hn => h l hl fun hx => hn (hm hx)

/-- Copying a cell changes nothing in the header. -/
theorem SameHeader.copyCell (pg src : Page) (i j : ℕ) : (pg.copyCell src i j).SameHeader pg [] :=
  fun _ hl _ => load_header_copyCell pg hl

/-- The type is at offset 0. -/
theorem SameHeader.type (h : a.SameHeader b except) (hn : 0 ∉ except) : a.type = b.type := by
  unfold Page.type; rw [h .nodeType .nodeType hn]

theorem SameHeader.isLeaf (h : a.SameHeader b except) (hn : 0 ∉ except) : a.isLeaf = b.isLeaf := by
  unfold Page.isLeaf; rw [h.type hn]

theorem SameHeader.isRoot (h : a.SameHeader b except) (hn : 1 ∉ except) : a.isRoot = b.isRoot := by
  unfold Page.isRoot; rw [h .isRoot .isRoot hn]

theorem SameHeader.parent (h : a.SameHeader b except) (hn : 2 ∉ except) : a.parent = b.parent :=
  h .parent .parent hn

theorem SameHeader.numCells (h : a.SameHeader b except) (hn : 6 ∉ except) :
    a.numCells = b.numCells := h .numCells .numCells hn

theorem SameHeader.nextLeaf (h : a.SameHeader b except) (hn : 10 ∉ except) :
    a.nextLeaf = b.nextLeaf := h .nextLeaf .nextLeaf hn

theorem rows_eq (pg : Page) : pg.rows = (List.range pg.numCells).map pg.row := rfl

theorem length_rows (pg : Page) : pg.rows.length = pg.numCells := by simp [rows]

/-- A write to the header changes no row. -/
theorem row_store_header {l : Loc} {v : ℕ} (hl : l.Header) (i : ℕ) :
    (a.store l v).row i = a.row i := by
  have hk : (a.store l v).key i = a.key i := load_body_store_header _ hl (.leafKey i)
  have hv : (a.store l v).value i = a.value i := by
    unfold value store
    rw [Bytes.slice_splice_disjoint]
    exact Or.inr (le_trans hl.end_le (Loc.Body.le_offset (.leafValue i)))
  unfold row
  rw [hk, hv]

/-! ## One cell -/

/-- A copied cell has key and row of its source. -/
theorem row_copyCell {i j k : ℕ} (src : Page) (hi : i < 15) (hj : j < 15) (hk : k < 15) :
    (pg.copyCell src i j).row k = if k = i then src.row j else pg.row k := by
  unfold row
  rw [key_copyCell pg hi hj hk, value_copyCell pg hi hj hk]
  split <;> rfl

/-- A row stored in the cell `i`. -/
def putCell (pg : Page) (i key : ℕ) (b : Bytes rowSize) : Page :=
  Page.store (pg.splice (Loc.leafValue i).offset b) (.leafKey i) key

/-- A stored cell has its key and its row. -/
theorem row_putCell {i k key : ℕ} {b : Bytes rowSize} (hi : i < 15) (hk : k < 15)
    (hkey : key < 2 ^ 32) : (a.putCell i key b).row k = if k = i then (key, b) else a.row k := by
  unfold row putCell
  rw [key_store _ hi hk, value_store _ hi hk, key_fill _ _ hi hk, value_fill _ _ hi hk,
    Nat.mod_eq_of_lt hkey]
  split <;> rfl

/-- Storing a cell changes nothing in the header. -/
theorem SameHeader.putCell (pg : Page) (i key : ℕ) (b : Bytes rowSize) :
    (pg.putCell i key b).SameHeader pg [] := by
  intro l hl _
  unfold Page.putCell
  rw [load_header_store_body _ (.leafKey i) hl, load_header_fill _ _ hl]

end Page

namespace Mem

open Page

variable {K T : ℕ → Prop} [DecidablePred K] [DecidablePred T] {m : Mem} {p q : ℕ}
  {F : Fault → Mem → Prop} {Q : Unit → Mem → Prop}

theorem wp_copyCell {dst src i j : ℕ} (hi : i < 15) (hj : j < 15) :
    wp (handler K T) (memcpy dst (.leafCell i) src (.leafCell j) leafNodeCellSize) Q F m ↔
      Q () (m.set dst ((m.page dst).copyCell (m.page src) i j)) := by
  refine wp_memcpy ⟨?_, ?_⟩
  · rw [Loc.offset_leafCell (by omega)]; show _ + 264 ≤ 4096; omega
  · rw [Loc.offset_leafCell (by omega)]; show _ + 264 ≤ 4096; omega

/-- The serialized row written to a cell. -/
theorem wp_fillCell {i : ℕ} (b : Bytes rowSize) (hi : i < 15) :
    wp (handler K T) (fill p (.leafValue i) b) Q F m ↔
      Q () (m.set p ((m.page p).splice (Loc.leafValue i).offset b)) := by
  refine wp_fill ?_
  rw [Loc.offset_leafValue (by omega)]; show _ + 260 ≤ 4096; omega

/-! ## A leaf with room -/

/-- The loop that moves the cells from the cursor on one place to the right. -/
theorem wp_shiftLeafCells {c : ℕ} : ∀ n (m : Mem), n < 15 →
    (∀ a : Page, a.SameHeader (m.page p) [] →
      (∀ j < 15, a.row j = if c < j ∧ j ≤ n then (m.page p).row (j - 1) else (m.page p).row j) →
      Q () (m.set p a)) →
    wp (handler K T) (shiftLeafCells p c n) Q F m := by
  intro n
  -- the loop runs downwards: `n` is the cell written next
  induction n with
  | zero =>
    intro m _ h
    have := h (m.page p) (.refl _ _) fun j _ => by rw [if_neg (by omega)]
    rwa [set_page_self] at this
  | succ n ih =>
    intro m hn h
    unfold shiftLeafCells
    by_cases hc : n + 1 > c
    · rw [if_pos hc, wp_bind, wp_copyCell hn (by omega)]
      refine ih _ (by omega) fun a ha hrow => ?_
      rw [set_set]
      rw [page_set_self] at ha hrow
      refine h a (ha.trans (.copyCell _ _ _ _)) fun j hj => ?_
      rw [hrow j hj]
      by_cases h1 : c < j ∧ j ≤ n
      · rw [if_pos h1, if_pos ⟨h1.1, by omega⟩, row_copyCell _ hn (by omega) (by omega),
          if_neg (by omega)]
      · rw [if_neg h1, row_copyCell _ hn (by omega) hj]
        by_cases h2 : j = n + 1
        · rw [if_pos h2, if_pos ⟨by omega, by omega⟩, h2]; rfl
        · rw [if_neg h2, if_neg (by omega)]
    · rw [if_neg hc]
      have := h (m.page p) (.refl _ _) fun j _ => by rw [if_neg (by omega)]
      rwa [set_page_self] at this

/-- A page with the row `x` inserted at `c`: `a` before, `a'` after. -/
structure Inserted (a : Page) (c : ℕ) (x : ℕ × Bytes rowSize) (a' : Page) : Prop where
  header : a'.SameHeader a [6]
  rows : a'.rows = a.rows.insertIdx c x

theorem Inserted.numCells {a a' : Page} {c : ℕ} {x : ℕ × Bytes rowSize} (h : Inserted a c x a')
    (hc : c ≤ a.numCells) : a'.numCells = a.numCells + 1 := by
  rw [← length_rows, h.rows, List.length_insertIdx_of_le_length (by rw [length_rows]; exact hc),
    length_rows]

/-- **Insertion into a leaf with room**, whatever a split does. -/
theorem wp_leafNodeInsertStep_room {c key : ℕ} {e : Bool} {row : Row} {split : Prog ℕ Unit}
    (hT : T p)
    (hn : (m.page p).numCells < 15) (hc : c ≤ (m.page p).numCells) (hkey : key < 2 ^ 32)
    (h : ∀ a, Inserted (m.page p) c (key, row.serialize) a → Q () ((m.touch p).set p a)) :
    wp (handler K T) (leafNodeInsertStep ⟨p, c, e⟩ key row split) Q F m := by
  have hn' : ¬ (m.page p).load .numCells ≥ leafNodeMaxCells := not_le.2 hn
  have hload : (m.page p).load .numCells = (m.page p).numCells := rfl
  -- what is left to do after the shift
  have hrest : ∀ a : Page, a.SameHeader (m.page p) [] →
      (∀ j < 15, j ≤ (m.page p).numCells → j ≠ c → a.row j =
        insertAt (m.page p).row c (key, row.serialize) j) →
      wp (handler K T) (do
        store p .numCells (u32 ((← load p .numCells) + 1))
        store p (.leafKey c) key
        fill p (.leafValue c) row.serialize) Q F ((m.touch p).set p a) := by
    intro a ha hrow
    have hu : u32 (a.load .numCells + 1) = (m.page p).numCells + 1 := by
      rw [ha .numCells .numCells (by simp), hload]; unfold u32; omega
    rw [wp_bind, wp_load (access_header .numCells), page_set_self, hu, wp_bind,
      wp_store (access_header .numCells), wp_bind, wp_store (access_leafKey (by omega)),
      wp_fillCell _ (by omega)]
    simp only [page_set_self, set_set]
    refine h _ ⟨?_, ?_⟩
    · intro l hl hne
      rw [load_header_fill _ _ hl, load_header_store_body _ (.leafKey c) hl,
        load_store_header _ .numCells hl, if_neg fun he => hne (by rw [← he]; simp)]
      exact ha l hl (by simp)
    · have hcells : Page.numCells (((a.store .numCells ((m.page p).numCells + 1)).store (.leafKey c)
          key).splice (Loc.leafValue c).offset row.serialize) = (m.page p).numCells + 1 := by
        unfold Page.numCells at *
        rw [load_header_fill _ _ .numCells, load_header_store_body _ (.leafKey c) .numCells,
          load_store_header _ .numCells .numCells, if_pos rfl]
        show _ % 2 ^ 32 = _
        omega
      rw [rows_eq, hcells, rows_eq, ← map_insertAt _ _ hc]
      refine List.map_congr_left fun j hj => ?_
      have hj' : j < (m.page p).numCells + 1 := List.mem_range.1 hj
      have hr : Page.row (((a.store .numCells ((m.page p).numCells + 1)).store (.leafKey c)
          key).splice (Loc.leafValue c).offset row.serialize) j =
          if j = c then (key, row.serialize) else a.row j := by
        rw [← row_store_header (a := a) (v := (m.page p).numCells + 1) .numCells j]
        unfold Page.row
        rw [key_fill _ _ (by omega) (by omega), value_fill _ _ (by omega) (by omega),
          key_store _ (by omega) (by omega), value_store _ (by omega) (by omega),
          Nat.mod_eq_of_lt hkey]
        split <;> rfl
      rw [hr]
      by_cases hjc : j = c
      · rw [if_pos hjc, insertAt, if_neg (by omega), if_pos hjc]
      · rw [if_neg hjc]; exact hrow j (by omega) (by omega) hjc
  unfold leafNodeInsertStep
  simp only [wp_bind, wp_getPage hT, wp_load (access_header .numCells), page_touch, if_neg hn']
  by_cases hlt : c < (m.page p).load .numCells
  · rw [if_pos hlt, wp_bind]
    refine wp_shiftLeafCells _ _ hn fun a ha hrow => ?_
    rw [page_touch] at ha hrow
    refine hrest a ha fun j hj hjn hjc => ?_
    rw [hrow j hj, insertAt]
    by_cases hcj : c < j
    · rw [if_pos ⟨hcj, hjn⟩, if_neg (by omega), if_neg hjc]
    · rw [if_neg (by omega), if_pos (by omega)]
  · rw [if_neg hlt]
    have := hrest (m.page p) (.refl _ _) fun j hj hjn hjc => by
      rw [insertAt, if_pos (by omega)]
    rw [← page_touch m p, set_page_self] at this
    exact this

/-- **A leaf with room** takes the row at the cursor. -/
theorem wp_leafNodeInsert_room {fuel c key : ℕ} {e : Bool} {row : Row} (hT : T p)
    (hn : (m.page p).numCells < 15) (hc : c ≤ (m.page p).numCells) (hkey : key < 2 ^ 32)
    (h : ∀ a, Inserted (m.page p) c (key, row.serialize) a → Q () ((m.touch p).set p a)) :
    wp (handler K T) (leafNodeInsert fuel ⟨p, c, e⟩ key row) Q F m := by
  rw [leafNodeInsert_eq_step]
  exact wp_leafNodeInsertStep_room hT hn hc hkey h

/-! ## The cells of a split -/

/-- One cell of the old cells with the new one goes to its half. -/
theorem wp_splitLeafCell {c key i : ℕ} {row : Row} {f : ℕ → ℕ × Bytes rowSize} (hi : i < 16)
    (hc : c ≤ 15) (hkey : key < 2 ^ 32) (hf : ∀ j < 15, j ≤ i → (m.page p).row j = f j)
    (h : ∀ d : Page, d.SameHeader (m.page (if i ≥ 8 then q else p)) [] →
      (∀ j < 15, d.row j = if j = i % 8 then insertAt f c (key, row.serialize) i
        else (m.page (if i ≥ 8 then q else p)).row j) →
      Q () (m.set (if i ≥ 8 then q else p) d)) :
    wp (handler K T) (splitLeafCell p q c key row i) Q F m := by
  unfold splitLeafCell
  simp only [show leafNodeLeftSplitCount = 8 from rfl]
  have hm : i % 8 < 15 := by omega
  -- the new row, a row above it, a row below it
  by_cases h1 : i = c
  · rw [if_pos h1, wp_bind, wp_fillCell _ hm, wp_store (access_leafCell hm), page_set_self, set_set]
    refine h _ (.putCell _ _ _ _) fun j hj => ?_
    have := row_putCell (a := m.page (if i ≥ 8 then q else p)) (b := row.serialize) hm hj hkey
    have hins : insertAt f c (key, row.serialize) i = (key, row.serialize) := by
      rw [insertAt, if_neg (by omega), if_pos h1]
    rw [hins]
    exact this
  · rw [if_neg h1]
    by_cases h2 : i > c
    · rw [if_pos h2, wp_copyCell hm (by omega)]
      refine h _ (.copyCell _ _ _ _) fun j hj => ?_
      have hins : insertAt f c (key, row.serialize) i = f (i - 1) := by
        rw [insertAt, if_neg (by omega), if_neg h1]
      rw [row_copyCell _ hm (by omega) hj, hins, hf (i - 1) (by omega) (by omega)]
    · rw [if_neg h2, wp_copyCell hm (by omega)]
      refine h _ (.copyCell _ _ _ _) fun j hj => ?_
      have hins : insertAt f c (key, row.serialize) i = f i := by rw [insertAt, if_pos (by omega)]
      rw [row_copyCell _ hm (by omega) hj, hins, hf i (by omega) le_rfl]

/-- The loop of `leaf_node_split_and_insert`. The cells below `count` are still the old
ones when it goes on, since it runs downwards. -/
theorem wp_splitLeafCells {c key : ℕ} {row : Row} {f : ℕ → ℕ × Bytes rowSize} (hpq : p ≠ q)
    (hc : c ≤ 15) (hkey : key < 2 ^ 32) : ∀ count (m : Mem), count ≤ 16 →
    (∀ j < 15, j < count → (m.page p).row j = f j) →
    (∀ a b : Page, a.SameHeader (m.page p) [] → b.SameHeader (m.page q) [] →
      (∀ j < 8, a.row j =
        if j < count then insertAt f c (key, row.serialize) j else (m.page p).row j) →
      (∀ j < 8, b.row j =
        if j + 8 < count then insertAt f c (key, row.serialize) (j + 8) else (m.page q).row j) →
      Q () ((m.set p a).set q b)) →
    wp (handler K T) (splitLeafCells p q c key row count) Q F m := by
  intro count
  -- from the last row down: cells below `count` are still the old ones
  induction count with
  | zero =>
    intro m _ _ h
    have := h (m.page p) (m.page q) (.refl _ _) (.refl _ _) (fun j _ => by simp) fun j _ => by simp
    rw [set_page_self, set_page_self] at this
    exact this
  | succ i ih =>
    intro m hi hf h
    unfold splitLeafCells
    rw [wp_bind]
    refine wp_splitLeafCell (f := f) (by omega) hc hkey (fun j hj hji => hf j hj (by omega)) ?_
    intro d hd hrow
    -- the upper eight rows go to the new leaf
    by_cases h8 : i ≥ 8
    · rw [if_pos h8] at hd hrow ⊢
      refine ih _ (by omega) (fun j hj hji => ?_) fun a b ha hb hra hrb => ?_
      · rw [page_set_ne _ _ hpq]; exact hf j hj (by omega)
      · rw [page_set_ne _ _ hpq] at ha hra
        rw [page_set_self] at hb hrb
        have heq : (((m.set q d).set p a).set q b) = (m.set p a).set q b := by
          simp only [set, Function.update_comm hpq, Function.update_idem]
        rw [heq]
        refine h a b ha (hb.trans hd) (fun j hj => ?_) fun j hj => ?_
        · rw [hra j hj, if_pos (by omega), if_pos (by omega)]
        · rw [hrb j hj]
          by_cases h1 : j + 8 < i
          · rw [if_pos h1, if_pos (by omega)]
          · rw [if_neg h1, hrow j (by omega)]
            by_cases h2 : j = i % 8
            · rw [if_pos h2, if_pos (by omega)]; congr 1; omega
            · rw [if_neg h2, if_neg (by omega)]
    · rw [if_neg h8] at hd hrow ⊢
      refine ih _ (by omega) (fun j hj hji => ?_) fun a b ha hb hra hrb => ?_
      · rw [page_set_self, hrow j hj, if_neg (by omega)]; exact hf j hj (by omega)
      · rw [page_set_self] at ha hra
        rw [page_set_ne _ _ hpq.symm] at hb hrb
        rw [set_set]
        refine h a b (ha.trans hd) hb (fun j hj => ?_) fun j hj => ?_
        · rw [hra j hj]
          by_cases h1 : j < i
          · rw [if_pos h1, if_pos (by omega)]
          · rw [if_neg h1, hrow j (by omega)]
            by_cases h2 : j = i % 8
            · rw [if_pos h2, if_pos (by omega)]; congr 1; omega
            · rw [if_neg h2, if_neg (by omega)]
        · rw [hrb j hj, if_neg (by omega), if_neg (by omega)]

/-! ## A full leaf -/

end Mem

namespace Page

/-- The two pages a full leaf `a` is cut into, when `x` is inserted at `c`: `l` in its
place and `r` at the page number `new`. -/
structure Halves (a : Page) (new c : ℕ) (x : ℕ × Bytes rowSize) (l r : Page) : Prop where
  header : l.SameHeader a [6, 10]
  numCells : l.numCells = 8
  nextLeaf : l.nextLeaf = new
  rows : l.rows = (a.rows.insertIdx c x).take 8
  newType : r.type = .leaf
  newRoot : r.isRoot = false
  newParent : r.parent = a.parent
  newCells : r.numCells = 8
  newNext : r.nextLeaf = a.nextLeaf
  newRows : r.rows = (a.rows.insertIdx c x).drop 8

/-- The separator of the lower half written into the lower half itself. -/
def stray (l : Page) (oldMax : ℕ) : Page := l.store (.internalKey (l.findChild oldMax)) l.maxKey

variable {l : Page} {oldMax : ℕ}

/-- The stray separator is not in the header. -/
theorem SameHeader.stray (l : Page) (oldMax : ℕ) : (l.stray oldMax).SameHeader l [] :=
  fun _ hl _ => load_header_store_body _ (.internalKey _) hl

/-- The stray separator hits no key of the lower half. -/
theorem key_stray (hn : l.numCells ≤ 8) {j : ℕ} (hj : j < 15) : (l.stray oldMax).key j = l.key j :=
  key_store_internalKey _
    (lt_of_le_of_lt (findChild_le l oldMax) (lt_of_le_of_lt hn (by decide))) hj

/-- **The stray write hits the value of the first row.** -/
theorem value_stray (hn : l.numCells ≤ 8) {j : ℕ} (hj : j < 15) :
    (l.stray oldMax).value j =
      if j = 0 then (l.value 0).splice (8 * l.findChild oldMax) (Bytes.ofNat 4 l.maxKey)
      else l.value j :=
  value_store_internalKey _
    (lt_of_le_of_lt (findChild_le l oldMax) (lt_of_le_of_lt hn (by decide))) hj

/-- Leaves that agree cell by cell have the same rows. -/
theorem rows_of_row {a b : Page} (hn : a.numCells = b.numCells)
    (h : ∀ j < b.numCells, a.row j = b.row j) : a.rows = b.rows := by
  rw [rows_eq, rows_eq, hn]
  exact List.map_congr_left fun j hj => h j (List.mem_range.1 hj)

theorem keys_eq (pg : Page) : pg.keys = (List.range pg.numCells).map pg.key := by
  simp [keys, rows]

/-- The lower half keeps its keys. -/
theorem keys_stray (hn : l.numCells ≤ 8) : (l.stray oldMax).keys = l.keys := by
  rw [keys_eq, keys_eq, (SameHeader.stray l oldMax).numCells (by simp)]
  refine List.map_congr_left fun j hj => key_stray hn ?_
  have := List.mem_range.1 hj
  omega

/-- The lower half of the cells with the new one. -/
theorem map_insertAt_take {α : Type} (f : ℕ → α) {c n k : ℕ} (x : α) (h : c ≤ n) (hk : k ≤ n + 1) :
    (((List.range n).map f).insertIdx c x).take k = (List.range k).map (insertAt f c x) := by
  rw [← map_insertAt f x h, ← List.map_take, List.take_range, min_eq_left hk]

/-- The upper half of the cells with the new one. -/
theorem map_insertAt_drop {α : Type} (f : ℕ → α) {c n k : ℕ} (x : α) (h : c ≤ n) :
    (((List.range n).map f).insertIdx c x).drop k =
      (List.range (n + 1 - k)).map fun j => insertAt f c x (j + k) := by
  rw [← map_insertAt f x h]
  refine List.ext_getElem (by simp) fun i _ _ => ?_
  simp [Nat.add_comm]

end Page

namespace Mem

open Page

/-- The pages of a split leaf, from the loop on. -/
theorem halves_of_cells {a l r : Page} {b : Page} {new c key : ℕ} {row : Row} (hn : a.numCells = 15)
    (hc : c ≤ 15) (hnew : new < 2 ^ 32)
    (hl : l.SameHeader (a.store .nextLeaf new) [])
    (hr : r.SameHeader (((b.initLeaf).store .parent a.parent).store .nextLeaf a.nextLeaf) [])
    (hla : ∀ j < 8, l.row j = insertAt a.row c (key, row.serialize) j)
    (hra : ∀ j < 8, r.row j = insertAt a.row c (key, row.serialize) (j + 8)) :
    Halves a new c (key, row.serialize) (l.store .numCells 8) (r.store .numCells 8) := by
  have hp : a.parent < 2 ^ 32 := load_lt a (l := .parent)
  have hx : a.nextLeaf < 2 ^ 32 := load_lt a (l := .nextLeaf)
  have hrow : ∀ (d : Page) j, (d.store .numCells 8).row j = d.row j :=
    fun d => row_store_header .numCells
  have hcells : ∀ d : Page, (d.store .numCells 8).numCells = 8 := fun d => by
    unfold Page.numCells; simp
  -- storing the count leaves the other header fields
  have hother : ∀ (d : Page) (lc : Loc), lc.Header → lc.offset ≠ 6 →
      (d.store .numCells 8).load lc = d.load lc := fun d lc hlc h6 => by
    rw [load_store_header _ .numCells hlc, if_neg fun h => h6 h.symm]
  constructor
  · intro lc hlc hne
    simp only [List.mem_cons, List.not_mem_nil, or_false, not_or] at hne
    rw [hother _ _ hlc hne.1, hl lc hlc (by simp), load_store_header _ .nextLeaf hlc,
      if_neg fun h => hne.2 h.symm]
  · exact hcells l
  · unfold Page.nextLeaf
    rw [hother _ _ .nextLeaf (by simp), hl .nextLeaf .nextLeaf (by simp)]
    simpa using hnew
  -- the lower half has the first eight of the sixteen rows
  · rw [rows_eq, rows_eq a, hn, map_insertAt_take _ _ hc (by omega), hcells]
    exact List.map_congr_left fun j hj => (hrow l j).trans (hla j (List.mem_range.1 hj))
  · unfold Page.type
    rw [hother _ _ .nodeType (by simp), hr .nodeType .nodeType (by simp)]
    simp [initLeaf, NodeType.ofByte]
  · unfold Page.isRoot
    rw [hother _ _ .isRoot (by simp), hr .isRoot .isRoot (by simp)]
    simp [initLeaf]
  · unfold Page.parent at hp ⊢
    rw [hother _ _ .parent (by simp), hr .parent .parent (by simp)]
    simpa [Page.parent] using hp
  · exact hcells r
  · unfold Page.nextLeaf at hx ⊢
    rw [hother _ _ .nextLeaf (by simp), hr .nextLeaf .nextLeaf (by simp)]
    simpa [Page.nextLeaf] using hx
  -- the upper half has the others
  · rw [rows_eq, rows_eq a, hn, map_insertAt_drop _ _ hc, hcells]
    exact List.map_congr_left fun j hj => (hrow r j).trans (hra j (List.mem_range.1 hj))

variable {K T : ℕ → Prop} [DecidablePred K] [DecidablePred T] {m : Mem} {p : ℕ}
  {F : Fault → Mem → Prop} {Q : Unit → Mem → Prop}

/-- What follows the loop: the counts, and then a new root or the separator. -/
theorem wp_linkHalves {q : ℕ} {l r : Page} {Q : Option (ℕ × ℕ) → Mem → Prop} (oldMax fuel : ℕ)
    (hpq : p ≠ q) (hT : T p)
    (hp : m.cached p = true) (hl : (m.page p).store .numCells 8 = l)
    (hr : (m.page q).store .numCells 8 = r) (hleaf : l.isLeaf) (hn : l.numCells = 8)
    (hroot : l.isRoot = true →
      wp (handler K T) (createNewRoot fuel q) (fun _ => Q none) F ((m.set p l).set q r))
    (hinner : l.isRoot = false → Q (some (l.parent, q)) ((m.set p (l.stray oldMax)).set q r)) :
    wp (handler K T) (do
      store p .numCells leafNodeLeftSplitCount
      store q .numCells leafNodeRightSplitCount
      if (← isNodeRoot p) then
        createNewRoot fuel q
        return none
      else
        let parentPageNum ← load p .parent
        let newMax ← getNodeMaxKey fuel p
        let parent ← getPage p
        updateInternalNodeKey parent (← internalNodeFindChild parent oldMax) newMax
        return some (parentPageNum, q)) Q F m := by
  have hl' : (m.page p).store .numCells leafNodeLeftSplitCount = l := hl
  have hr' : (m.page q).store .numCells leafNodeRightSplitCount = r := hr
  have hpage : ((m.set p l).set q r).page p = l := by rw [page_set_ne _ _ hpq, page_set_self]
  have hcached : ((m.set p l).set q r).cached p = true := hp
  simp only [wp_bind, wp_store (access_header .numCells), page_set_ne _ _ hpq.symm, hl', hr',
    wp_isNodeRoot, hpage]
  cases h : l.isRoot with
  | true =>
    rw [if_pos rfl, wp_bind]
    exact hroot h
  -- a leaf below the root: the search of its parent is made in the leaf itself
  | false =>
    have hmax : MaxOk K (((m.set p l).set q r).page p) := by
      rw [hpage]; exact ⟨fun _ => by omega, fun h => absurd hleaf h⟩
    have hkeys : l.numKeys = 8 := hn
    have hle := findChild_le l oldMax
    rw [if_neg Bool.false_ne_true]
    simp only [wp_bind, wp_load (access_header .parent), wp_getNodeMaxKey _ hmax, wp_getPage hT,
      touch_of_cached hcached]
    rw [wp_internalNodeFindChild (by rw [hpage]; omega) fun i hi =>
      access_internalKey_of_leaf (by rw [hpage] at hi; omega) (by rw [hpage]; exact hleaf)]
    unfold updateInternalNodeKey
    rw [wp_store (access_internalKey_of_leaf (by rw [hpage]; omega) (by rw [hpage]; exact hleaf)),
      hpage, set_comm _ _ _ hpq.symm, set_set]
    exact hinner h

/-- **The split of a full leaf**, up to the insertion into its parent. -/
theorem wp_leafNodeSplit {fuel c key : ℕ} {e : Bool} {row : Row} {Q : Option (ℕ × ℕ) → Mem → Prop}
    (hm : m.Tight)
    (hp : p < m.numPages) (hT : T p) (hnew : m.numPages < 2 ^ 32) (hl : (m.page p).isLeaf)
    (hn : (m.page p).numCells = 15) (hc : c ≤ 15) (hkey : key < 2 ^ 32)
    (hout : ¬ T m.numPages → F (.outOfRange "Page number exceeding") m)
    (hroot : T m.numPages → (m.page p).isRoot = true → ∀ l r,
      Halves (m.page p) m.numPages c (key, row.serialize) l r →
      wp (handler K T) (createNewRoot fuel m.numPages) (fun _ => Q none) F
        ((m.alloc.set p l).set m.numPages r))
    (hinner : T m.numPages → (m.page p).isRoot = false → ∀ l r,
      Halves (m.page p) m.numPages c (key, row.serialize) l r →
      Q (some ((m.page p).parent, m.numPages))
      ((m.alloc.set p (l.stray (m.page p).maxKey)).set m.numPages r)) :
    wp (handler K T) (leafNodeSplit fuel ⟨p, c, e⟩ key row) Q F m := by
  have hpn : p ≠ m.numPages := hp.ne
  have hmax : MaxOk K (m.page p) := ⟨fun _ => hn.le, fun h => absurd hl h⟩
  unfold leafNodeSplit
  simp only [wp_bind, wp_getPage hT, hm.touch_of_lt hp, wp_getNodeMaxKey _ hmax, wp_getUnusedPage]
  by_cases hTn : T m.numPages
  · simp only [wp_getPage hTn, wp_initializeLeafNode, wp_load (access_header .parent),
      wp_store (access_header .parent), wp_load (access_header .nextLeaf),
      wp_store (access_header .nextLeaf), page_set, page_touch, Function.update_of_ne hpn,
      Function.update_self, set_set]
    refine wp_splitLeafCells (f := (m.page p).row) hpn hc hkey _ _ le_rfl ?_ ?_
    · intro j _ _
      rw [page_set_self]; exact row_store_header .nextLeaf j
    · intro l r hsl hsr hla hra
      rw [page_set_self] at hsl
      rw [page_set_ne _ _ hpn.symm, page_set_self] at hsr
      -- the loop over all sixteen rows leaves the two halves
      have hh := halves_of_cells hn hc hnew hsl hsr
        (fun j hj => (hla j hj).trans (if_pos (show j < 16 by omega)))
        fun j hj => (hra j hj).trans (if_pos (show j + 8 < 16 by omega))
      rw [set_comm _ _ _ hpn.symm, set_pair _ _ _ hpn]
      have hcached : m.alloc.cached p = true := hm.cached_alloc hp.le
      have hlink := wp_linkHalves (K := K) (Q := Q) (F := F)
        (m := (m.alloc.set p l).set m.numPages r) (m.page p).maxKey fuel hpn hT hcached
        (by rw [page_set_ne _ _ hpn, page_set_self]) (by rw [page_set_self])
        ((hh.header.isLeaf (by simp)).trans hl) hh.numCells
        (fun h => ?_) (fun h => ?_)
      · simp only [wp_bind] at hlink
        exact hlink
      · rw [set_pair _ _ _ hpn]
        exact hroot hTn ((hh.header.isRoot (by simp)).symm.trans h) _ _ hh
      · rw [set_pair _ _ _ hpn, hh.header.parent (by simp)]
        exact hinner hTn ((hh.header.isRoot (by simp)).symm.trans h) _ _ hh
  · rw [wp_getPage_of_not hTn]; exact hout hTn

/-- **A full leaf**, up to the insertion into its parent. -/
theorem wp_leafNodeStage_full {fuel c key : ℕ} {e : Bool} {row : Row}
    {Q : Option (ℕ × ℕ) → Mem → Prop} (hm : m.Tight)
    (hp : p < m.numPages) (hT : T p) (hnew : m.numPages < 2 ^ 32) (hl : (m.page p).isLeaf)
    (hn : (m.page p).numCells = 15) (hc : c ≤ 15) (hkey : key < 2 ^ 32)
    (hout : ¬ T m.numPages → F (.outOfRange "Page number exceeding") m)
    (hroot : T m.numPages → (m.page p).isRoot = true → ∀ l r,
      Halves (m.page p) m.numPages c (key, row.serialize) l r →
      wp (handler K T) (createNewRoot fuel m.numPages) (fun _ => Q none) F
        ((m.alloc.set p l).set m.numPages r))
    (hinner : T m.numPages → (m.page p).isRoot = false → ∀ l r,
      Halves (m.page p) m.numPages c (key, row.serialize) l r →
      Q (some ((m.page p).parent, m.numPages))
      ((m.alloc.set p (l.stray (m.page p).maxKey)).set m.numPages r)) :
    wp (handler K T) (leafNodeStage fuel ⟨p, c, e⟩ key row) Q F m := by
  have hge : (m.page p).load .numCells ≥ leafNodeMaxCells := hn.ge
  unfold leafNodeStage
  simp only [wp_bind, wp_getPage hT, wp_load (access_header .numCells), if_pos hge,
    hm.touch_of_lt hp]
  exact wp_leafNodeSplit hm hp hT hnew hl hn hc hkey hout hroot hinner

/-- **Insertion into a full leaf.** -/
theorem wp_leafNodeInsert_full {fuel c key : ℕ} {e : Bool} {row : Row} (hm : m.Tight)
    (hp : p < m.numPages) (hT : T p) (hnew : m.numPages < 2 ^ 32) (hl : (m.page p).isLeaf)
    (hn : (m.page p).numCells = 15) (hc : c ≤ 15) (hkey : key < 2 ^ 32)
    (hout : ¬ T m.numPages → F (.outOfRange "Page number exceeding") m)
    (hroot : T m.numPages → (m.page p).isRoot = true → ∀ l r,
      Halves (m.page p) m.numPages c (key, row.serialize) l r →
      wp (handler K T) (createNewRoot fuel m.numPages) Q F ((m.alloc.set p l).set m.numPages r))
    (hinner : T m.numPages → (m.page p).isRoot = false → ∀ l r,
      Halves (m.page p) m.numPages c (key, row.serialize) l r →
      wp (handler K T) (internalNodeInsert fuel (m.page p).parent m.numPages) Q F
        ((m.alloc.set p (l.stray (m.page p).maxKey)).set m.numPages r)) :
    wp (handler K T) (leafNodeInsert fuel ⟨p, c, e⟩ key row) Q F m := by
  rw [leafNodeInsert_eq, wp_bind]
  exact wp_leafNodeStage_full hm hp hT hnew hl hn hc hkey hout hroot hinner

end Mem

end ToySQL
