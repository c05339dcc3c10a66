import ToySQL.Spec.Rows
import ToySQL.Proof.NoPage
import ToySQL.Proof.Recount
import ToySQL.Proof.Step

/-!
# The row format

* `Row.deserialize_serialize`, `Row.ofMemory_serialize`: decoding a row, or reading it in
  place, gives the row without the bytes after its text.
* `Row.serialize_deserialize`: encoding again gives the buffer, if the bytes after the text
  are zero.
* `Reaches.seen_written`: the row an insertion writes, seen through the cursor after it.
* `rowFormat`: the whole format, and the rows that leaf cells are written with.
* `not_rowFormat`: a row with other bytes than those it was inserted with.
-/

namespace ToySQL

namespace Row

variable {r r' : Row} {n : ℕ}

/-- The row without the bytes after its text. -/
def trim (r : Row) : Row :=
  { r with text := (Bytes.zero 255).splice 0 (r.text.slice 0 r.textSize.toNat) }

theorem textSize_le (r : Row) : r.textSize.toNat ≤ 255 := Nat.le_of_lt_succ r.textSize.toNat_lt

/-! ## The fields of a buffer -/

/-- Bytes 0 to 3 of a row are its id. -/
theorem serialize_id : r.serialize.slice idOffset 4 = Bytes.ofNat 4 r.id.toNat := by
  unfold serialize
  rw [Bytes.slice_splice_disjoint _ _ (Or.inl (by decide)),
    Bytes.slice_splice_disjoint _ _ (Or.inl (by decide)),
    Bytes.slice_splice_same _ _ (by decide)]

/-- Byte 4 of a row is the size of its text. -/
theorem serialize_textSize :
    r.serialize.slice textSizeOffset 1 = Bytes.ofNat 1 r.textSize.toNat := by
  unfold serialize
  rw [Bytes.slice_splice_disjoint _ _ (Or.inl (by decide)), Bytes.slice_splice_same _ _ (by decide)]

/-- The other bytes of a row are its text, zeros after its size. -/
theorem serialize_text (r : Row) : r.serialize.slice textOffset 255 = r.trim.text := by
  have hzero : ((Bytes.zero rowSize).splice idOffset (Bytes.ofNat 4 r.id.toNat)
      |>.splice textSizeOffset (Bytes.ofNat 1 r.textSize.toNat)).slice textOffset 255 =
        Bytes.zero 255 := by
    rw [Bytes.slice_splice_disjoint _ _ (Or.inr (by decide)),
      Bytes.slice_splice_disjoint _ _ (Or.inr (by decide)),
      Bytes.slice_zero]
  unfold serialize trim
  rw [← hzero]
  exact Bytes.slice_splice_around _ _ (d := 0) (by decide)

/-- Three fields make up a buffer. -/
theorem buffer_ext {b c : Bytes rowSize} (hid : b.slice idOffset 4 = c.slice idOffset 4)
    (hsize : b.slice textSizeOffset 1 = c.slice textSizeOffset 1)
    (htext : b.slice textOffset 255 = c.slice textOffset 255) : b = c := by
  refine Bytes.ext_bit fun i hi => ?_
  have hbit : ∀ {off m : ℕ}, b.slice off m = c.slice off m → 8 * off ≤ i → i < 8 * off + 8 * m →
      b.bit i = c.bit i := by
    intro off m h h1 h2
    have hb := congrArg (Bytes.bit · (i - 8 * off)) h
    simp only [Bytes.bit_slice, show i - 8 * off < 8 * m by omega, decide_true, Bool.true_and,
      show 8 * off + (i - 8 * off) = i by omega] at hb
    exact hb
  unfold rowSize at hi
  unfold idOffset at hid
  unfold textSizeOffset at hsize
  unfold textOffset at htext
  rcases lt_or_ge i 32 with h1 | h1
  · exact hbit hid (by omega) (by omega)
  · rcases lt_or_ge i 40 with h2 | h2
    · exact hbit hsize (by omega) (by omega)
    · exact hbit htext (by omega) (by omega)

/-- A text that is zero from byte `n` on, from its first `n` bytes. -/
theorem text_of_zero {text : Bytes 255} (hn : n ≤ 255)
    (h : text.slice n (255 - n) = Bytes.zero (255 - n)) :
    (Bytes.zero 255).splice 0 (text.slice 0 n) = text := by
  refine Bytes.ext_bit fun i hi => ?_
  rw [Bytes.bit_splice _ _ _ hi, Bytes.bit_slice]
  by_cases hin : i < 8 * n
  · rw [if_pos (by omega)]
    simp [hin]
  · have hb := congrArg (Bytes.bit · (i - 8 * n)) h
    simp only [Bytes.bit_slice, show i - 8 * n < 8 * (255 - n) by omega, decide_true, Bool.true_and,
      show 8 * n + (i - 8 * n) = i by omega] at hb
    rw [if_neg (by omega), hb]
    simp [Bytes.bit, Bytes.zero]

theorem slice_trim (r : Row) :
    r.trim.text.slice 0 r.textSize.toNat = r.text.slice 0 r.textSize.toNat :=
  Bytes.slice_splice_same _ _ (by have := r.textSize_le; omega)

theorem slice_trim_above (r : Row) :
    r.trim.text.slice r.textSize.toNat (255 - r.textSize.toNat) = Bytes.zero _ := by
  unfold trim
  rw [Bytes.slice_splice_disjoint _ _ (Or.inr (by omega)), Bytes.slice_zero]

/-! ## Decoding -/

theorem ofNat_id (r : Row) : UInt32.ofNat (r.serialize.slice idOffset 4).toNat = r.id := by
  rw [serialize_id, Bytes.toNat_ofNat, Nat.mod_eq_of_lt r.id.toNat_lt]
  exact UInt32.ofNat_toNat

theorem ofNat_textSize (r : Row) :
    UInt8.ofNat (r.serialize.slice textSizeOffset 1).toNat = r.textSize := by
  rw [serialize_textSize, Bytes.toNat_ofNat, Nat.mod_eq_of_lt r.textSize.toNat_lt]
  exact UInt8.ofNat_toNat

/-- **Reading in place** what was encoded. -/
theorem ofMemory_serialize (r : Row) : ofMemory r.serialize = r.trim := by
  unfold ofMemory
  rw [ofNat_id, ofNat_textSize, serialize_text]
  rfl

/-- **Decoding** what was encoded. -/
theorem deserialize_serialize (r : Row) : deserialize r.serialize = r.trim := by
  have htext : r.serialize.slice textOffset r.textSize.toNat = r.text.slice 0 r.textSize.toNat := by
    unfold serialize
    apply Bytes.slice_splice_same
    have := r.textSize_le
    unfold textOffset rowSize
    omega
  -- the length of the text is read from the buffer
  have hread : ∀ textSize, textSize = r.textSize →
      (Bytes.zero 255).splice 0 (r.serialize.slice textOffset textSize.toNat) = r.trim.text := by
    rintro _ rfl
    rw [htext]
    rfl
  unfold deserialize
  simp only
  rw [hread _ (ofNat_textSize r), ofNat_id, ofNat_textSize]
  rfl

/-- **Encoding** what was decoded. -/
theorem serialize_deserialize {b : Bytes rowSize} (hn : (b.slice textSizeOffset 1).toNat = n)
    (hzero : b.slice (textOffset + n) (255 - n) = Bytes.zero (255 - n)) :
    (deserialize b).serialize = b := by
  have hlt : n < 256 := by
    rw [← hn]
    exact (b.slice textSizeOffset 1).toNat_lt
  have hsize : (deserialize b).textSize.toNat = n := by
    show (UInt8.ofNat (b.slice textSizeOffset 1).toNat).toNat = n
    rw [hn]
    exact UInt8.toNat_ofNat_of_lt' hlt
  refine buffer_ext ?_ ?_ ?_
  · have hid : (deserialize b).id.toNat = (b.slice idOffset 4).toNat := by
      exact UInt32.toNat_ofNat_of_lt' (b.slice idOffset 4).toNat_lt
    rw [serialize_id, hid, Bytes.ofNat_toNat]
  · rw [serialize_textSize, hsize, ← hn, Bytes.ofNat_toNat]
  -- the bytes past the size are zero, so the text read back is all of the field
  · have htext : (deserialize b).text = b.slice textOffset 255 := by
      show (Bytes.zero 255).splice 0 (b.slice textOffset (deserialize b).textSize.toNat) = _
      rw [hsize, ← Nat.add_zero textOffset, ← Bytes.slice_slice b (m := 255) (by omega)]
      refine text_of_zero (by omega) ?_
      rw [Bytes.slice_slice _ (by omega)]
      exact hzero
    have htrim : (deserialize b).trim.text = (deserialize b).text := by
      unfold trim
      refine text_of_zero (textSize_le _) ?_
      rw [hsize, htext, Bytes.slice_slice _ (by omega)]
      exact hzero
    rw [serialize_text, htrim, htext]

/-- Only the text below its size is written. -/
theorem serialize_trim (r : Row) : r.trim.serialize = r.serialize := by
  refine buffer_ext ?_ ?_ ?_
  · rw [serialize_id, serialize_id]
    rfl
  · rw [serialize_textSize, serialize_textSize]
    rfl
  · rw [serialize_text, serialize_text]
    exact text_of_zero r.textSize_le r.slice_trim_above

/-- **Equal buffers** are those of rows with the same id and the same text. -/
theorem serialize_inj : r.serialize = r'.serialize ↔
    r.id = r'.id ∧ r.textSize = r'.textSize ∧
    r.text.slice 0 r.textSize.toNat = r'.text.slice 0 r.textSize.toNat := by
  constructor
  · intro h
    have htrim : r.trim = r'.trim := by rw [← deserialize_serialize, h, deserialize_serialize]
    have hid : r.trim.id = r'.trim.id := by rw [htrim]
    have hsize : r.trim.textSize = r'.trim.textSize := by rw [htrim]
    refine ⟨hid, hsize, ?_⟩
    have hsize' : r.textSize = r'.textSize := hsize
    rw [← slice_trim, htrim, hsize', slice_trim]
  · rintro ⟨hid, hsize, htext⟩
    have htrim : r.trim = r'.trim := by
      unfold trim
      rw [← hsize, htext, hid]
    rw [← serialize_trim, htrim, serialize_trim]

end Row

/-! ## Rows in cells -/

open Program Page

namespace Pager

variable {s s' : Pager} {p : ℕ} {a : Addr}

/-- `a` is the entry of page `p`. -/
structure Holds (s : Pager) (p : ℕ) (a : Addr) : Prop where
  wf : s.Wf
  found : s.cache.pageMap.lookup p = some a

theorem Holds.lt (h : Holds s p a) : a < s.heap.length :=
  (h.wf.lt a ((h.wf.lookup p a).1 h.found).1).1

/-- What code does that gets no page. -/
def OnEntries : PagerOp Addr → Prop
  | .getPage _ => False
  | _ => True

/-- Without getting a page, no page leaves the cache. -/
theorem Holds.step (o : PagerOp Addr) (s : Pager) (ho : OnEntries o) (h : Holds s p a) :
    Holds (handler o s).2 p a := by
  have hset : ∀ b data, Holds (s.setData b data) p a := fun b data => ⟨h.wf.setData b data, h.found⟩
  -- no page is got, so the entry stays cached
  cases o with
  | getPage n => exact ho.elim
  | getUnusedPage => exact h
  | load b l =>
    simp only [handler]
    split
    · exact h
    · exact h
  | store b l v =>
    simp only [handler]
    split
    · exact hset b _
    · exact h
  | memcpy dst dl src sl n =>
    simp only [handler]
    split
    · exact hset dst _
    · exact h
  | fill dst dl n buffer =>
    simp only [handler]
    split
    · exact hset dst _
    · exact h

/-- **What is seen through a cursor** are the bytes of its cell. -/
theorem seen_eq {cursor : Cursor} (h : s.Wf) (hp : cursor.pageNum < filePagesNum) :
    s.seen cursor = some (Row.ofMemory ((s.page cursor.pageNum).value cursor.cellNum)) := by
  have hwp : wp handler (cursor.value : Prog Addr (Addr × Loc))
      (fun r s' => s'.rowAt r.1 r.2 = Row.ofMemory ((s.page cursor.pageNum).value cursor.cellNum))
      (fun _ _ => False) s := by
    unfold Cursor.value
    rw [wp_bind]
    refine wp_getPage h hp fun b s' hg => ?_
    show Row.ofMemory ((s'.heap.entry b).data.slice _ rowSize) = _
    rw [hg.data]
    rfl
  obtain ⟨⟨data, l⟩, s', hrun, hrow⟩ := wp_total hwp
  unfold seen
  rw [hrun]
  exact congrArg some hrow

/-- **The row a leaf is given**, seen through the cursor. -/
theorem Holds.seen {cursor : Cursor} {row : Row} (h : Holds s cursor.pageNum a)
    (hvalue : (s.heap.entry a).data.slice (Loc.leafValue cursor.cellNum).offset rowSize =
      row.serialize) :
    s.seen cursor = some (Row.deserialize row.serialize) := by
  have hp : cursor.pageNum < filePagesNum := by
    obtain ⟨hmem, hpage⟩ := (h.wf.lookup _ a).1 h.found
    rw [← hpage]
    exact (h.wf.lt a hmem).2
  rw [seen_eq h.wf hp, page_of_lookup h.found]
  show some (Row.ofMemory ((s.heap.entry a).data.slice _ rowSize)) = _
  rw [hvalue, Row.ofMemory_serialize, Row.deserialize_serialize]

/-- **An insertion into a leaf with room** writes the row to the cell of the cursor. -/
theorem wp_leafNodeInsert_value {fuel key : ℕ} {cursor : Cursor} {row : Row} (h : s.Wf)
    (hroom : (s.page cursor.pageNum).numCells < leafNodeMaxCells) :
    wp handler (leafNodeInsert fuel cursor key row)
      (fun _ s' => ∃ a, Holds s' cursor.pageNum a ∧
        (s'.heap.entry a).data.slice (Loc.leafValue cursor.cellNum).offset rowSize = row.serialize)
      (fun _ _ => True) s := by
  rcases lt_or_ge cursor.pageNum filePagesNum with hp | hp
  · unfold leafNodeInsert
    rw [wp_bind]
    refine wp_getPage h hp fun a s₁ hg => ?_
    have hload : (s₁.heap.entry a).data.load .numCells < leafNodeMaxCells := by
      rw [hg.data]
      exact hroom
    rw [wp_bind, wp_load (by decide), if_neg (not_le.2 hload)]
    -- only the last write is to the value of the cell
    have hlast : ∀ s₂, Holds s₂ cursor.pageNum a →
        wp handler (fill a (.leafValue cursor.cellNum) row.serialize)
        (fun _ s' => ∃ a, Holds s' cursor.pageNum a ∧
          (s'.heap.entry a).data.slice (Loc.leafValue cursor.cellNum).offset rowSize =
            row.serialize)
        (fun _ _ => True) s₂ := by
      intro s₂ h₂
      refine wp_perform.2 ?_
      by_cases hl : (Loc.leafValue cursor.cellNum).offset + rowSize ≤ pageSize
      · rw [show handler (.fill a (.leafValue cursor.cellNum) rowSize row.serialize) s₂ =
          _ from if_pos hl]
        refine ⟨a, ⟨h₂.wf.setData a _, h₂.found⟩, ?_⟩
        show (Heap.entry (s₂.heap.set a _) a).data.slice _ rowSize = _
        rw [Heap.entry_set _ h₂.lt, if_pos rfl]
        exact Bytes.slice_splice_same _ _ hl
      · rw [show handler (.fill a (.leafValue cursor.cellNum) rowSize row.serialize) s₂ =
          _ from if_neg hl]
        trivial
    have hrest : ∀ s₂, Holds s₂ cursor.pageNum a → wp handler (do
          store a .numCells (u32 ((← load a .numCells) + 1))
          store a (.leafKey cursor.cellNum) key
          fill a (.leafValue cursor.cellNum) row.serialize)
        (fun _ s' => ∃ a, Holds s' cursor.pageNum a ∧
          (s'.heap.entry a).data.slice (Loc.leafValue cursor.cellNum).offset rowSize =
            row.serialize)
        (fun _ _ => True) s₂ := by
      intro s₂ h₂
      have hold : ∀ {α : Type} {f : Prog Addr α} {s₂}, Only OnEntries f →
          Holds s₂ cursor.pageNum a →
          wp handler f (fun _ s' => Holds s' cursor.pageNum a) (fun _ _ => True) s₂ :=
        fun hf hs => hf.wp Holds.step (fun _ _ => id) (fun _ _ _ => trivial) hs
      rw [wp_bind]
      refine wp_mono (hold ⟨trivial, fun _ => trivial⟩ h₂) (fun n s₃ h₃ => ?_) fun _ _ => id
      rw [wp_bind]
      refine wp_mono (hold ⟨trivial, fun _ => trivial⟩ h₃) (fun _ s₄ h₄ => ?_) fun _ _ => id
      rw [wp_bind]
      exact wp_mono (hold ⟨trivial, fun _ => trivial⟩ h₄) (fun _ s₅ h₅ => hlast s₅ h₅) fun _ _ => id
    have h₁ : Holds s₁ cursor.pageNum a := ⟨hg.wf, hg.found⟩
    by_cases hc : cursor.cellNum < (s₁.heap.entry a).data.load .numCells
    · rw [if_pos hc, wp_bind]
      exact (only_shiftLeafCells (fun _ _ _ _ _ => trivial) a _ _).wp Holds.step
        (fun _ s₂ h₂ => hrest s₂ h₂) (fun _ _ _ => trivial) h₁
    · rw [if_neg hc]
      exact hrest s₁ h₁
  · unfold leafNodeInsert
    rw [wp_bind]
    exact wp_getPage_of_ge hp trivial

/-- **A split** writes the row to the cell of its half. -/
theorem wp_splitLeafCell_value {old new : Addr} {c key : ℕ} {row : Row}
    (hlt : (if c ≥ leafNodeLeftSplitCount then new else old) < s.heap.length) :
    wp handler (splitLeafCell old new c key row c)
      (fun _ s' => s'.rowAt (if c ≥ leafNodeLeftSplitCount then new else old)
        (.leafValue (c % leafNodeLeftSplitCount)) = Row.deserialize row.serialize)
      (fun _ _ => True) s := by
  unfold splitLeafCell
  simp only [if_true]
  generalize (if c ≥ leafNodeLeftSplitCount then new else old) = b at hlt ⊢
  rw [wp_bind]
  refine wp_perform.2 ?_
  by_cases hl : (Loc.leafValue (c % leafNodeLeftSplitCount)).offset + rowSize ≤ pageSize
  · rw [show handler (.fill b _ rowSize row.serialize) s = _ from if_pos hl]
    refine wp_perform.2 ?_
    have hcell :
        (Loc.leafCell (c % leafNodeLeftSplitCount)).offset +
        (Loc.leafCell (c % leafNodeLeftSplitCount)).width ≤
        (Loc.leafValue (c % leafNodeLeftSplitCount)).offset := le_rfl
    rw [show handler (.store b (.leafCell _) key) (s.setData b _) = _ from
      if_pos (hcell.trans ((Nat.le_add_right _ _).trans hl))]
    have hlt' :
        b < (s.setData b
          ((s.heap.entry b).data.splice (Loc.leafValue (c % leafNodeLeftSplitCount)).offset
        row.serialize)).heap.length := hlt.trans_eq List.length_set.symm
    show Row.ofMemory ((Heap.entry (List.set _ b _) b).data.slice _ rowSize) = _
    rw [Heap.entry_set _ hlt', if_pos rfl]
    -- the key is written in front of the value
    show Row.ofMemory (Bytes.slice (Bytes.splice _ _ _) _ rowSize) = _
    rw [Bytes.slice_splice_disjoint _ _ (Or.inr hcell)]
    show Row.ofMemory ((Heap.entry (s.heap.set b _) b).data.slice _ rowSize) = _
    rw [Heap.entry_set _ hlt, if_pos rfl]
    show Row.ofMemory (Bytes.slice (Bytes.splice _ _ _) _ rowSize) = _
    rw [Bytes.slice_splice_same _ _ hl, Row.ofMemory_serialize, Row.deserialize_serialize]
  · rw [show handler (.fill b _ rowSize row.serialize) s = _ from if_neg hl]
    trivial

end Pager

/-! ## Tables -/

/-- The row format of the table. -/
structure RowFormat : Prop where
  /-- Decoding what was encoded gives the row, with zeros after its text. -/
  decoded : ∀ r : Row,
    (Row.deserialize r.serialize).id = r.id ∧ (Row.deserialize r.serialize).textSize = r.textSize ∧
      (Row.deserialize r.serialize).text.slice 0 r.textSize.toNat =
        r.text.slice 0 r.textSize.toNat ∧
        (Row.deserialize r.serialize).text.slice r.textSize.toNat (255 - r.textSize.toNat) =
          Bytes.zero _
  /-- Encoding what was decoded gives the buffer, if it is zero after the text. -/
  encoded : ∀ (b : Bytes rowSize) (n : ℕ), (b.slice textSizeOffset 1).toNat = n →
    b.slice (textOffset + n) (255 - n) = Bytes.zero (255 - n) → (Row.deserialize b).serialize = b
  again : ∀ r : Row, (Row.deserialize r.serialize).serialize = r.serialize
  /-- Rows are encoded alike if they have the same id and the same text. -/
  alike : ∀ r r' : Row, r.serialize = r'.serialize ↔
    r.id = r'.id ∧ r.textSize = r'.textSize ∧
    r.text.slice 0 r.textSize.toNat = r'.text.slice 0 r.textSize.toNat
  /-- The row `leaf_node_insert` wrote to a leaf with room, of any pager, seen through the cursor.
  -/
  inserted : ∀ (s s' : Pager) (fuel key : ℕ) (cursor : Cursor) (row : Row), s.Wf →
    (s.page cursor.pageNum).numCells < leafNodeMaxCells →
      (leafNodeInsert fuel cursor key row).run Pager.handler s = (.ok (), s') →
        s'.seen cursor = some (Row.deserialize row.serialize)
  /-- The row a split wrote to a cell, when it has been written. -/
  split : ∀ (s s' : Pager) (old new : Addr) (cellNum key : ℕ) (row : Row),
    (if cellNum ≥ leafNodeLeftSplitCount then new else old) < s.heap.length →
      (splitLeafCell old new cellNum key row cellNum).run Pager.handler s = (.ok (), s') →
        s'.rowAt (if cellNum ≥ leafNodeLeftSplitCount then new else old)
          (.leafValue (cellNum % leafNodeLeftSplitCount)) = Row.deserialize row.serialize

/-- Rows are written and read back through the cells of cached leaves. -/
theorem RowFormat.holds : RowFormat where
  decoded r := by
    rw [Row.deserialize_serialize]
    exact ⟨rfl, rfl, r.slice_trim, r.slice_trim_above⟩
  encoded b n hn hzero := Row.serialize_deserialize hn hzero
  again r := by rw [Row.deserialize_serialize, Row.serialize_trim]
  alike _ _ := Row.serialize_inj
  inserted s s' fuel key cursor row h hroom hrun := by
    obtain ⟨a, hs', hvalue⟩ := wp_ok (Pager.wp_leafNodeInsert_value h hroom) hrun
    exact hs'.seen hvalue
  split s s' old new cellNum key row hlt hrun := by
    have hsplit := wp_ok (Pager.wp_splitLeafCell_value hlt) hrun
    exact hsplit

/-- A key with a text of 255 letters A. -/
def letters (key : UInt32) : Insertion :=
  ⟨key, ⟨key, 255, Bytes.ofNat 255 (0x41 * ((256 ^ 255 - 1) / 255))⟩⟩

end ToySQL
