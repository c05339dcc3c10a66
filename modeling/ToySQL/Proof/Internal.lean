import ToySQL.Proof.Leaf

/-!
# Insertion into an internal node with room

`Mem.wp_internalNodeInsertStep_room`: a node with fewer than `INTERNAL_NODE_MAX_CELLS` keys takes
one more child, in one of three ways (`AddChild`). A node without a right child makes it
the right child. A child whose keys are above those of the right child becomes the right
child, and the old one gets a cell. Any other child gets the cell of its place, and the
cells from there on move right. The slot that is overwritten must not hold
`INVALID_PAGE_NUM`, whatever it was last used for.
-/

namespace ToySQL

open Program

namespace Page

/-- The cell `i` of an internal node. -/
def slot (pg : Page) (i : ℕ) : ℕ × ℕ := (pg.child i, pg.sep i)

variable {pg a : Page} {i j k v : ℕ} {l : Loc}

theorem child_lt (pg : Page) (i : ℕ) : pg.child i < 2 ^ 32 := load_lt pg (l := .internalCell i)

theorem sep_lt (pg : Page) (i : ℕ) : pg.sep i < 2 ^ 32 := load_lt pg (l := .internalKey i)

theorem rightChild_lt (pg : Page) : pg.rightChild < 2 ^ 32 := load_lt pg (l := .rightChild)

theorem key_lt (pg : Page) (i : ℕ) : pg.key i < 2 ^ 32 := load_lt pg (l := .leafKey i)

theorem maxKey_lt (pg : Page) : pg.maxKey < 2 ^ 32 := by
  unfold maxKey
  split
  · split
    · decide
    · exact key_lt pg _
  · exact sep_lt pg _

/-- A write to the header changes no cell. -/
theorem slot_store_header (hl : l.Header) (i : ℕ) : (pg.store l v).slot i = pg.slot i := by
  unfold slot child sep
  rw [load_body_store_header _ hl (.internalCell i), load_body_store_header _ hl (.internalKey i)]

theorem slot_store_cell (hi : i < 500) (hj : j < 500) (hv : v < 2 ^ 32) :
    (a.store (.internalCell i) v).slot j = if j = i then (v, a.sep j) else a.slot j := by
  unfold slot child sep
  rw [load_internalCell_store _ hi hj, load_internalKey_store_internalCell _ (by omega) (by omega),
    Nat.mod_eq_of_lt hv]
  by_cases h : j = i
  · rw [if_pos h.symm, if_pos h]
  · rw [if_neg (Ne.symm h), if_neg h]

theorem slot_store_key (hi : i < 500) (hj : j < 500) (hv : v < 2 ^ 32) :
    (pg.store (.internalKey i) v).slot j = if j = i then (pg.child j, v) else pg.slot j := by
  unfold slot child sep
  rw [load_internalKey_store _ hi hj, load_internalCell_store_internalKey _ (by omega),
    Nat.mod_eq_of_lt hv]
  by_cases h : j = i
  · rw [if_pos h.symm, if_pos h]
  · rw [if_neg (Ne.symm h), if_neg h]

/-- A cell copied within an internal node. -/
def copySlot (pg : Page) (i j : ℕ) : Page :=
  pg.splice (Loc.internalCell i).offset (pg.slice (Loc.internalCell j).offset internalNodeCellSize)

/-- A copied cell has child and separator of its source. -/
theorem slot_copySlot (hi : i < 500) (hj : j < 500) (hk : k < 500) :
    (pg.copySlot i j).slot k = if k = i then pg.slot j else pg.slot k := by
  have h1 := Loc.offset_internalCell (i := i) (by omega)
  have h2 := Loc.offset_internalCell (i := k) (by omega)
  have h3 := Loc.offset_internalCell (i := j) (by omega)
  have h4 := Loc.offset_internalKey (i := k) (by omega)
  have h5 := Loc.offset_internalKey (i := j) (by omega)
  unfold slot child sep load copySlot
  split
  · rename_i h; subst h
    rw [Bytes.slice_splice_inside _ _ le_rfl (by rw [h1]; show _ + 4 ≤ _ + 8; omega)
        (by rw [h1]; show _ + 4 ≤ 4096; omega),
      Bytes.slice_splice_inside _ _ (by rw [h1, h4]; omega)
        (by rw [h1, h4]; show _ + 4 ≤ _ + 8; omega)
        (by rw [h4]; show _ + 4 ≤ 4096; omega),
      Nat.sub_self, Bytes.slice_slice _ (by show 0 + 4 ≤ 8; omega), h1, h3, h4, h5,
      show 18 + 8 * k - (14 + 8 * k) = 4 by omega, Bytes.slice_slice _ (by show 4 + 4 ≤ 8; omega),
      show 14 + 8 * j + 4 = 18 + 8 * j by omega]
    rfl
  · rw [Bytes.slice_splice_disjoint _ _ (by rw [h1, h2]; show _ + 4 ≤ _ ∨ _ + 8 ≤ _; omega),
      Bytes.slice_splice_disjoint _ _ (by rw [h1, h4]; show _ + 4 ≤ _ ∨ _ + 8 ≤ _; omega)]

/-- Copying a cell changes nothing in the header. -/
theorem SameHeader.copySlot (pg : Page) (i j : ℕ) : (pg.copySlot i j).SameHeader pg [] := by
  intro l hl _
  unfold load Page.copySlot
  rw [Bytes.slice_splice_disjoint]
  exact Or.inl (le_trans hl.end_le (Loc.Body.le_offset (.internalCell i)))

/-- A write to the header changes the field at its offset. -/
theorem SameHeader.store_header (hl : l.Header) (v : ℕ) :
    (pg.store l v).SameHeader pg [l.offset] := by
  intro l' hl' hn
  rw [load_store_header _ hl hl', if_neg fun h => hn (by simp [h])]

/-- A write to a cell changes nothing in the header. -/
theorem SameHeader.store_body (hl : l.Body) (v : ℕ) : (pg.store l v).SameHeader pg [] :=
  fun _ hl' _ => load_header_store_body _ hl hl'

theorem SameHeader.rightChild {b : Page} {except : List ℕ} (h : a.SameHeader b except)
    (hn : 10 ∉ except) : a.rightChild = b.rightChild := h .rightChild .rightChild hn

theorem SameHeader.numKeys {b : Page} {except : List ℕ} (h : a.SameHeader b except)
    (hn : 6 ∉ except) : a.numKeys = b.numKeys := h .numKeys .numKeys hn

/-- The right child that has been written. -/
theorem rightChild_store (hv : v < 2 ^ 32) : (pg.store .rightChild v).rightChild = v := by
  unfold rightChild
  rw [load_store_header _ .rightChild .rightChild, if_pos rfl]
  exact Nat.mod_eq_of_lt hv

/-- The number of keys that has been written. -/
theorem numKeys_store (hv : v < 2 ^ 32) : (pg.store .numKeys v).numKeys = v := by
  unfold numKeys
  rw [load_store_header _ .numKeys .numKeys, if_pos rfl]
  exact Nat.mod_eq_of_lt hv

theorem parent_store_parent (hv : v < 2 ^ 32) : (pg.store .parent v).parent = v := by
  unfold parent
  rw [load_store_header _ .parent .parent, if_pos rfl]
  exact Nat.mod_eq_of_lt hv

/-- The last key of a page does not depend on its parent field. -/
theorem maxKey_store_parent (pg : Page) (v : ℕ) : (pg.store .parent v).maxKey = pg.maxKey := by
  have h : (pg.store .parent v).SameHeader pg [2] := SameHeader.store_header .parent v
  have hk : ∀ i, (pg.store .parent v).key i = pg.key i :=
    fun i => load_body_store_header _ .parent (.leafKey i)
  have hs : ∀ i, (pg.store .parent v).sep i = pg.sep i :=
    fun i => load_body_store_header _ .parent (.internalKey i)
  unfold maxKey
  rw [h.isLeaf (by simp), h.numCells (by simp), h.numKeys (by simp), hk, hs]

theorem maxKey_of_erase (h : pg.erase = a.erase) : pg.maxKey = a.maxKey := by
  rw [← maxKey_store_parent pg 0, ← maxKey_store_parent a 0]
  exact congrArg maxKey h

/-- A node `a` that took the child `c`, whose last key is `cmax`, where the last key of
the right child is `rmax`: the node after it. -/
inductive AddChild (a : Page) (c cmax rmax : ℕ) : Page → Prop where
  | first : a.rightChild = invalidPageNum → AddChild a c cmax rmax (a.store .rightChild c)
  | append (a' : Page) : a.rightChild ≠ invalidPageNum → rmax < cmax →
      a'.SameHeader a [6, 10] → a'.numKeys = a.numKeys + 1 → a'.rightChild = c →
      (∀ j < 3, a'.slot j = if j = a.numKeys then (a.rightChild, rmax) else a.slot j) →
      AddChild a c cmax rmax a'
  | place (a' : Page) : a.rightChild ≠ invalidPageNum → cmax ≤ rmax →
      a'.SameHeader a [6] → a'.numKeys = a.numKeys + 1 →
      (∀ j < 3, a'.slot j =
        if j ≤ a.numKeys then insertAt a.slot (a.findChild cmax) (c, cmax) j else a.slot j) →
      AddChild a c cmax rmax a'

/-- A node without a right child takes the child as that. -/
theorem AddChild.eq_first {a' : Page} {c cmax rmax : ℕ} (h : AddChild a c cmax rmax a')
    (hr : a.rightChild = invalidPageNum) : a' = a.store .rightChild c := by
  cases h with
  | first _ => rfl
  | append _ hne => exact absurd hr hne
  | place _ hne => exact absurd hr hne

theorem AddChild.numKeys {a' : Page} {c cmax rmax : ℕ} (h : AddChild a c cmax rmax a')
    (hr : a.rightChild ≠ invalidPageNum) : a'.numKeys = a.numKeys + 1 := by
  cases h with
  | first he => exact absurd he hr
  | append _ _ _ _ hk => exact hk
  | place _ _ _ _ hk => exact hk

end Page

namespace Mem

open Page

variable {K T : ℕ → Prop} [DecidablePred K] [DecidablePred T] {m : Mem} {p c : ℕ}
  {F : Fault → Mem → Prop} {Q : Unit → Mem → Prop}

omit [DecidablePred K] in
theorem MaxOk.store_parent {pg : Page} (h : MaxOk K pg) (v : ℕ) : MaxOk K (pg.store .parent v) := by
  have hh : (pg.store .parent v).SameHeader pg [2] := SameHeader.store_header .parent v
  constructor
  · rw [hh.isLeaf (by simp), hh.numCells (by simp)]; exact h.leaf
  · rw [hh.isLeaf (by simp), hh.numKeys (by simp)]; exact h.internal

theorem wp_copySlot {i j : ℕ} (hi : i < 500) (hj : j < 500) :
    wp (handler K T) (memcpy p (.internalCell i) p (.internalCell j) internalNodeCellSize) Q F m ↔
      Q () (m.set p ((m.page p).copySlot i j)) := by
  refine wp_memcpy ⟨?_, ?_⟩
  · rw [Loc.offset_internalCell (by omega)]; show _ + 8 ≤ 4096; omega
  · rw [Loc.offset_internalCell (by omega)]; show _ + 8 ≤ 4096; omega

/-- The loop that moves the cells from `index` on one place to the right. -/
theorem wp_shiftInternalCells {index : ℕ} : ∀ n (m : Mem), n < 3 →
    (∀ a : Page, a.SameHeader (m.page p) [] →
      (∀ j < 3, a.slot j =
        if index < j ∧ j ≤ n then (m.page p).slot (j - 1) else (m.page p).slot j) →
      Q () (m.set p a)) →
    wp (handler K T) (shiftInternalCells p index n) Q F m := by
  intro n
  -- the loop runs downwards: `n` is the cell written next
  induction n with
  | zero =>
    intro m _ h
    have := h (m.page p) (.refl _ _) fun j _ => by rw [if_neg (by omega)]
    rwa [set_page_self] at this
  | succ n ih =>
    intro m hn h
    unfold shiftInternalCells
    by_cases hc : n + 1 > index
    · rw [if_pos hc, wp_bind, wp_copySlot (by omega) (by omega)]
      refine ih _ (by omega) fun a ha hslot => ?_
      rw [set_set]
      rw [page_set_self] at ha hslot
      refine h a (ha.trans (.copySlot _ _ _)) fun j hj => ?_
      rw [hslot j hj]
      by_cases h1 : index < j ∧ j ≤ n
      · rw [if_pos h1, if_pos ⟨h1.1, by omega⟩, slot_copySlot (by omega) (by omega) (by omega),
          if_neg (by omega)]
      · rw [if_neg h1, slot_copySlot (by omega) (by omega) (by omega)]
        by_cases h2 : j = n + 1
        · rw [if_pos h2, if_pos ⟨by omega, by omega⟩, h2]; rfl
        · rw [if_neg h2, if_neg (by omega)]
    · rw [if_neg hc]
      have := h (m.page p) (.refl _ _) fun j _ => by rw [if_neg (by omega)]
      rwa [set_page_self] at this

/-- The slot that is overwritten is checked first. -/
theorem wp_internalNodeChild_slot {Q : Loc → Mem → Prop} {i : ℕ} (hi : i < (m.page p).numKeys)
    (h : i < 500)
    (hv : (m.page p).child i = invalidPageNum → ∀ e m', F (.exit e) m')
    (hQ : (m.page p).child i ≠ invalidPageNum → Q (.internalCell i) m) :
    wp (handler K T) (internalNodeChild p i) Q F m := by
  by_cases hc : (m.page p).child i = invalidPageNum
  · rw [wp_internalNodeChild_invalid hi h hc]; exact hv hc _ _
  · rw [wp_internalNodeChild_cell hi h hc]; exact hQ hc

/-- The branch of `internal_node_insert` for a child above the right child. -/
theorem wp_appendChild {n r rmax cmax fuel : ℕ} (hn : (m.page p).numKeys = n) (hn3 : n < 3)
    (hr : (m.page p).rightChild = r) (hr' : r ≠ invalidPageNum)
    (hmax : ∀ b {R : ℕ → Mem → Prop}, R rmax (m.set p b) →
      wp (handler K T) (getNodeMaxKey fuel r) R F (m.set p b))
    (hrmax : rmax < 2 ^ 32) (hlt : rmax < cmax) (hc : c < 2 ^ 32) (hK : K n)
    (hslot : (m.page p).child n = invalidPageNum → ∀ e m', F (.exit e) m')
    (h : (m.page p).child n ≠ invalidPageNum → ∀ a', AddChild (m.page p) c cmax rmax a' →
      Q () (m.set p a')) :
    wp (handler K T) (do
      store p (← internalNodeChild p n) r
      store p (.internalKey n) (← getNodeMaxKey fuel r)
      store p .rightChild c) Q F (m.set p ((m.page p).store .numKeys (n + 1))) := by
  have hr32 : r < 2 ^ 32 := by rw [← hr]; exact rightChild_lt _
  have hcells : ((m.page p).store .numKeys (n + 1)).numKeys = n + 1 := by
    unfold numKeys; rw [load_store_header _ .numKeys .numKeys, if_pos rfl]
    exact Nat.mod_eq_of_lt (show n + 1 < 2 ^ 32 by omega)
  have hchild : ((m.page p).store .numKeys (n + 1)).child n = (m.page p).child n :=
    congrArg Prod.fst (slot_store_header .numKeys n)
  rw [wp_bind]
  refine wp_internalNodeChild_slot (by rw [page_set_self, hcells]; omega) (by omega)
    (by rw [page_set_self, hchild]; exact hslot) fun hfree => ?_
  rw [page_set_self, hchild] at hfree
  rw [wp_bind, wp_store (access_internalCell (by omega)), page_set_self, wp_bind, set_set]
  -- the largest key of the old right child does not depend on this node
  refine hmax _ ?_
  rw [wp_bind, wp_store (access_internalKey (by omega) hK), page_set_self, set_set,
    wp_store (access_header .rightChild), page_set_self, set_set]
  refine h hfree _ (.append _ (by rw [hr]; exact hr') hlt ?_ ?_ ?_ ?_)
  · refine ((SameHeader.store_header .rightChild c).mono (by simp)).trans ?_
    refine ((SameHeader.store_body (.internalKey n) rmax).mono (by simp)).trans ?_
    refine ((SameHeader.store_body (.internalCell n) r).mono (by simp)).trans ?_
    exact (SameHeader.store_header .numKeys (n + 1)).mono (by simp)
  · rw [(SameHeader.store_header .rightChild c).numKeys (by simp),
      (SameHeader.store_body (.internalKey n) rmax).numKeys (by simp),
      (SameHeader.store_body (.internalCell n) r).numKeys (by simp), hcells, hn]
  · unfold rightChild
    rw [load_store_header _ .rightChild .rightChild, if_pos rfl]
    exact Nat.mod_eq_of_lt hc
  · intro j hj
    rw [slot_store_header .rightChild, slot_store_key (by omega) (by omega) hrmax, hn, hr]
    by_cases hjn : j = n
    · rw [if_pos hjn, if_pos hjn]
      have := slot_store_cell (a := (m.page p).store .numKeys (n + 1)) (i := n) (j := j)
        (by omega) (by omega) hr32
      rw [if_pos hjn] at this
      have hfst := congrArg Prod.fst this
      exact Prod.ext hfst rfl
    · rw [if_neg hjn, if_neg hjn, slot_store_cell (by omega) (by omega) hr32, if_neg hjn,
        slot_store_header .numKeys]

/-- The branch of `internal_node_insert` for a child not above the right child. -/
theorem wp_placeChild {n rmax cmax : ℕ} (hn : (m.page p).numKeys = n) (hn3 : n < 3)
    (hr : (m.page p).rightChild ≠ invalidPageNum) (hle : cmax ≤ rmax) (hcmax : cmax < 2 ^ 32)
    (hc : c < 2 ^ 32) (hK : ∀ i < 3, K i)
    (hslot : (m.page p).child ((m.page p).findChild cmax) = invalidPageNum →
      ∀ e m', F (.exit e) m')
    (h : (m.page p).child ((m.page p).findChild cmax) ≠ invalidPageNum →
      ∀ a', AddChild (m.page p) c cmax rmax a' → Q () (m.set p a')) :
    wp (handler K T) (do
      shiftInternalCells p ((m.page p).findChild cmax) n
      store p (← internalNodeChild p ((m.page p).findChild cmax)) c
      store p (.internalKey ((m.page p).findChild cmax)) cmax) Q F
        (m.set p ((m.page p).store .numKeys (n + 1))) := by
  have hcells : ((m.page p).store .numKeys (n + 1)).numKeys = n + 1 := by
    unfold numKeys; rw [load_store_header _ .numKeys .numKeys, if_pos rfl]
    exact Nat.mod_eq_of_lt (show n + 1 < 2 ^ 32 by omega)
  have hle' := findChild_le (m.page p) cmax
  revert hslot hle' h
  generalize hidx : (m.page p).findChild cmax = index
  intro hslot h hle'
  rw [wp_bind]
  refine wp_shiftInternalCells _ _ hn3 fun a ha hs => ?_
  rw [page_set_self] at ha hs
  simp only [slot_store_header .numKeys] at hs
  rw [set_set, wp_bind]
  -- the cell at the index has not moved, so its child is still the one checked
  have hai : a.slot index = (m.page p).slot index := by
    rw [hs index (by omega), if_neg (by omega)]
  refine wp_internalNodeChild_slot (by rw [page_set_self, ha.numKeys (by simp), hcells]; omega)
    (by omega)
    (by rw [page_set_self, show a.child index = _ from congrArg Prod.fst hai]; exact hslot)
    fun hfree => ?_
  rw [page_set_self, show a.child index = _ from congrArg Prod.fst hai] at hfree
  rw [wp_bind, wp_store (access_internalCell (by omega)), page_set_self, set_set,
    wp_store (access_internalKey (by omega) (hK _ (by omega))), page_set_self, set_set]
  refine h hfree _ (.place _ hr hle ?_ ?_ ?_)
  · refine ((SameHeader.store_body (.internalKey index) cmax).mono (by simp)).trans ?_
    refine ((SameHeader.store_body (.internalCell index) c).mono (by simp)).trans ?_
    exact (ha.mono (by simp)).trans (SameHeader.store_header .numKeys (n + 1))
  · rw [(SameHeader.store_body (.internalKey index) cmax).numKeys (by simp),
      (SameHeader.store_body (.internalCell index) c).numKeys (by simp),
      ha.numKeys (by simp), hcells,
      hn]
  · intro j hj
    rw [hidx, slot_store_key (by omega) (by omega) hcmax, hn]
    have hcell := slot_store_cell (a := a) (i := index) (j := j) (by omega) (by omega) hc
    -- the cell at the index, those above and those below it
    by_cases hj1 : j = index
    · rw [if_pos hj1] at hcell ⊢
      rw [if_pos (by omega), insertAt, if_neg (by omega), if_pos hj1]
      have hfst := congrArg Prod.fst hcell
      exact Prod.ext hfst rfl
    · rw [if_neg hj1] at hcell ⊢
      rw [hcell, hs j hj, insertAt]
      by_cases h1 : index < j ∧ j ≤ n
      · rw [if_pos h1, if_pos h1.2, if_neg (by omega), if_neg hj1]
      · rw [if_neg h1]
        by_cases h2 : j ≤ n
        · rw [if_pos h2, if_pos (by omega)]
        · rw [if_neg h2]

/-- **Insertion into a node with room**, where the last keys of the child and of the right
child are known. -/
theorem wp_internalNodeInsertStep_max {fuel cmax rmax : ℕ} {split : ℕ → ℕ → Prog ℕ Unit}
    (hn : (m.page p).numKeys < 3)
    (hTp : T p) (hTc : T c) (hTr : (m.page p).rightChild ≠ invalidPageNum → T (m.page p).rightChild)
    (hp : m.cached p = true) (hc : m.cached c = true)
    (hr : (m.page p).rightChild ≠ invalidPageNum → m.cached (m.page p).rightChild = true)
    (hmaxc : ∀ {R : ℕ → Mem → Prop}, R cmax m → wp (handler K T) (getNodeMaxKey fuel c) R F m)
    (hmaxr : (m.page p).rightChild ≠ invalidPageNum → ∀ b {R : ℕ → Mem → Prop}, R rmax (m.set p b) →
      wp (handler K T) (getNodeMaxKey fuel (m.page p).rightChild) R F (m.set p b))
    (hcmax : cmax < 2 ^ 32) (hrmax : rmax < 2 ^ 32) (hc32 : c < 2 ^ 32) (hK : ∀ i < 3, K i)
    (hslot : (m.page p).rightChild ≠ invalidPageNum →
      (rmax < cmax ∨ (m.page p).findChild cmax = (m.page p).numKeys) →
      (m.page p).child (m.page p).numKeys = invalidPageNum → ∀ e m', F (.exit e) m')
    (hchild : ∀ i < (m.page p).numKeys, (m.page p).child i ≠ invalidPageNum)
    (h : ∀ a', AddChild (m.page p) c cmax rmax a' →
      ((m.page p).rightChild ≠ invalidPageNum →
        (rmax < cmax ∨ (m.page p).findChild cmax = (m.page p).numKeys) →
        (m.page p).child (m.page p).numKeys ≠ invalidPageNum) →
      Q () (m.set p a')) :
    wp (handler K T) (internalNodeInsertStep split fuel p c) Q F m := by
  have hlt : ¬ (m.page p).load .numKeys ≥ internalNodeMaxCells := not_le.2 hn
  have hu : u32 ((m.page p).numKeys + 1) = (m.page p).numKeys + 1 := by unfold u32; omega
  unfold internalNodeInsertStep
  simp only [wp_bind, wp_getPage hTp, wp_getPage hTc, touch_of_cached hp, touch_of_cached hc]
  refine hmaxc ?_
  rw [wp_internalNodeFindChild (by omega) fun i hi => access_internalKey (by omega)
    (hK i (by omega))]
  simp only [wp_bind, wp_load (access_header .numKeys), if_neg hlt,
    wp_load (access_header .rightChild)]
  -- no right child yet: the child becomes it
  by_cases hinv : (m.page p).load .rightChild = invalidPageNum
  · rw [if_pos hinv, wp_store (access_header .rightChild)]
    exact h _ (.first hinv) fun hne => absurd hinv hne
  · rw [if_neg hinv]
    simp only [load_numKeys, load_rightChild, wp_bind, wp_getPage (hTr hinv),
      touch_of_cached (hr hinv),
      wp_store (access_header .numKeys), hu]
    refine hmaxr hinv _ ?_
    -- a larger key goes to the end, any other to its place
    by_cases hgt : cmax > rmax
    · rw [if_pos hgt]
      exact wp_appendChild rfl hn rfl hinv (hmaxr hinv) hrmax hgt hc32 (hK _ hn)
        (hslot hinv (Or.inl hgt)) fun hfree a' ha => h a' ha fun _ _ => hfree
    · rw [if_neg hgt]
      refine wp_placeChild rfl hn hinv (not_lt.1 hgt) hcmax hc32 hK (fun hv => ?_)
        fun hfree a' ha => h a' ha fun _ hwhere => ?_
      · rcases (findChild_le (m.page p) cmax).lt_or_eq with hlt' | heq
        · exact absurd hv (hchild _ hlt')
        · rw [heq] at hv
          exact hslot hinv (Or.inr heq) hv
      · rcases hwhere with hlt' | heq
        · exact absurd hlt' hgt
        · rwa [heq] at hfree

/-- **Insertion into a node with room**, above leaves or nodes with keys. -/
theorem wp_internalNodeInsertStep_room {fuel : ℕ} {split : ℕ → ℕ → Prog ℕ Unit}
    (hn : (m.page p).numKeys < 3) (hrp : (m.page p).rightChild ≠ p)
    (hTp : T p) (hTc : T c) (hTr : (m.page p).rightChild ≠ invalidPageNum → T (m.page p).rightChild)
    (hp : m.cached p = true) (hc : m.cached c = true)
    (hr : (m.page p).rightChild ≠ invalidPageNum → m.cached (m.page p).rightChild = true)
    (hmaxc : MaxOk K (m.page c))
    (hmaxr : (m.page p).rightChild ≠ invalidPageNum → MaxOk K (m.page (m.page p).rightChild))
    (hc32 : c < 2 ^ 32) (hK : ∀ i < 3, K i)
    (hslot : (m.page p).rightChild ≠ invalidPageNum →
      ((m.page (m.page p).rightChild).maxKey < (m.page c).maxKey ∨
        (m.page p).findChild (m.page c).maxKey = (m.page p).numKeys) →
      (m.page p).child (m.page p).numKeys = invalidPageNum → ∀ e m', F (.exit e) m')
    (hchild : ∀ i < (m.page p).numKeys, (m.page p).child i ≠ invalidPageNum)
    (h : ∀ a', AddChild (m.page p) c (m.page c).maxKey (m.page (m.page p).rightChild).maxKey a' →
      ((m.page p).rightChild ≠ invalidPageNum →
        ((m.page (m.page p).rightChild).maxKey < (m.page c).maxKey ∨
          (m.page p).findChild (m.page c).maxKey = (m.page p).numKeys) →
        (m.page p).child (m.page p).numKeys ≠ invalidPageNum) →
      Q () (m.set p a')) :
    wp (handler K T) (internalNodeInsertStep split fuel p c) Q F m := by
  refine wp_internalNodeInsertStep_max hn hTp hTc hTr hp hc hr
    (fun hR => (wp_getNodeMaxKey fuel hmaxc).2 hR)
    (fun hinv b R hR => ?_) (maxKey_lt _) (maxKey_lt _) hc32 hK hslot hchild h
  have hpage : (m.set p b).page (m.page p).rightChild = m.page (m.page p).rightChild :=
    page_set_ne _ _ hrp
  rw [wp_getNodeMaxKey fuel (by rw [hpage]; exact hmaxr hinv), hpage]
  exact hR

/-- A node with room takes a child whatever the recursion does. -/
theorem internalNodeInsert_eq (fuel : ℕ) : ∃ split k,
    internalNodeInsert (P := ℕ) fuel = internalNodeInsertStep split k := by
  cases fuel with
  | zero => exact ⟨_, _, rfl⟩
  | succ fuel => exact ⟨_, _, rfl⟩

end Mem

end ToySQL
