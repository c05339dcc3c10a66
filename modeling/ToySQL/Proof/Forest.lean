import ToySQL.Lib.Levels
import ToySQL.Proof.Internal

/-!
# The shape of the tree, in flat memory

`Forest` is the invariant of the pages in use: a level for each page, leaves at level 0,
the children of an internal node one level below it, every page but page 0 a child
exactly once. Insertion breaks and repairs it, so it has three kinds of exceptions:
`pending` pages that are nobody's child yet, `stale` ones whose parent field is not set
yet, and `empty` internal nodes without children.

A parent field leads to a page one level up, but not always to the page's own parent:
the code does not keep more than that.

* `Forest.set`, `Forest.push`: one page replaced, one page added.
* `Forest.addChild`: a pending page is hung below a node with room.
-/

namespace ToySQL

open Program

namespace Page

/-- The children of an internal node, without `INVALID_PAGE_NUM`. -/
def kids (pg : Page) : Multiset ℕ :=
  if pg.isLeaf then 0 else (pg.children : Multiset ℕ).filter (· ≠ invalidPageNum)

/-- An internal node with all its parts. -/
structure Node (pg : Page) : Prop where
  internal : pg.isInternal = true
  pos : 1 ≤ pg.numKeys
  le : pg.numKeys ≤ 3
  right : pg.rightChild ≠ invalidPageNum
  cell : ∀ i < pg.numKeys, pg.child i ≠ invalidPageNum

variable {pg a a' : Page}

theorem not_isLeaf_of_isInternal (h : pg.isInternal = true) : pg.isLeaf = false := by
  unfold isInternal at h
  unfold isLeaf
  rw [of_decide_eq_true h]
  decide

theorem Node.not_isLeaf (h : pg.Node) : pg.isLeaf = false := not_isLeaf_of_isInternal h.internal

/-- A leaf has no children. -/
theorem kids_of_isLeaf (h : pg.isLeaf = true) : pg.kids = 0 := if_pos h

/-- The children of a node, without the slots that are free. -/
theorem kids_of_not_isLeaf (h : pg.isLeaf = false) :
    pg.kids = (pg.children : Multiset ℕ).filter (· ≠ invalidPageNum) := by
  unfold kids; rw [h]; rfl

/-- The child slots of a page: the cells, and the right child. -/
theorem mem_children {c : ℕ} :
    c ∈ pg.children ↔ (∃ i < pg.numKeys, pg.child i = c) ∨ pg.rightChild = c := by
  unfold children
  simp [eq_comm]

/-- A child is in one of the slots and valid. -/
theorem mem_kids (h : pg.isLeaf = false) {c : ℕ} :
    c ∈ pg.kids ↔ ((∃ i < pg.numKeys, pg.child i = c) ∨ pg.rightChild = c) ∧
      c ≠ invalidPageNum := by
  rw [kids_of_not_isLeaf h, Multiset.mem_filter, Multiset.mem_coe, mem_children]

/-- In a node with all its parts every slot is a child. -/
theorem Node.kids (h : pg.Node) : pg.kids = (pg.children : Multiset ℕ) := by
  rw [kids_of_not_isLeaf h.not_isLeaf, Multiset.filter_eq_self]
  intro c hc
  rcases mem_children.1 (Multiset.mem_coe.1 hc) with ⟨i, hi, rfl⟩ | rfl
  · exact h.cell i hi
  · exact h.right

/-- The children depend on the number of keys, the right child and the cells in use. -/
theorem children_congr (hk : a.numKeys = pg.numKeys) (hr : a.rightChild = pg.rightChild)
    (hc : ∀ i < pg.numKeys, a.child i = pg.child i) : a.children = pg.children := by
  unfold children
  rw [hk, hr]
  congr 1
  exact List.map_congr_left fun i hi => hc i (List.mem_range.1 hi)

theorem Node.child_mem (h : pg.Node) {i : ℕ} (hi : i < pg.numKeys) : pg.child i ∈ pg.kids :=
  (mem_kids h.not_isLeaf).2 ⟨Or.inl ⟨i, hi, rfl⟩, h.cell i hi⟩

theorem Node.right_mem (h : pg.Node) : pg.rightChild ∈ pg.kids :=
  (mem_kids h.not_isLeaf).2 ⟨Or.inr rfl, h.right⟩

/-- A node with all its parts has a last key. -/
theorem Node.maxOk {K : ℕ → Prop} (h : pg.Node) (hK : ∀ i < 3, K i) : Mem.MaxOk K pg := by
  refine ⟨fun hl => ?_, fun _ => ⟨?_, h.le, hK _ ?_⟩⟩
  · rw [h.not_isLeaf] at hl; cases hl
  · have := h.pos; omega
  · have := h.pos; have := h.le; omega

theorem child_of_slot {i j : ℕ} (h : a.slot i = a'.slot j) : a.child i = a'.child j :=
  congrArg Prod.fst h

/-- The pages agree in all that the shape of the tree depends on. -/
structure SameNode (a b : Page) : Prop where
  header : a.SameHeader b [2]
  child : ∀ i < 3, a.child i = b.child i

theorem SameNode.isLeaf (h : SameNode a a') : a.isLeaf = a'.isLeaf := h.header.isLeaf (by simp)

/-- A page that agrees with a node is one. -/
theorem SameNode.node (h : SameNode a a') (hn : a'.Node) : a.Node where
  internal := by
    have := hn.internal
    unfold isInternal at this ⊢
    rw [h.header.type (by simp)]
    exact this
  pos := by rw [h.header.numKeys (by simp)]; exact hn.pos
  le := by rw [h.header.numKeys (by simp)]; exact hn.le
  right := by rw [h.header.rightChild (by simp)]; exact hn.right
  cell := fun i hi => by
    rw [h.header.numKeys (by simp)] at hi
    have := hn.le
    rw [h.child i (by omega)]
    exact hn.cell i hi

/-- Pages that agree have the same children. -/
theorem SameNode.kids (h : SameNode a a') (hn : a'.isLeaf = false → a'.numKeys ≤ 3) :
    a.kids = a'.kids := by
  unfold Page.kids
  rw [h.isLeaf]
  cases hl : a'.isLeaf with
  | true => rfl
  | false =>
    have := hn hl
    rw [children_congr (h.header.numKeys (by simp)) (h.header.rightChild (by simp))
      fun i hi => h.child i (by omega)]

/-- The parent field does not matter. -/
theorem SameNode.store_parent (pg : Page) (v : ℕ) : SameNode (pg.store .parent v) pg where
  header := SameHeader.store_header .parent v
  child := fun i _ => load_body_store_header _ .parent (.internalCell i)

/-- The separators do not matter. -/
theorem SameNode.store_key (pg : Page) (i v : ℕ) : SameNode (pg.store (.internalKey i) v) pg where
  header := (SameHeader.store_body (.internalKey i) v).mono (by simp)
  child := fun _ _ => load_internalCell_store_internalKey _ (by omega)

theorem kids_congr (hl : a.isLeaf = pg.isLeaf) (hc : a.children = pg.children) :
    a.kids = pg.kids := by
  unfold Page.kids; rw [hl, hc]

theorem kids_store_parent (pg : Page) (v : ℕ) : (pg.store .parent v).kids = pg.kids := by
  have h : (pg.store .parent v).SameHeader pg [2] := SameHeader.store_header .parent v
  exact kids_congr (h.isLeaf (by simp))
    (children_congr (h.numKeys (by simp)) (h.rightChild (by simp))
    fun i _ => load_body_store_header _ .parent (.internalCell i))

/-! ## A child added -/

variable {c cmax rmax : ℕ}

/-- A child added changes the number of keys and the right child at most. -/
theorem AddChild.header (h : AddChild a c cmax rmax a') : a'.SameHeader a [6, 10] := by
  cases h with
  | first _ => exact (SameHeader.store_header .rightChild c).mono (by simp)
  | append _ _ _ hh _ _ _ => exact hh
  | place _ _ _ hh _ _ => exact hh.mono (by simp)

theorem AddChild.isLeaf (h : AddChild a c cmax rmax a') : a'.isLeaf = a.isLeaf :=
  h.header.isLeaf (by simp)

/-- **One more child**, whichever way it is added. -/
theorem AddChild.kids (h : AddChild a c cmax rmax a') (hl : a.isLeaf = false) (hn : a.numKeys < 3)
    (hc : c ≠ invalidPageNum) (hc32 : c < 2 ^ 32) : a'.kids = c ::ₘ a.kids := by
  have hl' := h.isLeaf
  rw [hl] at hl'
  rw [kids_of_not_isLeaf hl', kids_of_not_isLeaf hl]
  unfold children
  cases h with
  -- the child becomes the right child of a node that had none
  | first hinv =>
    have hk : (a.store .rightChild c).numKeys = a.numKeys :=
      (SameHeader.store_header .rightChild c).numKeys (by simp)
    have hr : (a.store .rightChild c).rightChild = c := by
      unfold rightChild
      rw [load_store_header _ .rightChild .rightChild, if_pos rfl]
      exact Nat.mod_eq_of_lt hc32
    have hcell : (a.store .rightChild c).child = a.child := by
      funext i; exact load_body_store_header _ .rightChild (.internalCell i)
    rw [hk, hr, hcell, hinv, ← Multiset.coe_add, ← Multiset.coe_add, Multiset.filter_add,
      Multiset.filter_add, Multiset.coe_singleton, Multiset.coe_singleton,
      Multiset.filter_singleton, Multiset.filter_singleton, if_pos hc, if_neg (by simp)]
    simp [add_comm, Multiset.singleton_add]
  -- the old right child gets a cell, the new one becomes the right child
  | append a' hr hlt hh hk hrc hs =>
    have hcells : (List.range a'.numKeys).map a'.child =
        (List.range a.numKeys).map a.child ++ [a.rightChild] := by
      rw [hk, List.range_succ, List.map_append, List.map_singleton]
      have hlast := congrArg Prod.fst (hs a.numKeys hn)
      rw [if_pos rfl] at hlast
      congr 1
      · refine List.map_congr_left fun i hi => ?_
        have hi' := List.mem_range.1 hi
        have := congrArg Prod.fst (hs i (by omega))
        rwa [if_neg (by omega)] at this
      · exact congrArg (fun x => [x]) hlast
    rw [hcells, hrc, ← Multiset.coe_add, add_comm, Multiset.coe_singleton, Multiset.singleton_add,
      Multiset.filter_cons_of_pos (p := (· ≠ invalidPageNum)) _ hc]
  -- the cells from the place on move up by one
  | place a' hr hle hh hk hs =>
    have hidx := findChild_le a cmax
    have hcells : (List.range a'.numKeys).map a'.child =
        ((List.range a.numKeys).map a.child).insertIdx (a.findChild cmax) c := by
      rw [hk, ← map_insertAt _ _ hidx]
      refine List.map_congr_left fun i hi => ?_
      have hi' := List.mem_range.1 hi
      have := congrArg Prod.fst (hs i (by omega))
      rw [if_pos (by omega)] at this
      refine this.trans ?_
      unfold insertAt
      split
      · rfl
      · split <;> rfl
    have hperm := List.perm_insertIdx c ((List.range a.numKeys).map a.child)
      (i := a.findChild cmax) (by simpa using hidx)
    rw [hcells, hh.rightChild (by simp), Multiset.coe_eq_coe.2 (hperm.append_right [a.rightChild]),
      List.cons_append, ← Multiset.cons_coe,
      Multiset.filter_cons_of_pos (p := (· ≠ invalidPageNum)) _ hc]

/-- A node with room stays, or becomes, a node with all its parts. -/
theorem AddChild.node (h : AddChild a c cmax rmax a') (hl : a.isInternal = true)
    (hn : a.numKeys < 3) (hc : c ≠ invalidPageNum) (hc32 : c < 2 ^ 32)
    (hcell : ∀ i < a.numKeys, a.child i ≠ invalidPageNum)
    (hpos : a.rightChild = invalidPageNum → 1 ≤ a.numKeys) : a'.Node := by
  have hint : a'.isInternal = true := by
    unfold isInternal at hl ⊢
    rw [h.header.type (by simp)]
    exact hl
  -- in each case the cells below the new count hold valid children
  cases h with
  | first hinv =>
    have hk : (a.store .rightChild c).numKeys = a.numKeys :=
      (SameHeader.store_header .rightChild c).numKeys (by simp)
    refine ⟨hint, by rw [hk]; exact hpos hinv, by rw [hk]; omega, ?_, fun i hi => ?_⟩
    · unfold rightChild
      rw [load_store_header _ .rightChild .rightChild, if_pos rfl]
      exact (Nat.mod_eq_of_lt hc32).trans_ne hc
    · rw [hk] at hi
      exact (load_body_store_header _ .rightChild (.internalCell i)).trans_ne (hcell i hi)
  | append a' hr hlt hh hk hrc hs =>
    refine ⟨hint, by omega, by omega, by rw [hrc]; exact hc, fun i hi => ?_⟩
    have hi' := congrArg Prod.fst (hs i (by omega))
    by_cases hin : i = a.numKeys
    · rw [if_pos hin] at hi'; exact hi'.trans_ne hr
    · rw [if_neg hin] at hi'; exact hi'.trans_ne (hcell i (by omega))
  | place a' hr hle hh hk hs =>
    refine ⟨hint, by omega, by omega, by rw [hh.rightChild (by simp)]; exact hr, fun i hi => ?_⟩
    have hi' := congrArg Prod.fst (hs i (by omega))
    rw [if_pos (by omega)] at hi'
    refine hi'.trans_ne ?_
    unfold insertAt
    split
    · exact hcell i (by have := findChild_le a cmax; omega)
    · split
      · exact hc
      · exact hcell (i - 1) (by omega)

/-- The slots of the three cells are all in use, or free of `INVALID_PAGE_NUM`. -/
def SlotsOk (pg : Page) : Prop := ∀ i < 3, pg.child i ≠ invalidPageNum

/-- Slots without `INVALID_PAGE_NUM` stay so when a child is added. -/
theorem AddChild.slotsOk (h : AddChild a c cmax rmax a') (hc : c ≠ invalidPageNum)
    (hs : a.SlotsOk) : a'.SlotsOk := by
  intro i hi
  cases h with
  | first _ => exact (load_body_store_header _ .rightChild (.internalCell i)).trans_ne (hs i hi)
  | append a' hr _ _ _ _ hslot =>
    have hi' := congrArg Prod.fst (hslot i hi)
    by_cases hin : i = a.numKeys
    · rw [if_pos hin] at hi'; exact hi'.trans_ne hr
    · rw [if_neg hin] at hi'; exact hi'.trans_ne (hs i hi)
  | place a' _ _ _ _ hslot =>
    have hi' := congrArg Prod.fst (hslot i hi)
    refine hi'.trans_ne ?_
    split
    · unfold insertAt
      split
      · exact hs i hi
      · split
        · exact hc
        · exact hs (i - 1) (by omega)
    · exact hs i hi

end Page

/-! ## The invariant -/

/-- What the page `p` has to be. -/
structure PageFits (used : ℕ) (lvl : ℕ → ℕ) (stale empty : Set ℕ) (p : ℕ) (pg : Page) : Prop where
  leaf : lvl p = 0 → pg.isLeaf = true ∧ pg.numCells ≤ 15
  internal : lvl p ≠ 0 → pg.isInternal = true
  node : lvl p ≠ 0 → p ∉ empty → pg.Node
  empty : p ∈ empty → pg.numKeys = 0 ∧ pg.rightChild = invalidPageNum
  root : pg.isRoot = true ↔ p = 0
  parent : p ≠ 0 → p ∉ stale → pg.parent < used ∧ lvl pg.parent = lvl p + 1
  slots : lvl p ≠ 0 → (p ≠ 0 ∨ 2 ≤ lvl 0) → pg.SlotsOk

/-- A page other than the root, replaced by one the tree cannot tell from it. -/
theorem PageFits.same {used used' : ℕ} {lvl lvl' : ℕ → ℕ} {stale S empty : Set ℕ} {p : ℕ}
    {pg a : Page} (hf : PageFits used lvl stale empty p pg) (hl : lvl' p = lvl p)
    (h0 : p = 0 → 2 ≤ lvl' 0 → 2 ≤ lvl 0) (ha : Page.SameNode a pg)
    (hparent : p ≠ 0 → p ∉ S → a.parent < used' ∧ lvl' a.parent = lvl p + 1) :
    PageFits used' lvl' S empty p a := by
  constructor
  · intro hz
    rw [ha.isLeaf, ha.header.numCells (by simp)]
    exact hf.leaf (hl ▸ hz)
  · intro hz
    have := hf.internal (hl ▸ hz)
    unfold Page.isInternal at this ⊢
    rw [ha.header.type (by simp)]
    exact this
  · exact fun hz he => ha.node (hf.node (hl ▸ hz) he)
  · intro he
    rw [ha.header.numKeys (by simp), ha.header.rightChild (by simp)]
    exact hf.empty he
  · rw [ha.header.isRoot (by simp)]; exact hf.root
  · rw [hl]; exact hparent
  · intro hz h2 i hi
    refine (ha.child i hi).trans_ne (hf.slots (hl ▸ hz) ?_ i hi)
    by_cases hp0 : p = 0
    · exact h2.imp id (h0 hp0)
    · exact Or.inl hp0

structure Forest (T : ℕ → Prop) (m : Mem) (used : ℕ) (lvl : ℕ → ℕ) (pending : Multiset ℕ)
    (stale empty : Set ℕ) : Prop where
  fits : ∀ p < used, PageFits used lvl stale empty p (m.page p)
  levels : Levelled (Finset.range used) 0 (fun p => (m.page p).kids) lvl pending
  zero : ∀ p, used ≤ p → m.page p = Bytes.zero pageSize
  allowed : ∀ p < used, T p
  used_le : used ≤ filePagesNum

namespace Forest

open Page

variable {T : ℕ → Prop} {m : Mem} {used : ℕ} {lvl : ℕ → ℕ} {pending : Multiset ℕ}
  {stale empty : Set ℕ} {p q c : ℕ}

/-- Pages in use are not `INVALID_PAGE_NUM`. -/
theorem ne_invalid (h : Forest T m used lvl pending stale empty) (hp : p < used) :
    p ≠ invalidPageNum := by
  have := h.used_le
  unfold filePagesNum at this
  unfold invalidPageNum
  omega

theorem lt_two_pow (h : Forest T m used lvl pending stale empty) (hp : p < used) : p < 2 ^ 32 := by
  have := h.used_le
  unfold filePagesNum at this
  omega

/-- Children are pages in use, and never the root. -/
theorem kid_lt (h : Forest T m used lvl pending stale empty) (hp : p < used)
    (hc : c ∈ (m.page p).kids) : c < used ∧ c ≠ 0 := by
  have := h.levels.mem_of_kid (Finset.mem_range.2 hp) hc
  rwa [Finset.mem_range] at this

/-- Children are one level below. -/
theorem kid_level (h : Forest T m used lvl pending stale empty) (hp : p < used)
    (hc : c ∈ (m.page p).kids) : lvl c + 1 = lvl p := h.levels.below p (Finset.mem_range.2 hp) c hc

/-- Pages on their way into the tree are in use, and none is the root. -/
theorem pending_lt (h : Forest T m used lvl pending stale empty) (hc : c ∈ pending) :
    c < used ∧ c ≠ 0 := by
  have := h.levels.mem_of_pending hc
  rwa [Finset.mem_range] at this

/-- The root is always in use. -/
theorem used_pos (h : Forest T m used lvl pending stale empty) : 0 < used :=
  Finset.mem_range.1 h.levels.root_mem

/-- Every page that is not an empty node has a last key. -/
theorem maxOk {K : ℕ → Prop} (h : Forest T m used lvl pending stale empty) (hK : ∀ i < 3, K i)
    (hp : p < used) (he : p ∉ empty) : Mem.MaxOk K (m.page p) := by
  by_cases hl : lvl p = 0
  · have := (h.fits p hp).leaf hl
    exact ⟨fun _ => this.2, fun hn => absurd this.1 hn⟩
  · exact ((h.fits p hp).node hl he).maxOk hK

/-- One page replaced. -/
theorem set (h : Forest T m used lvl pending stale empty) (hp : p < used) {a : Page}
    {P : Multiset ℕ} {S E : Set ℕ}
    (hkids : a.kids + P = (m.page p).kids + pending)
    (hbelow : ∀ c ∈ a.kids, lvl c + 1 = lvl p)
    (hfits : PageFits used lvl S E p a)
    (hstale : ∀ q, q ≠ p → q ∉ S → q ∉ stale)
    (hempty : ∀ q, q ≠ p → (q ∈ E ↔ q ∈ empty)) :
    Forest T (m.set p a) used lvl P S E := by
  refine ⟨fun q hq => ?_, ?_, fun q hq => ?_, h.allowed, h.used_le⟩
  · by_cases hqp : q = p
    · subst hqp; rw [Mem.page_set_self]; exact hfits
    · rw [Mem.page_set_ne _ _ hqp]
      have hf := h.fits q hq
      exact ⟨hf.leaf, hf.internal, fun hl he => hf.node hl fun hx => he ((hempty q hqp).2 hx),
        fun he => hf.empty ((hempty q hqp).1 he), hf.root,
        fun h0 hs => hf.parent h0 (hstale q hqp hs), hf.slots⟩
  · have hl := h.levels.update (Finset.mem_range.2 hp) hkids hbelow
    have hfun : (fun q => ((m.set p a).page q).kids) =
        Function.update (fun q => (m.page q).kids) p a.kids := by
      funext q
      by_cases hqp : q = p
      · subst hqp; rw [Mem.page_set_self, Function.update_self]
      · rw [Mem.page_set_ne _ _ hqp, Function.update_of_ne hqp]
    rw [hfun]
    exact hl
  · rw [Mem.page_set_ne _ _ (by omega)]; exact h.zero q hq

/-- One page added: the unused page gets the contents `a` and the level `l`. -/
theorem push (h : Forest T m used lvl pending stale empty) {a : Page} {l : ℕ}
    {P : Multiset ℕ} {S E : Set ℕ}
    (hkids : a.kids + P = pending + {used}) (hbelow : ∀ c ∈ a.kids, lvl c + 1 = l)
    (hself : used ∉ a.kids)
    (hfits : PageFits (used + 1) (Function.update lvl used l) S E used a)
    (hstale : ∀ q < used, q ∉ S → q ∉ stale) (hempty : ∀ q < used, q ∈ E ↔ q ∈ empty)
    (hT : T used) (hle : used < filePagesNum) {m' : Mem}
    (hm' : m'.page = Function.update m.page used a) :
    Forest T m' (used + 1) (Function.update lvl used l) P S E := by
  have hne : ∀ {q}, q < used → q ≠ used := fun hq => hq.ne
  have h0 := h.used_pos
  refine ⟨fun q hq => ?_, ?_, fun q hq => ?_, fun q hq => ?_, hle⟩
  · by_cases hqu : q = used
    · subst hqu; rw [hm', Function.update_self]; exact hfits
    · have hq' : q < used := by omega
      rw [hm', Function.update_of_ne hqu]
      -- the old pages keep their shape under the extended levels
      have hf := h.fits q hq'
      constructor
      · rw [Function.update_of_ne hqu]; exact hf.leaf
      · rw [Function.update_of_ne hqu]; exact hf.internal
      · rw [Function.update_of_ne hqu]
        exact fun hl he => hf.node hl fun hx => he ((hempty q hq').2 hx)
      · exact fun he => hf.empty ((hempty q hq').1 he)
      · exact hf.root
      · intro hq0 hs
        have := hf.parent hq0 (hstale q hq' hs)
        rw [Function.update_of_ne hqu, Function.update_of_ne (hne this.1)]
        exact ⟨by omega, this.2⟩
      · rw [Function.update_of_ne hqu, Function.update_of_ne (hne h0)]; exact hf.slots
  · have hl := h.levels.insert (x := used) (by simp) hkids hbelow hself
    -- the children of the other pages have not changed
    have hfun : (fun q => (m'.page q).kids) =
        Function.update (fun q => (m.page q).kids) used a.kids := by
      funext q
      by_cases hqu : q = used
      · subst hqu; rw [hm', Function.update_self, Function.update_self]
      · rw [hm', Function.update_of_ne hqu, Function.update_of_ne hqu]
    rw [hfun, Finset.range_add_one]
    exact hl
  · rw [hm', Function.update_of_ne (by omega)]; exact h.zero q (by omega)
  · by_cases hqu : q = used
    · rw [hqu]; exact hT
    · exact h.allowed q (by omega)

/-- One page replaced by one the tree cannot tell from it, but for the parent field. -/
theorem same (h : Forest T m used lvl pending stale empty) (hp : p < used) {a : Page}
    {S : Set ℕ} (ha : SameNode a (m.page p))
    (hparent : p ≠ 0 → p ∉ S → a.parent < used ∧ lvl a.parent = lvl p + 1)
    (hstale : ∀ q, q ≠ p → q ∉ S → q ∉ stale) :
    Forest T (m.set p a) used lvl pending S empty := by
  have hf := h.fits p hp
  have hkids : a.kids = (m.page p).kids := by
    refine ha.kids fun hl => ?_
    by_cases h0 : lvl p = 0
    · rw [(hf.leaf h0).1] at hl; cases hl
    · by_cases he : p ∈ empty
      · rw [(hf.empty he).1]; omega
      · exact (hf.node h0 he).le
  exact h.set hp (by rw [hkids]) (fun c hc => h.kid_level hp (by rwa [hkids] at hc))
    (hf.same rfl (fun _ => id) ha hparent) hstale fun _ _ => Iff.rfl

/-- The parent field of a page set to a page one level up. -/
theorem store_parent (h : Forest T m used lvl pending stale empty) (hp : p < used) {v : ℕ}
    (hv : v < used) (hl : lvl v = lvl p + 1) {S : Set ℕ}
    (hstale : ∀ q, q ≠ p → q ∉ S → q ∉ stale) :
    Forest T (m.set p ((m.page p).store .parent v)) used lvl pending S empty := by
  have hpar : ((m.page p).store .parent v).parent = v := parent_store_parent (h.lt_two_pow hv)
  exact h.same hp (.store_parent _ _) (fun _ _ => by rw [hpar]; exact ⟨hv, hl⟩) hstale

/-- **A pending page is hung below a node with room.** -/
theorem addChild (h : Forest T m used lvl (c ::ₘ pending) stale empty) (hp : p < used)
    (he : p ∉ empty) (hlvl : lvl c + 1 = lvl p) (hn : (m.page p).numKeys < 3) {a' : Page}
    {cmax rmax : ℕ} (ha : AddChild (m.page p) c cmax rmax a') :
    Forest T (m.set p a') used lvl pending stale empty := by
  have hf := h.fits p hp
  have hl : lvl p ≠ 0 := by omega
  have hnode := hf.node hl he
  have hc := h.pending_lt (Multiset.mem_cons_self c pending)
  have hcv := h.ne_invalid hc.1
  have hkids := ha.kids hnode.not_isLeaf hn hcv (h.lt_two_pow hc.1)
  have hnode' := ha.node hnode.internal hn hcv (h.lt_two_pow hc.1) hnode.cell fun _ => hnode.pos
  refine h.set hp (by rw [hkids, Multiset.cons_add, Multiset.add_cons]) (fun d hd => ?_) ?_
    (fun _ _ => id) fun _ _ => Iff.rfl
  · rw [hkids, Multiset.mem_cons] at hd
    rcases hd with rfl | hd
    · exact hlvl
    · exact h.kid_level hp hd
  · refine ⟨fun h0 => absurd h0 hl, fun _ => hnode'.internal, fun _ _ => hnode',
      fun hx => absurd hx he, ?_, ?_, ?_⟩
    · rw [ha.header.isRoot (by simp)]; exact hf.root
    · rw [ha.header.parent (by simp)]; exact hf.parent
    · exact fun _ h0 => ha.slotsOk hcv (hf.slots hl h0)

section Wp

variable {K : ℕ → Prop} [DecidablePred K] [DecidablePred T] {F : Fault → Mem → Prop}
  {Q : Unit → Mem → Prop}

/-- Insertion into a node with room, in the shape of a tree. The slot that is
overwritten can only be unusable in a root above the leaves. -/
theorem wp_insert_room {split : ℕ → ℕ → Prog ℕ Unit} {fuel : ℕ}
    (h : Forest T m used lvl (c ::ₘ pending) stale ∅) (hcached : ∀ q < used, m.cached q = true)
    (hp : p < used) (hlvl : lvl c + 1 = lvl p) (hn : (m.page p).numKeys < 3) (hK : ∀ i < 3, K i)
    (hexit : p = 0 → lvl 0 = 1 →
      ((m.page (m.page p).rightChild).maxKey < (m.page c).maxKey ∨
        (m.page p).findChild (m.page c).maxKey = (m.page p).numKeys) →
      (m.page p).child (m.page p).numKeys = invalidPageNum → ∀ e m', F (.exit e) m')
    (hQ : ∀ a', AddChild (m.page p) c (m.page c).maxKey (m.page (m.page p).rightChild).maxKey a' →
      ((m.page (m.page p).rightChild).maxKey < (m.page c).maxKey ∨
        (m.page p).findChild (m.page c).maxKey = (m.page p).numKeys →
        (m.page p).child (m.page p).numKeys ≠ invalidPageNum) →
      Q () (m.set p a')) :
    Program.wp (Mem.handler K T) (internalNodeInsertStep split fuel p c) Q F m := by
  have hl : lvl p ≠ 0 := by omega
  have hf := h.fits p hp
  have hnode := hf.node hl (Set.notMem_empty p)
  have hc := h.pending_lt (Multiset.mem_cons_self c pending)
  have hr := h.kid_lt hp hnode.right_mem
  have hrl := h.kid_level hp hnode.right_mem
  have hrp : (m.page p).rightChild ≠ p := fun he => by rw [he] at hrl; omega
  refine Mem.wp_internalNodeInsertStep_room hn hrp (h.allowed _ hp) (h.allowed _ hc.1)
    (fun _ => h.allowed _ hr.1) (hcached _ hp) (hcached _ hc.1) (fun _ => hcached _ hr.1)
    (h.maxOk hK hc.1 (Set.notMem_empty c)) (fun _ => h.maxOk hK hr.1 (Set.notMem_empty _))
    (h.lt_two_pow hc.1) hK (fun _ hcond hv => ?_) hnode.cell fun a' ha hfree =>
      hQ a' ha (hfree hnode.right)
  -- the slot past the last cell may be stale only in a root just above the leaves
  by_cases hp0 : p = 0
  · by_cases hl0 : lvl 0 = 1
    · exact hexit hp0 hl0 hcond hv
    · have : 2 ≤ lvl 0 := by rw [hp0] at hl; omega
      exact absurd hv (hf.slots hl (Or.inr this) _ hn)
  · exact absurd hv (hf.slots hl (Or.inl hp0) _ hn)

end Wp

end Forest

end ToySQL
