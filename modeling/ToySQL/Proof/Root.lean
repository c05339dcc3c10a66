import ToySQL.Proof.Split

/-!
# A new root

`Mem.newRoot` is the effect of `create_new_root` on the pages: page 0 moves to a new
page, whose children get their new parent, and becomes an internal node with that page
and another one as its children. `Forest.newRoot`: the tree grows by one level.
-/

namespace ToySQL

open Program

namespace Page

/-- The old root in its new place. -/
def asLeft (a : Page) : Page := (a.store .isRoot 0).store .parent 0

/-- The new contents of page 0. Only the first cell is written. -/
def asRoot (a : Page) (left leftMax right : ℕ) : Page :=
  (((((a.initInternal).store .isRoot 1).store .numKeys 1).store (.internalCell 0) left).store
    (.internalKey 0) leftMax).store .rightChild right

/-- The children whose parent field is set. -/
def adopted (a : Page) : List ℕ := if a.isLeaf then [] else a.children

variable {a : Page} {left leftMax right i : ℕ}

theorem SameHeader.asLeft (a : Page) : a.asLeft.SameHeader a [1, 2] :=
  ((SameHeader.store_header .parent 0).mono (by simp)).trans
    ((SameHeader.store_header .isRoot 0).mono (by simp))

theorem isRoot_asLeft (a : Page) : a.asLeft.isRoot = false := by
  unfold isRoot asLeft
  rw [load_store_header _ .parent .isRoot, if_neg (by decide), load_store_header _ .isRoot .isRoot,
    if_pos rfl]
  rfl

theorem parent_asLeft (a : Page) : a.asLeft.parent = 0 := by
  unfold parent asLeft
  rw [load_store_header _ .parent .parent, if_pos rfl]
  rfl

/-- The copy is a node like the old root. -/
theorem node_asLeft (h : a.Node) : a.asLeft.Node := by
  have hh := SameHeader.asLeft a
  have hint := h.internal
  refine ⟨?_, ?_, ?_, ?_, fun i hi => ?_⟩
  · unfold isInternal at hint ⊢
    rw [hh.type (by simp)]
    exact hint
  · rw [hh.numKeys (by simp)]; exact h.pos
  · rw [hh.numKeys (by simp)]; exact h.le
  · rw [hh.rightChild (by simp)]; exact h.right
  · rw [hh.numKeys (by simp)] at hi
    unfold child asLeft
    rw [load_body_store_header _ .parent (.internalCell i),
      load_body_store_header _ .isRoot (.internalCell i)]
    exact h.cell i hi

/-- The copy has the slots of the old root. -/
theorem slot_asLeft (a : Page) (i : ℕ) : a.asLeft.slot i = a.slot i := by
  unfold asLeft; rw [slot_store_header .parent, slot_store_header .isRoot]

theorem row_asLeft (a : Page) (i : ℕ) : a.asLeft.row i = a.row i := by
  unfold asLeft; rw [row_store_header .parent, row_store_header .isRoot]

/-- The copy has the rows of the old root. -/
theorem rows_asLeft (a : Page) : a.asLeft.rows = a.rows :=
  rows_of_row ((SameHeader.asLeft a).numCells (by simp)) fun j _ => row_asLeft a j

theorem keys_asLeft (a : Page) : a.asLeft.keys = a.keys :=
  congrArg (List.map Prod.fst) (rows_asLeft a)

/-- The largest key does not depend on the root flag. -/
theorem maxKey_store_isRoot (pg : Page) (v : ℕ) : (pg.store .isRoot v).maxKey = pg.maxKey := by
  have h : (pg.store .isRoot v).SameHeader pg [1] := SameHeader.store_header .isRoot v
  have hk : ∀ i, (pg.store .isRoot v).key i = pg.key i :=
    fun i => load_body_store_header _ .isRoot (.leafKey i)
  have hs : ∀ i, (pg.store .isRoot v).sep i = pg.sep i :=
    fun i => load_body_store_header _ .isRoot (.internalKey i)
  unfold maxKey
  rw [h.isLeaf (by simp), h.numCells (by simp), h.numKeys (by simp), hk, hs]

theorem isInternal_initInternal (a : Page) : a.initInternal.isInternal = true := by
  unfold isInternal type Page.initInternal
  simp [NodeType.ofByte]

theorem isRoot_initInternal (a : Page) : a.initInternal.isRoot = false := by
  unfold isRoot Page.initInternal
  simp

theorem numKeys_initInternal (a : Page) : a.initInternal.numKeys = 0 := by
  unfold numKeys Page.initInternal
  simp

theorem rightChild_initInternal (a : Page) : a.initInternal.rightChild = invalidPageNum := by
  unfold rightChild Page.initInternal
  rw [load_store_header _ .rightChild .rightChild, if_pos rfl]
  rfl

/-- Initialising a node leaves its slots as they were. -/
theorem slot_initInternal (a : Page) (i : ℕ) : a.initInternal.slot i = a.slot i := by
  unfold Page.initInternal
  rw [slot_store_header .rightChild, slot_store_header .numKeys, slot_store_header .isRoot,
    slot_store_header .nodeType]

/-- The fields of the new root. -/
structure IsNewRoot (a : Page) (left leftMax right : ℕ) (a' : Page) : Prop where
  internal : a'.isInternal = true
  root : a'.isRoot = true
  numKeys : a'.numKeys = 1
  right : a'.rightChild = right
  slot : ∀ i < 500, a'.slot i = if i = 0 then (left, leftMax) else a.slot i

/-- What `create_new_root` makes of page 0. -/
theorem asRoot_spec (a : Page) (left leftMax right : ℕ) (hl : left < 2 ^ 32) (hm : leftMax < 2 ^ 32)
    (hr : right < 2 ^ 32) :
    IsNewRoot a left leftMax right (a.asRoot left leftMax right) := by
  -- the cell and the right child are written last and leave the other fields
  have h : (a.asRoot left leftMax right).SameHeader
      (((a.initInternal).store .isRoot 1).store .numKeys 1) [10] := by
    refine (SameHeader.store_header .rightChild right).trans ?_
    refine ((SameHeader.store_body (.internalKey 0) leftMax).mono (by simp)).trans ?_
    exact (SameHeader.store_body (.internalCell 0) left).mono (by simp)
  have hi := isInternal_initInternal a
  constructor
  · unfold isInternal type at hi ⊢
    rw [h .nodeType .nodeType (by simp), load_store_header _ .numKeys .nodeType, if_neg (by simp),
      load_store_header _ .isRoot .nodeType, if_neg (by simp)]
    exact hi
  · unfold isRoot
    rw [h .isRoot .isRoot (by simp), load_store_header _ .numKeys .isRoot, if_neg (by simp),
      load_store_header _ .isRoot .isRoot, if_pos rfl]
    rfl
  · unfold numKeys
    rw [h .numKeys .numKeys (by simp), load_store_header _ .numKeys .numKeys, if_pos rfl]
    rfl
  · unfold rightChild asRoot
    rw [load_store_header _ .rightChild .rightChild, if_pos rfl]
    exact Nat.mod_eq_of_lt hr
  · intro i hi500
    unfold asRoot
    rw [slot_store_header .rightChild, slot_store_key (by omega) hi500 hm]
    by_cases h0 : i = 0
    · have := slot_store_cell (a := ((a.initInternal).store .isRoot 1).store .numKeys 1) (i := 0)
        (j := i) (by omega) (by omega) hl
      rw [if_pos h0] at this
      have hfst := congrArg Prod.fst this
      rw [if_pos h0, if_pos h0]
      exact Prod.ext hfst rfl
    · rw [if_neg h0, if_neg h0, slot_store_cell (by omega) hi500 hl, if_neg h0,
        slot_store_header .numKeys, slot_store_header .isRoot, slot_initInternal]

/-- The new root is a node. -/
theorem IsNewRoot.node {a' : Page} (h : IsNewRoot a left leftMax right a')
    (hl : left ≠ invalidPageNum) (hr : right ≠ invalidPageNum) : a'.Node where
  internal := h.internal
  pos := by rw [h.numKeys]
  le := by rw [h.numKeys]; omega
  right := by rw [h.right]; exact hr
  cell := fun i hi => by
    rw [h.numKeys] at hi
    have := congrArg Prod.fst (h.slot i (by omega))
    rw [if_pos (by omega)] at this
    exact this.trans_ne hl

/-- The children of the new root are the two halves. -/
theorem IsNewRoot.kids {a' : Page} (h : IsNewRoot a left leftMax right a')
    (hl : left ≠ invalidPageNum) (hr : right ≠ invalidPageNum) : a'.kids = {left, right} := by
  rw [(h.node hl hr).kids]
  unfold children
  rw [h.numKeys, h.right]
  have := congrArg Prod.fst (h.slot 0 (by omega))
  show (([a'.child 0, right] : List ℕ) : Multiset ℕ) = _
  rw [show a'.child 0 = left from this]
  rfl

theorem kids_asLeft (a : Page) : a.asLeft.kids = a.kids :=
  kids_congr ((SameHeader.asLeft a).isLeaf (by simp))
    (children_congr ((SameHeader.asLeft a).numKeys (by simp))
      ((SameHeader.asLeft a).rightChild (by simp))
      fun i _ => child_of_slot (slot_asLeft a i))

end Page

namespace Mem

open Page

/-- The pages of a list get the parent `w`. -/
def reparent (w : ℕ) : Mem → List ℕ → Mem
  | m, [] => m
  | m, c :: cs => reparent w (m.set c ((m.page c).store .parent w)) cs

/-- **The effect of `create_new_root`.** -/
def newRoot (m : Mem) (right : ℕ) : Mem :=
  let a := m.page 0
  let m1 := (reparent m.numPages m.alloc a.adopted).set m.numPages a.asLeft
  (m1.set 0 (a.asRoot m.numPages a.maxKey right)).set right ((m.page right).store .parent 0)

theorem reparent_cached (w : ℕ) (cs : List ℕ) : ∀ m, (reparent w m cs).cached = m.cached := by
  induction cs with
  | nil => intro m; rfl
  | cons c cs ih => intro m; exact ih _

theorem reparent_numPages (w : ℕ) (cs : List ℕ) : ∀ m, (reparent w m cs).numPages = m.numPages := by
  induction cs with
  | nil => intro m; rfl
  | cons c cs ih => intro m; exact ih _

/-- The pages after the loop: each child has the new parent. By induction on the children. -/
theorem reparent_page (w : ℕ) (cs : List ℕ) (q : ℕ) : ∀ m, (reparent w m cs).page q =
    if q ∈ cs then (m.page q).store .parent w else m.page q := by
  induction cs with
  | nil => intro m; rfl
  | cons c cs ih =>
    intro m
    unfold reparent
    rw [ih]
    by_cases hqc : q = c
    · rw [hqc, page_set_self, if_pos (List.mem_cons_self ..)]
      split
      · unfold Page.store; exact Bytes.splice_splice_same _ _ _ _
      · rfl
    · rw [page_set_ne _ _ hqc]
      simp only [List.mem_cons, hqc, false_or]

variable {K T : ℕ → Prop} [DecidablePred K] [DecidablePred T] {m : Mem} {F : Fault → Mem → Prop}
  {Q : Unit → Mem → Prop}

/-- The loop of `create_new_root`. The page it reads the children from is not theirs. -/
theorem wp_createNewRootLoop {left w : ℕ} : ∀ count i (m : Mem), i + count = (m.page left).numKeys →
    (m.page left).numKeys ≤ 3 →
    (∀ j < (m.page left).numKeys, (m.page left).child j ≠ invalidPageNum ∧
      (m.page left).child j ≠ left ∧
      T ((m.page left).child j) ∧ m.cached ((m.page left).child j) = true) →
    Q () (reparent w m ((List.range' i count).map (m.page left).child)) →
    wp (handler K T) (createNewRootLoop left w count i) Q F m := by
  intro count
  induction count with
  | zero => intro i m _ _ _ h; exact h
  | succ count ih =>
    intro i m hi h3 hc h
    obtain ⟨hv, hl, hT, hcache⟩ := hc i (by omega)
    unfold createNewRootLoop
    rw [wp_bind, wp_internalNodeChild_cell (by omega) (by omega) hv, wp_bind,
      wp_load (access_internalCell (by omega)), load_internalCell, wp_bind, wp_getPage hT,
      touch_of_cached hcache, wp_bind, wp_store (access_header .parent)]
    have hpage : (m.set ((m.page left).child i)
        ((m.page ((m.page left).child i)).store .parent w)).page left = m.page left :=
      page_set_ne _ _ hl.symm
    refine ih (i + 1) _ (by rw [hpage]; omega) (by rw [hpage]; exact h3)
      (by rw [hpage]; exact hc) ?_
    rw [hpage]
    rw [List.range'_succ, List.map_cons] at h
    exact h

/-- The children of the old root become those of the copy. -/
theorem wp_adoptChildren {left w : ℕ} (hnode : (m.page left).Node)
    (hc : ∀ c ∈ (m.page left).children, c ≠ left ∧ T c ∧ m.cached c = true)
    (h : Q () (reparent w m (m.page left).children)) :
    wp (handler K T) (adoptChildren left w) Q F m := by
  have hr := hc _ (mem_children.2 (Or.inr rfl))
  unfold adoptChildren
  simp only [wp_bind, wp_load (access_header .rightChild), wp_load (access_header .numKeys),
    load_rightChild, load_numKeys]
  refine wp_createNewRootLoop _ 0 m (by omega) hnode.le (fun j hj => ?_) ?_
  · have := hc _ (mem_children.2 (Or.inl ⟨j, hj, rfl⟩))
    exact ⟨hnode.cell j hj, this⟩
  · have hcache :
        (reparent w m ((List.range' 0 (m.page left).numKeys).map (m.page left).child)).cached
        (m.page left).rightChild = true := by rw [reparent_cached]; exact hr.2.2
    rw [wp_getPage hr.2.1, touch_of_cached hcache, wp_store (access_header .parent)]
    have happ : ∀ (cs : List ℕ) (m : Mem) (r : ℕ), reparent w m (cs ++ [r]) =
        (reparent w m cs).set r (((reparent w m cs).page r).store .parent w) := by
      intro cs
      induction cs with
      | nil => intro m r; rfl
      | cons c cs ih => intro m r; exact ih _ r
    unfold children at h
    rw [happ, List.range_eq_range'] at h
    exact h

/-- What `create_new_root` does after the copy: page 0 becomes the root of both halves. -/
theorem wp_linkNewRoot {left right fuel : ℕ} (hl0 : left ≠ 0) (hr0 : right ≠ 0) (hlr : left ≠ right)
    (hmax : MaxOk K (m.page left)) (hK : K 0)
    (hslot : (m.page 0).child 0 = invalidPageNum → ∀ e m', F (.exit e) m')
    (h : Q () (((m.set left ((m.page left).store .parent 0)).set 0
      ((m.page 0).asRoot left (m.page left).maxKey right)).set right
        ((m.page right).store .parent 0))) :
    wp (handler K T) (linkNewRoot fuel 0 left right left right) Q F m := by
  have hk1 : (((m.page 0).initInternal.store .isRoot 1).store .numKeys 1).numKeys = 1 := by
    unfold numKeys; rw [load_store_header _ .numKeys .numKeys, if_pos rfl]; rfl
  have hc1 : (((m.page 0).initInternal.store .isRoot 1).store .numKeys 1).child 0 =
      (m.page 0).child 0 :=
    congrArg Prod.fst (((slot_store_header .numKeys 0).trans (slot_store_header .isRoot 0)).trans
      (slot_initInternal _ 0))
  unfold linkNewRoot
  simp only [wp_bind, wp_initializeInternalNode, wp_setNodeRoot, wp_store (access_header .numKeys),
    page_set_self, set_set, Bool.toNat_true]
  refine wp_internalNodeChild_slot (by rw [page_set_self, hk1]; omega) (by omega)
    (by rw [page_set_self, hc1]; exact hslot) fun _ => ?_
  have hmax' : MaxOk K ((m.set 0 ((((m.page 0).initInternal.store .isRoot 1).store .numKeys 1).store
      (.internalCell 0) left)).page left) := by
    rw [page_set_ne _ _ hl0]; exact hmax
  rw [wp_store (access_internalCell (by omega)), page_set_self, set_set]
  simp only [wp_getNodeMaxKey _ hmax']
  rw [wp_store (access_internalKey (by omega) hK), page_set_self, set_set, page_set_ne _ _ hl0]
  simp only [wp_store (access_header .rightChild), wp_store (access_header .parent), page_set_self,
    set_set]
  rw [page_set_ne _ _ hl0, page_set_ne _ _ hlr.symm, page_set_ne _ _ hr0, set_comm _ _ _ hl0.symm]
  exact h

/-- The copy of page 0. -/
theorem wp_copyPage {left : ℕ} {Q : Unit → Mem → Prop} :
    wp (handler K T) (memcpy left .start 0 .start pageSize) Q F m ↔
      Q () (m.set left (m.page 0)) := by
  rw [wp_memcpy ⟨by simp, by simp⟩, Loc.offset_start, splice_page]

/-- `create_new_root` over a root leaf. -/
theorem wp_createNewRoot_leaf {fuel right : ℕ} (hm : m.Tight) (h0 : 0 < m.numPages)
    (hr : right < m.numPages) (hr0 : right ≠ 0) (hT : T 0 ∧ T right)
    (hleaf : (m.page 0).isLeaf = true)
    (hn : (m.page 0).numCells ≤ 15) (hK : K 0)
    (hslot : (m.page 0).child 0 = invalidPageNum → ∀ e m', F (.exit e) m')
    (hout : ¬ T m.numPages → ∀ e m', F (.outOfRange e) m')
    (h : T m.numPages → Q () (m.newRoot right)) :
    wp (handler K T) (createNewRoot fuel right) Q F m := by
  have hl0 : m.numPages ≠ 0 := h0.ne'
  have htype : (m.page 0).type ≠ .internal := by
    unfold isLeaf at hleaf; rw [of_decide_eq_true hleaf]; decide
  have htype' : ((m.page 0).store .isRoot 0).type ≠ .internal := by
    rw [(SameHeader.store_header .isRoot 0).type (by simp)]; exact htype
  have hmax : MaxOk K ((m.page 0).store .isRoot 0) := by
    have hh : ((m.page 0).store .isRoot 0).SameHeader (m.page 0) [1] :=
      SameHeader.store_header .isRoot 0
    refine ⟨fun _ => by rw [hh.numCells (by simp)]; exact hn, fun h => ?_⟩
    rw [hh.isLeaf (by simp)] at h
    exact absurd hleaf h
  unfold createNewRoot rootPageNum
  simp only [wp_bind, wp_getPage hT.1, wp_getPage hT.2, hm.touch_of_lt h0, hm.touch_of_lt hr,
    wp_getUnusedPage]
  -- the page for the copy of the root is the next one
  by_cases hTl : T m.numPages
  · simp only [wp_bind, wp_getPage hTl, wp_getNodeType, page_touch, if_neg htype, wp_copyPage,
      wp_setNodeRoot, page_set_self, set_set, Bool.toNat_false, if_neg htype']
    have hpl : ((m.touch m.numPages).set m.numPages ((m.page 0).store .isRoot 0)).page m.numPages =
        (m.page 0).store .isRoot 0 := page_set_self _ _ _
    have hp0 : ((m.touch m.numPages).set m.numPages ((m.page 0).store .isRoot 0)).page 0 =
        m.page 0 := by
      rw [page_set_ne _ _ hl0.symm, page_touch]
    refine wp_linkNewRoot hl0 hr0 hr.ne' (by rw [hpl]; exact hmax) hK (by rw [hp0]; exact hslot) ?_
    have hfin := h hTl
    rw [hpl, hp0, page_set_ne _ _ hr.ne, page_touch, set_set, maxKey_store_isRoot]
    have had : (m.page 0).adopted = [] := if_pos hleaf
    unfold newRoot at hfin
    simp only [had] at hfin
    exact hfin
  · rw [wp_getPage_of_not hTl]; exact hout hTl _ _

/-- `create_new_root` over an internal root, for a right child that is not in use yet. -/
theorem wp_createNewRoot_internal {fuel : ℕ} (hm : m.Tight) (h0 : 0 < m.numPages) (hT0 : T 0)
    (hnode : (m.page 0).Node) (hK : ∀ i < 3, K i)
    (hc : ∀ c ∈ (m.page 0).children, c < m.numPages ∧ c ≠ 0 ∧ T c)
    (hout : ¬ (T m.numPages ∧ T (m.numPages + 1)) → ∀ e m', F (.outOfRange e) m')
    (h : T m.numPages → T (m.numPages + 1) →
      Q () ((m.alloc.set m.numPages (m.page m.numPages).initInternal).newRoot m.numPages)) :
    wp (handler K T) (createNewRoot fuel m.numPages) Q F m := by
  have hn0 : m.numPages ≠ 0 := h0.ne'
  have htype : (m.page 0).type = .internal := by
    have := hnode.internal
    unfold isInternal at this
    exact of_decide_eq_true this
  have htype' : ((m.page 0).store .isRoot 0).type = .internal := by
    rw [(SameHeader.store_header .isRoot 0).type (by simp)]; exact htype
  unfold createNewRoot rootPageNum
  simp only [wp_bind, wp_getPage hT0, hm.touch_of_lt h0]
  by_cases hTr : T m.numPages
  · have hma := hm.alloc
    have hpages := hm.numPages_alloc
    have halloc : m.touch m.numPages = m.alloc := rfl
    simp only [wp_getPage hTr, halloc, wp_getUnusedPage, hpages]
    by_cases hTl : T (m.numPages + 1)
    · have halloc2 : m.alloc.touch (m.numPages + 1) = m.alloc.alloc := by
        rw [← hpages]; rfl
      have hne : m.numPages + 1 ≠ m.numPages := by omega
      have hl0 : m.numPages + 1 ≠ 0 := by omega
      simp only [wp_getPage hTl, halloc2, wp_getNodeType, page_alloc, if_pos htype, wp_bind,
        wp_initializeInternalNode, page_set_ne _ _ hn0.symm, page_set_ne _ _ hl0.symm, wp_copyPage,
        wp_setNodeRoot, page_set_self, set_set, Bool.toNat_false,
        if_pos htype']
      have hh : ((m.page 0).store .isRoot 0).SameHeader (m.page 0) [1] :=
        SameHeader.store_header .isRoot 0
      have hchild : ∀ i, ((m.page 0).store .isRoot 0).child i = (m.page 0).child i :=
        fun i => load_body_store_header _ .isRoot (.internalCell i)
      -- the copy has the children of the old root
      have hchildren : ((m.page 0).store .isRoot 0).children = (m.page 0).children :=
        children_congr (hh.numKeys (by simp)) (hh.rightChild (by simp)) fun i _ => hchild i
      have hnode' : ((m.page 0).store .isRoot 0).Node :=
        ⟨by unfold isInternal; exact decide_eq_true htype',
          by rw [hh.numKeys (by simp)]; exact hnode.pos,
          by rw [hh.numKeys (by simp)]; exact hnode.le,
          by rw [hh.rightChild (by simp)]; exact hnode.right,
          fun i hi => by rw [hchild]; rw [hh.numKeys (by simp)] at hi; exact hnode.cell i hi⟩
      set M := (m.alloc.alloc.set m.numPages (m.page m.numPages).initInternal).set (m.numPages + 1)
        ((m.page 0).store .isRoot 0) with hM
      have hMl : M.page (m.numPages + 1) = (m.page 0).store .isRoot 0 := page_set_self _ _ _
      -- the loop makes the copy their parent
      refine wp_adoptChildren (by rw [hMl]; exact hnode') (fun c hcm => ?_) ?_
      · rw [hMl, hchildren] at hcm
        have := hc c hcm
        exact ⟨by omega, this.2.2, hma.cached_alloc (by omega)⟩
      rw [hMl, hchildren]
      have hnot : ∀ q, m.numPages ≤ q → q ∉ (m.page 0).children :=
        fun q hq hqm => absurd (hc q hqm).1 (by omega)
      have hpl : (reparent (m.numPages + 1) M (m.page 0).children).page (m.numPages + 1) =
          (m.page 0).store .isRoot 0 := by
        rw [reparent_page, if_neg (hnot _ (by omega)), hMl]
      have hpn : (reparent (m.numPages + 1) M (m.page 0).children).page m.numPages =
          (m.page m.numPages).initInternal := by
        rw [reparent_page, if_neg (hnot _ le_rfl), hM, page_set_ne _ _ hne.symm, page_set_self]
      have hp0 : (reparent (m.numPages + 1) M (m.page 0).children).page 0 = m.page 0 := by
        rw [reparent_page, if_neg fun hq => (hc 0 hq).2.1 rfl, hM, page_set_ne _ _ hl0.symm,
          page_set_ne _ _ hn0.symm, page_alloc, page_alloc]
      refine wp_linkNewRoot hl0 hn0 hne (by rw [hpl]; exact hnode'.maxOk hK) (hK 0 (by omega))
        (fun hv => by rw [hp0] at hv; exact absurd hv (hnode.cell 0 hnode.pos)) ?_
      have hfin := h hTr hTl
      rw [hpl, hpn, hp0, maxKey_store_isRoot]
      -- the memory reached is the new root's, page by page
      have hset : (m.alloc.set m.numPages (m.page m.numPages).initInternal).newRoot m.numPages =
          (((reparent (m.numPages + 1) M (m.page 0).children).set (m.numPages + 1)
            (((m.page 0).store .isRoot 0).store .parent 0)).set 0
              ((m.page 0).asRoot (m.numPages + 1) (m.page 0).maxKey m.numPages)).set m.numPages
                ((m.page m.numPages).initInternal.store .parent 0) := by
        have had : (m.page 0).adopted = (m.page 0).children := if_neg (by simp [hnode.not_isLeaf])
        unfold newRoot
        simp only [numPages_set, hpages, page_set_ne _ _ hn0.symm, page_alloc, had, page_set_self]
        refine Mem.ext (funext fun q => ?_) ?_ ?_
        · simp only [page_set, Function.update_apply, reparent_page, alloc_set, page_alloc, hM]
          split_ifs <;> rfl
        · simp only [cached_set, reparent_cached, alloc_set, hM]
        · simp only [numPages_set, reparent_numPages, alloc_set, hM]
      rw [hset] at hfin
      exact hfin
    · rw [wp_getPage_of_not hTl]; exact hout (fun h => hTl h.2) _ _
  · rw [wp_getPage_of_not hTr]; exact hout (fun h => hTr h.1) _ _

/-! ## The pages of the new tree -/

section Pages

variable {right : ℕ}

theorem newRoot_cached : (m.newRoot right).cached = m.alloc.cached := by
  unfold newRoot; exact reparent_cached _ _ _

theorem newRoot_numPages : (m.newRoot right).numPages = m.alloc.numPages := by
  unfold newRoot; exact reparent_numPages _ _ _

theorem Tight.newRoot (hm : m.Tight) : (m.newRoot right).Tight := by
  intro p
  rw [newRoot_cached, newRoot_numPages]
  exact hm.alloc p

/-- The pages after `create_new_root`, page by page. -/
theorem newRoot_page {right : ℕ} (q : ℕ) (hr0 : right ≠ 0) (hrl : right ≠ m.numPages)
    (h0 : 0 < m.numPages) :
    (m.newRoot right).page q =
      if q = 0 then (m.page 0).asRoot m.numPages (m.page 0).maxKey right
      else if q = m.numPages then (m.page 0).asLeft
      else if q = right then (m.page right).store .parent 0
      else if q ∈ (m.page 0).adopted then (m.page q).store .parent m.numPages
      else m.page q := by
  unfold newRoot
  simp only [page_set, Function.update_apply, reparent_page, page_alloc]
  split_ifs <;> first | rfl | omega

end Pages

end Mem

namespace Forest

open Page Mem

variable {T : ℕ → Prop} {m : Mem} {used : ℕ} {lvl : ℕ → ℕ} {pending : Multiset ℕ}
  {stale S empty : Set ℕ} {right : ℕ}

/-- The children of the root are what `create_new_root` adopts. -/
theorem mem_adopted (h : Forest T m used lvl pending stale empty) (h0 : 0 ∉ empty) {q : ℕ} :
    q ∈ (m.page 0).adopted ↔ q ∈ (m.page 0).kids := by
  have hf := h.fits 0 h.used_pos
  unfold adopted
  by_cases hl : lvl 0 = 0
  · rw [(hf.leaf hl).1, kids_of_isLeaf (hf.leaf hl).1]; simp
  · have hn := hf.node hl h0
    rw [hn.not_isLeaf, hn.kids]; simp

/-- The levels above a new root. The page at `used` takes the place of the old one. -/
def raised (lvl : ℕ → ℕ) (used : ℕ) : ℕ → ℕ :=
  Function.update (Function.update lvl used (lvl 0)) 0 (lvl 0 + 1)

theorem raised_zero : raised lvl used 0 = lvl 0 + 1 := Function.update_self _ _ _

/-- The copy stands where the root stood. -/
theorem raised_used (h0 : 0 < used) : raised lvl used used = lvl 0 := by
  rw [raised, Function.update_of_ne h0.ne', Function.update_self]

/-- The other pages stay on their levels. -/
theorem raised_of_lt {q : ℕ} (hq : q < used) (hq0 : q ≠ 0) : raised lvl used q = lvl q := by
  rw [raised, Function.update_of_ne hq0, Function.update_of_ne hq.ne]

/-- A page that is neither a child of the root nor on its way into the tree is not right below
the root. -/
theorem level_ne_of_not_adopted (h : Forest T m used lvl (right ::ₘ pending) stale empty)
    (hlr : lvl right = lvl 0)
    (h0e : 0 ∉ empty) (hrk : (m.page right).kids = 0) (hpend : ∀ c ∈ pending, lvl c < lvl 0) {q : ℕ}
    (hq : q < used) (hq0 : q ≠ 0) (hqr : q ≠ right) (hqp : q ∉ pending)
    (hqa : q ∉ (m.page 0).adopted) :
    lvl q + 1 ≠ lvl 0 := by
  intro hql
  have hle : ∀ c ∈ right ::ₘ pending, lvl c ≤ lvl 0 := fun c hc => by
    rcases Multiset.mem_cons.1 hc with rfl | hc
    · exact hlr.le
    · exact (hpend c hc).le
  rcases h.levels.mem_all.2 ⟨Finset.mem_range.2 hq, hq0⟩ with ⟨p, hp, hc⟩ | hc
  · -- its parent would be on the level of the root, and no child of any page is
    have hpl := h.levels.below p hp q hc
    have hp0 : p ≠ 0 := by rintro rfl; exact hqa ((h.mem_adopted h0e).2 hc)
    rcases h.levels.mem_all.2 ⟨hp, hp0⟩ with ⟨p', hp', hc'⟩ | hc'
    · have hlt := h.levels.kid_lt_root hle hp' hc'
      omega
    · rcases Multiset.mem_cons.1 hc' with rfl | hc'
      · rw [hrk] at hc
        exact Multiset.notMem_zero q hc
      · have hlt := hpend p hc'
        omega
  · rcases Multiset.mem_cons.1 hc with hc | hc
    · exact hqr hc
    · exact hqp hc

/-- The new root. -/
theorem fits_newRoot {left v : ℕ} {a' : Page} (h : Forest T m used lvl pending stale empty)
    (h0e : 0 ∉ empty)
    (hfull : lvl 0 ≠ 0 → (m.page 0).numKeys = 3) (hspec : IsNewRoot (m.page 0) left v right a')
    (hl : left ≠ invalidPageNum) (hr : right ≠ invalidPageNum) :
    PageFits (used + 1) (raised lvl used) S empty 0 a' := by
  refine ⟨fun hz => ?_, fun _ => hspec.internal, fun _ _ => hspec.node hl hr,
    fun he => absurd he h0e,
    ⟨fun _ => rfl, fun _ => hspec.root⟩, fun hne => absurd rfl hne, fun _ h2 i hi => ?_⟩
  · rw [raised_zero] at hz
    omega
  · rw [raised_zero] at h2
    have hl0 : lvl 0 ≠ 0 := by
      rcases h2 with h2 | h2
      · exact absurd rfl h2
      · omega
    have hslot := congrArg Prod.fst (hspec.slot i (by omega))
    refine hslot.trans_ne ?_
    split
    · exact hl
    · exact ((h.fits 0 h.used_pos).node hl0 h0e).cell i (by rw [hfull hl0]; exact hi)

/-- The old root, at the page `used`. -/
theorem fits_asLeft (h : Forest T m used lvl pending stale empty) (h0e : 0 ∉ empty)
    (hfull : lvl 0 ≠ 0 → (m.page 0).numKeys = 3) (hempty : used ∉ empty) :
    PageFits (used + 1) (raised lvl used) S empty used (m.page 0).asLeft := by
  have hu0 := h.used_pos
  have hf0 := h.fits 0 hu0
  have hh := SameHeader.asLeft (m.page 0)
  have hlu : raised lvl used used = lvl 0 := raised_used hu0
  refine ⟨fun hl => ?_, fun hl => ?_, fun hl _ => ?_, fun he => absurd he hempty, ?_, fun _ _ => ?_,
    fun hl _ i hi => ?_⟩
  · rw [hlu] at hl
    rw [hh.isLeaf (by simp), hh.numCells (by simp)]
    exact hf0.leaf hl
  · rw [hlu] at hl
    exact (node_asLeft (hf0.node hl h0e)).internal
  · rw [hlu] at hl
    exact node_asLeft (hf0.node hl h0e)
  · rw [isRoot_asLeft]
    exact ⟨fun he => absurd he Bool.false_ne_true, fun he => absurd he hu0.ne'⟩
  · rw [parent_asLeft, raised_zero, hlu]
    exact ⟨by omega, rfl⟩
  · rw [hlu] at hl
    rw [child_of_slot (slot_asLeft (m.page 0) i)]
    exact (hf0.node hl h0e).cell i (by rw [hfull hl]; exact hi)

/-- The children of the pages: the old root has moved, and the new one has two. -/
theorem kids_newRoot (hspec : IsNewRoot (m.page 0) used (m.page 0).maxKey right
      ((m.page 0).asRoot used (m.page 0).maxKey right)) (hu : m.numPages = used) (hu0 : 0 < used)
    (hr : right ≠ 0 ∧ right ≠ used) (hl : used ≠ invalidPageNum) (hrinv : right ≠ invalidPageNum) :
    (fun q => ((m.newRoot right).page q).kids) =
      Function.update (Function.update (fun q => (m.page q).kids) used (m.page 0).kids) 0
        {used, right} := by
  funext q
  rw [newRoot_page (m := m) q hr.1 (by rw [hu]; exact hr.2) (by omega), hu]
  by_cases hq0 : q = 0
  · rw [if_pos hq0, hq0, Function.update_self, hspec.kids hl hrinv]
  · rw [if_neg hq0, Function.update_of_ne hq0]
    by_cases hqu : q = used
    · rw [if_pos hqu, hqu, Function.update_self, kids_asLeft]
    · rw [if_neg hqu, Function.update_of_ne hqu]
      by_cases hqr : q = right
      · rw [if_pos hqr, kids_store_parent, hqr]
      · rw [if_neg hqr]
        split
        · exact kids_store_parent _ _
        · rfl

/-- **The tree grows by one level.** -/
theorem newRoot (h : Forest T m used lvl (right ::ₘ pending) stale empty) (hu : m.numPages = used)
    (hT : T used) (hlt : used < filePagesNum) (hlr : lvl right = lvl 0) (h0e : 0 ∉ empty)
    (hrk : (m.page right).kids = 0) (hfull : lvl 0 ≠ 0 → (m.page 0).numKeys = 3)
    (hpend : ∀ c ∈ pending, lvl c < lvl 0)
    (hstale : ∀ q, q ≠ right → q ∉ S → q ∉ stale ∧ q ∉ pending) (hempty : used ∉ empty) :
    Forest T (m.newRoot right) (used + 1)
      (Function.update (Function.update lvl used (lvl 0)) 0 (lvl 0 + 1)) pending S empty := by
  change Forest T (m.newRoot right) (used + 1) (raised lvl used) pending S empty
  have hu0 := h.used_pos
  have hright := h.pending_lt (Multiset.mem_cons_self right pending)
  have hpage := fun q => newRoot_page (m := m) q hright.2 (by omega) (by omega)
  rw [hu] at hpage
  have hinv : used ≠ invalidPageNum := by unfold filePagesNum at hlt; unfold invalidPageNum; omega
  have hspec := asRoot_spec (m.page 0) used (m.page 0).maxKey right
    (by unfold filePagesNum at hlt; omega) (maxKey_lt _) (h.lt_two_pow hright.1)
  have hrinv := h.ne_invalid hright.1
  have hadopt : ∀ q, q ∈ (m.page 0).adopted → q < used ∧ lvl q + 1 = lvl 0 := fun q hq => by
    have hq' := (h.mem_adopted h0e).1 hq
    exact ⟨(h.kid_lt hu0 hq').1, h.kid_level hu0 hq'⟩
  refine ⟨fun p hp => ?_, ?_, fun q hq => ?_, fun p hp => ?_, hlt⟩
  · rw [hpage]
    by_cases hp0 : p = 0
    · rw [if_pos hp0, hp0]
      exact h.fits_newRoot h0e hfull hspec hinv hrinv
    rw [if_neg hp0]
    by_cases hpu : p = used
    · rw [if_pos hpu, hpu]
      exact h.fits_asLeft h0e hfull hempty
    rw [if_neg hpu]
    -- the other pages change in their parent fields at most
    have hpl : raised lvl used p = lvl p := raised_of_lt (by omega) hp0
    have hf := h.fits p (by omega)
    by_cases hpr : p = right
    · rw [if_pos hpr, ← hpr]
      refine hf.same hpl (fun h => absurd h hp0) (.store_parent _ _) fun _ _ => ?_
      rw [parent_store_parent (by omega), raised_zero, hpr, hlr]
      exact ⟨by omega, rfl⟩
    rw [if_neg hpr]
    by_cases hpa : p ∈ (m.page 0).adopted
    · rw [if_pos hpa]
      refine hf.same hpl (fun h => absurd h hp0) (.store_parent _ _) fun _ _ => ?_
      rw [parent_store_parent (by unfold filePagesNum at hlt; omega), raised_used hu0,
        (hadopt p hpa).2]
      exact ⟨by omega, rfl⟩
    · rw [if_neg hpa]
      refine hf.same hpl (fun h => absurd h hp0) ⟨.refl _ _, fun _ _ => rfl⟩ fun _ hs => ?_
      obtain ⟨hs1, hs2⟩ := hstale p hpr hs
      obtain ⟨hpar, hparl⟩ := hf.parent hp0 hs1
      have hpar0 : (m.page p).parent ≠ 0 := fun he => by
        rw [he] at hparl
        exact h.level_ne_of_not_adopted hlr h0e hrk hpend (by omega) hp0 hpr hs2 hpa hparl.symm
      rw [raised_of_lt hpar hpar0]
      exact ⟨by omega, hparl⟩
  · have hl := h.levels.newRoot (Finset.notMem_range_self (n := used)) hlr
    rw [kids_newRoot hspec hu hu0 ⟨hright.2, hright.1.ne⟩ hinv hrinv, Finset.range_add_one]
    exact hl
  · rw [hpage, if_neg (by omega), if_neg (by omega), if_neg (by omega),
      if_neg fun hq' => by have := (hadopt q hq').1; omega]
    exact h.zero q (by omega)
  · by_cases hpu : p = used
    · rw [hpu]; exact hT
    · exact h.allowed p (by omega)

end Forest

end ToySQL
