import ToySQL.Proof.Forest

/-!
# The split of an internal node

`wp_moveUpperHalf`: what moving two of the four children to the new page makes of the
old node (`LowerHalf`) and of the new one, which takes one child after the other.
-/

namespace ToySQL

open Program

namespace Page

/-- What is left of a full node `a` when its upper half has moved. -/
structure LowerHalf (a a' : Page) : Prop where
  header : a'.SameHeader a [6, 10]
  numKeys : a'.numKeys = 1
  right : a'.rightChild = a.child 1
  slot : ∀ i < 3, a'.slot i = a.slot i

end Page

namespace Mem

open Page

variable {K T : ℕ → Prop} [DecidablePred K] [DecidablePred T] {m : Mem} {F : Fault → Mem → Prop}
  {Q : Unit → Mem → Prop}

/-- The stores of the split leave the lower half in the old node. -/
theorem lowerHalf_eq (X : Page) :
    LowerHalf X ((((X.store .rightChild invalidPageNum).store .numKeys 2).store .rightChild
      (X.child 1)).store .numKeys 1) := by
  have h1 : (((X.store .rightChild invalidPageNum).store .numKeys 2).store .rightChild
      (X.child 1)).SameHeader X [6, 10] := by
    refine ((SameHeader.store_header .rightChild _).mono (by simp)).trans ?_
    refine ((SameHeader.store_header .numKeys _).mono (by simp)).trans ?_
    exact (SameHeader.store_header .rightChild _).mono (by simp)
  refine ⟨((SameHeader.store_header .numKeys _).mono (by simp)).trans h1, ?_, ?_, fun i _ => ?_⟩
  · unfold numKeys; rw [load_store_header _ .numKeys .numKeys, if_pos rfl]; rfl
  · rw [(SameHeader.store_header .numKeys _).rightChild (by simp)]
    unfold rightChild
    rw [load_store_header _ .rightChild .rightChild, if_pos rfl]
    exact Nat.mod_eq_of_lt (child_lt X 1)
  · rw [slot_store_header .numKeys, slot_store_header .rightChild, slot_store_header .numKeys,
      slot_store_header .rightChild]

/-- The memory is ready for the upper half of `x`, its last two children `c` and `r`, to move
to the empty node `new`. -/
structure Moves (K T : ℕ → Prop) (m : Mem) (x new c r : ℕ) : Prop where
  node : (m.page x).Node
  full : (m.page x).numKeys = 3
  child : (m.page x).child 2 = c
  right : (m.page x).rightChild = r
  newKeys : (m.page new).numKeys = 0
  newRight : (m.page new).rightChild = invalidPageNum
  newValid : new ≠ invalidPageNum
  nodup : [x, new, c, r].Nodup
  pages : ∀ q ∈ [new, c, r], T q ∧ m.cached q = true
  children : ∀ q ∈ [c, r], q < 2 ^ 32 ∧ MaxOk K (m.page q)

/-- The right child of `x` has moved. -/
def rightMoved (m : Mem) (x new r : ℕ) : Mem :=
  ((m.set new ((m.page new).store .rightChild r)).set r ((m.page r).store .parent new)).set x
    ((m.page x).store .rightChild invalidPageNum)

/-- The upper half of `x` has moved. -/
def moved (m : Mem) (x new : ℕ) (n' x' : Page) : Mem :=
  (((m.set (m.page x).rightChild ((m.page (m.page x).rightChild).store .parent new)).set
    ((m.page x).child 2)
    ((m.page ((m.page x).child 2)).store .parent new)).set new n').set x x'

variable {x new c r : ℕ}

/-- The pages after the move. -/
theorem moved_page {n' x' : Page} (q : ℕ) : (m.moved x new n' x').page q =
    if q = x then x' else if q = new then n'
    else if q = (m.page x).child 2 then (m.page q).store .parent new
    else if q = (m.page x).rightChild then (m.page q).store .parent new
    else m.page q := by
  unfold moved
  simp only [page_set, Function.update_apply]
  split_ifs with h1 h2 h3 h4 <;> first | rfl | (subst h3; rfl) | (subst h4; rfl)

/-- The pages after the right child has moved. -/
theorem rightMoved_page (hnodup : [x, new, c, r].Nodup) :
    (m.rightMoved x new r).page x = (m.page x).store .rightChild invalidPageNum ∧
      (m.rightMoved x new r).page new = (m.page new).store .rightChild r ∧
      (m.rightMoved x new r).page c = m.page c ∧
      (m.rightMoved x new r).page r = (m.page r).store .parent new := by
  simp only [List.nodup_cons, List.mem_cons, List.not_mem_nil, or_false, not_or] at hnodup
  obtain ⟨⟨hxn, hxc, hxr⟩, ⟨hnc, hnr⟩, hcr, -⟩ := hnodup
  unfold rightMoved
  refine ⟨page_set_self _ _ _, ?_, ?_, ?_⟩
  · rw [page_set_ne _ _ (Ne.symm hxn), page_set_ne _ _ hnr, page_set_self]
  · rw [page_set_ne _ _ (Ne.symm hxc), page_set_ne _ _ hcr, page_set_ne _ _ (Ne.symm hnc)]
  · rw [page_set_ne _ _ (Ne.symm hxr), page_set_self]

/-- The order of the writes does not matter. -/
theorem rightMoved_moved (hnodup : [x, new, c, r].Nodup) (hc : (m.page x).child 2 = c)
    (hr : (m.page x).rightChild = r) (n' x' : Page) :
    (((m.rightMoved x new r).set new n').set c ((m.page c).store .parent new)).set x x' =
      m.moved x new n' x' := by
  simp only [List.nodup_cons, List.mem_cons, List.not_mem_nil, or_false, not_or] at hnodup
  obtain ⟨⟨hxn, hxc, hxr⟩, ⟨hnc, hnr⟩, hcr, -⟩ := hnodup
  unfold rightMoved moved
  rw [hc, hr]
  refine Mem.ext (funext fun q => ?_) rfl rfl
  simp only [page_set, Function.update_apply]
  split_ifs <;> first | rfl | omega

/-- The right child, into the empty node. -/
theorem Moves.wp_right {fuel : ℕ} {f : Prog ℕ Unit} (h : Moves K T m x new c r) (hK : ∀ i < 3, K i)
    (hf : wp (handler K T) f Q F (m.rightMoved x new r)) :
    wp (handler K T) (do
      internalNodeInsert fuel new r
      store r .parent new
      store x .rightChild invalidPageNum
      f) Q F m := by
  obtain ⟨split, k, hins⟩ := internalNodeInsert_eq fuel
  have hnodup := h.nodup
  simp only [List.nodup_cons, List.mem_cons, List.not_mem_nil, or_false, not_or] at hnodup
  obtain ⟨⟨hxn, -, hxr⟩, ⟨-, hnr⟩, -⟩ := hnodup
  obtain ⟨hTn, hcn⟩ := h.pages new (by simp)
  obtain ⟨hTr, hcr⟩ := h.pages r (by simp)
  obtain ⟨hr32, hmax⟩ := h.children r (by simp)
  rw [wp_bind, hins]
  refine wp_internalNodeInsertStep_room (by rw [h.newKeys]; omega)
    (by rw [h.newRight]; exact h.newValid.symm)
    hTn hTr (fun hne => absurd h.newRight hne) hcn hcr (fun hne => absurd h.newRight hne) hmax
    (fun hne => absurd h.newRight hne) hr32 hK (fun hne => absurd h.newRight hne)
    (fun i hi => by rw [h.newKeys] at hi; omega) fun n1 hn1 _ => ?_
  rw [hn1.eq_first h.newRight]
  simp only [wp_bind, wp_store (access_header .parent), wp_store (access_header .rightChild)]
  rw [page_set_ne _ _ (Ne.symm hnr), page_set_ne _ _ hxr, page_set_ne _ _ hxn]
  exact hf

/-- The last cell, into the node that has a right child now. -/
theorem Moves.wp_cell {fuel : ℕ} (h : Moves K T m x new c r) (hK : ∀ i < 3, K i)
    (hexit : (m.page new).child 0 = invalidPageNum → ∀ e m', F (.exit e) m')
    (hQ : ∀ n', AddChild ((m.page new).store .rightChild r) c (m.page c).maxKey
      (m.page r).maxKey n' →
      (m.page new).child 0 ≠ invalidPageNum →
      Q () ((((m.rightMoved x new r).set new n').set c ((m.page c).store .parent new)).set x
        (((m.page x).store .rightChild invalidPageNum).store .numKeys 2))) :
    wp (handler K T) (moveCells (internalNodeInsert fuel) x new 2) Q F (m.rightMoved x new r) := by
  obtain ⟨split, k, hins⟩ := internalNodeInsert_eq fuel
  obtain ⟨hpx, hpn, hpc, hpr⟩ := rightMoved_page (m := m) h.nodup
  have hnodup := h.nodup
  simp only [List.nodup_cons, List.mem_cons, List.not_mem_nil, or_false, not_or] at hnodup
  obtain ⟨⟨hxn, hxc, -⟩, ⟨hnc, hnr⟩, -, -⟩ := hnodup
  obtain ⟨hTn, hcn⟩ := h.pages new (by simp)
  obtain ⟨hTc, hcc⟩ := h.pages c (by simp)
  obtain ⟨hTr, hcr⟩ := h.pages r (by simp)
  obtain ⟨hc32, hmaxc⟩ := h.children c (by simp)
  obtain ⟨hr32, hmaxr⟩ := h.children r (by simp)
  -- the two nodes between the moves
  have hxKeys : ((m.page x).store .rightChild invalidPageNum).numKeys = 3 :=
    ((SameHeader.store_header .rightChild _).numKeys (by simp)).trans h.full
  have hxChild : ((m.page x).store .rightChild invalidPageNum).child 2 = c :=
    (load_body_store_header _ .rightChild (.internalCell 2)).trans h.child
  have hnKeys : ((m.page new).store .rightChild r).numKeys = 0 :=
    ((SameHeader.store_header .rightChild _).numKeys (by simp)).trans h.newKeys
  have hnRight : ((m.page new).store .rightChild r).rightChild = r := rightChild_store hr32
  have hnChild : ((m.page new).store .rightChild r).child 0 = (m.page new).child 0 :=
    load_body_store_header _ .rightChild (.internalCell 0)
  have hcv : c ≠ invalidPageNum := by
    rw [← h.child]
    exact h.node.cell 2 (by rw [h.full]; omega)
  have hrv : r ≠ invalidPageNum := by
    rw [← h.right]
    exact h.node.right
  unfold moveCells
  simp only [Nat.reduceAdd]
  rw [if_pos (by decide), wp_bind, wp_internalNodeChild_cell (by rw [hpx, hxKeys]; omega) (by omega)
    (by rw [hpx, hxChild]; exact hcv)]
  simp only [wp_bind, wp_load (access_internalCell (show 2 < 500 by omega)), load_internalCell,
    hpx, hxChild,
    wp_getPage hTc, touch_of_cached (m := m.rightMoved x new r) hcc]
  rw [hins]
  refine wp_internalNodeInsertStep_room (by rw [hpn, hnKeys]; omega)
    (by rw [hpn, hnRight]; exact Ne.symm hnr) hTn hTc
    (fun _ => by rw [hpn, hnRight]; exact hTr) hcn hcc (fun _ => by rw [hpn, hnRight]; exact hcr)
    (by rw [hpc]; exact hmaxc)
    (fun _ => by rw [hpn, hnRight, hpr]; exact hmaxr.store_parent new) hc32 hK
    (fun _ _ hv => ?_) (fun i hi => by rw [hpn, hnKeys] at hi; omega) fun n' hn' hslot => ?_
  · rw [hpn, hnKeys, hnChild] at hv
    exact hexit hv
  · rw [hpn, hnRight, hnKeys, hnChild] at hslot
    rw [hpn, hpc, hnRight, hpr, maxKey_store_parent] at hn'
    have hfind := findChild_le ((m.page new).store .rightChild r) (m.page c).maxKey
    have hslot0 : (m.page new).child 0 ≠ invalidPageNum := hslot hrv (Or.inr (by rw [hpc]; omega))
    have hpx' : (((m.rightMoved x new r).set new n').set c ((m.page c).store .parent new)).page x =
        (m.page x).store .rightChild invalidPageNum := by
      rw [page_set_ne _ _ hxc, page_set_ne _ _ hxn, hpx]
    simp only [wp_store (access_header .parent), wp_load (access_header .numKeys),
      wp_store (access_header .numKeys), page_set_ne _ _ (Ne.symm hnc), hpc, hpx',
      load_numKeys, hxKeys]
    unfold moveCells
    rw [if_neg (by decide)]
    exact hQ n' hn' hslot0

/-- The last cell left becomes the right child. -/
theorem wp_lastChild {a : Page} (ha : m.page x = a) (h2 : a.numKeys = 2)
    (hv : a.child 1 ≠ invalidPageNum)
    (hQ : Q () (m.set x ((a.store .rightChild (a.child 1)).store .numKeys 1))) :
    wp (handler K T) (do
      let lastChild ← internalNodeChild x (u32Pred (← load x .numKeys))
      store x .rightChild (← load x lastChild)
      store x .numKeys (u32Pred (← load x .numKeys))) Q F m := by
  have hkeys : (a.store .rightChild (a.child 1)).numKeys = 2 :=
    ((SameHeader.store_header .rightChild _).numKeys (by simp)).trans h2
  simp only [wp_bind, wp_load (access_header .numKeys), ha, load_numKeys, h2]
  rw [show u32Pred 2 = 1 from rfl,
    wp_internalNodeChild_cell (by rw [ha, h2]; omega) (by omega) (by rw [ha]; exact hv),
    wp_load (access_internalCell (by omega)), load_internalCell, ha]
  simp only [wp_store (access_header .rightChild), wp_store (access_header .numKeys), ha,
    page_set_self, hkeys, set_set]
  exact hQ

/-- **The upper half moves.** -/
theorem wp_moveUpperHalf {fuel : ℕ} (h : Moves K T m x new c r) (hK : ∀ i < 3, K i)
    (hexit : (m.page new).child 0 = invalidPageNum → ∀ e m', F (.exit e) m')
    (hQ : ∀ n' x', AddChild ((m.page new).store .rightChild r) c (m.page c).maxKey
      (m.page r).maxKey n' →
      LowerHalf (m.page x) x' → (m.page new).child 0 ≠ invalidPageNum →
        Q () (m.moved x new n' x')) :
    wp (handler K T) (moveUpperHalf (internalNodeInsert fuel) x new) Q F m := by
  obtain ⟨hTr, hcr⟩ := h.pages r (by simp)
  unfold moveUpperHalf
  rw [wp_bind, wp_load (access_header .rightChild), load_rightChild, h.right, wp_bind,
    wp_getPage hTr,
    touch_of_cached hcr]
  refine h.wp_right hK ?_
  rw [wp_bind]
  refine h.wp_cell hK hexit fun n' hn' hslot => ?_
  have hkeys : (((m.page x).store .rightChild invalidPageNum).store .numKeys 2).numKeys = 2 :=
    numKeys_store (by omega)
  have hchild : (((m.page x).store .rightChild invalidPageNum).store .numKeys 2).child 1 =
      (m.page x).child 1 :=
    (load_body_store_header _ .numKeys (.internalCell 1)).trans
      (load_body_store_header _ .rightChild (.internalCell 1))
  refine wp_lastChild (page_set_self _ _ _) hkeys
    (by rw [hchild]; exact h.node.cell 1 (by rw [h.full]; omega)) ?_
  rw [set_set, hchild, rightMoved_moved h.nodup h.child h.right]
  exact hQ n' _ hn' (lowerHalf_eq (m.page x)) hslot

end Mem

namespace Page

variable {a a' : Page}

theorem Node.kids_full (h : a.Node) (h3 : a.numKeys = 3) :
    a.kids = {a.child 0, a.child 1, a.child 2, a.rightChild} := by
  rw [h.kids]; unfold children; rw [h3]; rfl

/-- The empty node `a` with two children. -/
theorem AddChild.pair {r c cmax rmax : ℕ} (h : AddChild (a.store .rightChild r) c cmax rmax a')
    (hint : a.isInternal = true) (hk : a.numKeys = 0) (hr : a.rightChild = invalidPageNum)
    (hs : a.SlotsOk)
    (hrv : r ≠ invalidPageNum) (hr32 : r < 2 ^ 32) (hcv : c ≠ invalidPageNum) (hc32 : c < 2 ^ 32) :
    a'.Node ∧ a'.kids = c ::ₘ r ::ₘ 0 ∧ a'.SlotsOk ∧ a'.SameHeader a [6, 10] ∧ a'.numKeys = 1 := by
  have hfirst : AddChild a r 0 0 (a.store .rightChild r) := .first hr
  have hleaf := not_isLeaf_of_isInternal hint
  have hk0 : a.kids = 0 := by
    rw [kids_of_not_isLeaf hleaf]
    unfold children
    rw [hk, hr]
    rfl
  have hk1 := hfirst.kids hleaf (by omega) hrv hr32
  rw [hk0] at hk1
  have h1Keys : (a.store .rightChild r).numKeys = 0 :=
    ((SameHeader.store_header .rightChild r).numKeys (by simp)).trans hk
  have h1Right : (a.store .rightChild r).rightChild = r := rightChild_store hr32
  have h1Node : (a.store .rightChild r).isInternal = true := by
    unfold isInternal at hint ⊢
    rw [hfirst.header.type (by simp)]
    exact hint
  have hk2 := h.kids (hfirst.isLeaf.trans hleaf) (by omega) hcv hc32
  rw [hk1] at hk2
  have hnode := h.node h1Node (by omega) hcv hc32 (fun i hi => by omega) fun hv =>
    absurd (h1Right.symm.trans hv) hrv
  have hkeys : a'.numKeys = 1 := by rw [h.numKeys (by rw [h1Right]; exact hrv), h1Keys]
  exact ⟨hnode, hk2, h.slotsOk hcv (hfirst.slotsOk hrv hs), h.header.trans hfirst.header, hkeys⟩

theorem LowerHalf.node (h : LowerHalf a a') (ha : a.Node) (h3 : a.numKeys = 3) : a'.Node where
  internal := by
    have := ha.internal
    unfold isInternal at this ⊢
    rw [h.header.type (by simp)]
    exact this
  pos := by rw [h.numKeys]
  le := by rw [h.numKeys]; omega
  right := by rw [h.right]; exact ha.cell 1 (by omega)
  cell := fun i hi => by
    rw [h.numKeys] at hi
    rw [child_of_slot (h.slot i (by omega))]
    exact ha.cell i (by omega)

theorem LowerHalf.kids (h : LowerHalf a a') (ha : a.Node) (h3 : a.numKeys = 3) :
    a'.kids = {a.child 0, a.child 1} := by
  rw [(h.node ha h3).kids]
  unfold children
  rw [h.numKeys, h.right]
  show (([a'.child 0, a.child 1] : List ℕ) : Multiset ℕ) = _
  rw [child_of_slot (h.slot 0 (by omega))]
  rfl

end Page

namespace Forest

open Page Mem

variable {K T : ℕ → Prop} [DecidablePred K] [DecidablePred T] {m : Mem} {F : Fault → Mem → Prop}
  {Q : Unit → Mem → Prop} {used : ℕ} {lvl : ℕ → ℕ} {pending : Multiset ℕ} {stale : Set ℕ}

/-- The leaves of two states are the same up to their parent fields. -/
def KeepsLeaves (lvl : ℕ → ℕ) (used : ℕ) (m m' : Mem) : Prop :=
  ∀ q < used, lvl q = 0 → (m'.page q).erase = (m.page q).erase

variable {m' m'' : Mem}

theorem KeepsLeaves.trans (h : KeepsLeaves lvl used m m') (h' : KeepsLeaves lvl used m' m'') :
    KeepsLeaves lvl used m m'' := fun q hq hl => (h' q hq hl).trans (h q hq hl)

/-- An internal node replaced. -/
theorem KeepsLeaves.set {p : ℕ} (hp : lvl p ≠ 0) (a : Page) :
    KeepsLeaves lvl used m (m.set p a) := by
  intro q _ hl
  have hqp : q ≠ p := by rintro rfl; exact hp hl
  rw [page_set_ne _ _ hqp]

/-- Writing a parent field keeps the leaves. -/
theorem KeepsLeaves.store_parent (p v : ℕ) :
    KeepsLeaves lvl used m (m.set p ((m.page p).store .parent v)) := by
  intro q _ _
  by_cases hqp : q = p
  · rw [hqp, page_set_self, erase_store_parent]
  · rw [page_set_ne _ _ hqp]

section

omit [DecidablePred K] [DecidablePred T]

variable {x new : ℕ} {n' x' : Page}

/-- The pages of the split of a full node are pairwise different, and its last two children are
pages of the level below. -/
theorem upper_spec (h : Forest T m used lvl pending stale {new}) (hx : x < used) (hxn : x ≠ new)
    (hlx : lvl x = lvl new) (hl : lvl x ≠ 0) (h3 : (m.page x).numKeys = 3) :
    [x, new, (m.page x).child 2, (m.page x).rightChild].Nodup ∧
      ∀ q ∈ [(m.page x).child 2, (m.page x).rightChild], q < used ∧ lvl q + 1 = lvl x := by
  have hnode := (h.fits x hx).node hl hxn
  have hlower : ∀ q ∈ [(m.page x).child 2, (m.page x).rightChild], q < used ∧
      lvl q + 1 = lvl x := by
    simp only [List.forall_mem_cons]
    have hc := hnode.child_mem (i := 2) (by omega)
    have hr := hnode.right_mem
    exact ⟨⟨(h.kid_lt hx hc).1, h.kid_level hx hc⟩,
      ⟨(h.kid_lt hx hr).1, h.kid_level hx hr⟩, by simp⟩
  -- a node is on another level than its children
  have hne : ∀ q ∈ [(m.page x).child 2, (m.page x).rightChild], x ≠ q ∧ new ≠ q := by
    intro q hq
    obtain ⟨-, hql⟩ := hlower q hq
    constructor
    · rintro rfl
      omega
    · rintro rfl
      omega
  have hnodup := h.levels.nodup_kids (Finset.mem_range.2 hx)
  rw [hnode.kids_full h3] at hnodup
  have hcr : (m.page x).child 2 ≠ (m.page x).rightChild := by
    intro he
    rw [he] at hnodup
    simp at hnodup
  simp only [List.forall_mem_cons] at hne
  obtain ⟨⟨hxc, hnc⟩, ⟨hxr, hnr⟩, -⟩ := hne
  exact ⟨by simp [hxn, hxc, hxr, hnc, hnr, hcr], hlower⟩

/-- A full node and the page allocated for its upper half are ready for the move. -/
theorem moves (h : Forest T m used lvl pending stale {new})
    (hcached : ∀ p < used, m.cached p = true) (hx : x < used)
    (hn : new < used) (hxn : x ≠ new) (hlx : lvl x = lvl new) (hl : lvl x ≠ 0)
    (h3 : (m.page x).numKeys = 3)
    (hK : ∀ i < 3, K i) : Moves K T m x new ((m.page x).child 2) (m.page x).rightChild := by
  obtain ⟨hnodup, hlower⟩ := h.upper_spec hx hxn hlx hl h3
  obtain ⟨hnKeys, hnRight⟩ := (h.fits new hn).empty rfl
  refine ⟨(h.fits x hx).node hl hxn, h3, rfl, rfl, hnKeys, hnRight, h.ne_invalid hn, hnodup,
    fun q hq => ?_,
    fun q hq => ?_⟩
  · have hlt : q < used := by
      rcases List.mem_cons.1 hq with rfl | hq
      · exact hn
      · exact (hlower q hq).1
    exact ⟨h.allowed _ hlt, hcached _ hlt⟩
  · have hqn : q ≠ new := by
      rintro rfl
      exact (List.nodup_cons.1 (List.nodup_cons.1 hnodup).2).1 hq
    exact ⟨h.lt_two_pow (hlower q hq).1, h.maxOk hK (hlower q hq).1 hqn⟩

/-- One page after the other: the parents of the two children, what is left of `x`, and the new
node with its two children. -/
theorem moved (h : Forest T m used lvl pending stale {new}) (hx : x < used) (hn : new < used)
    (hxn : x ≠ new)
    (hn0 : new ≠ 0) (hlx : lvl x = lvl new) (hl : lvl x ≠ 0) (h3 : (m.page x).numKeys = 3)
    (hn' : AddChild ((m.page new).store .rightChild (m.page x).rightChild) ((m.page x).child 2)
      (m.page ((m.page x).child 2)).maxKey (m.page (m.page x).rightChild).maxKey n')
    (hx' : LowerHalf (m.page x) x') :
    Forest T (m.moved x new n' x') used lvl pending stale ∅ ∧ n'.numKeys = 1 := by
  have hfx := h.fits x hx
  have hfn := h.fits new hn
  have hnode := hfx.node hl hxn
  obtain ⟨hnKeys, hnRight⟩ := hfn.empty rfl
  have hnInt := hfn.internal (by rw [← hlx]; exact hl)
  have hnSlots := hfn.slots (by rw [← hlx]; exact hl) (Or.inl hn0)
  have hkx := hnode.kids_full h3
  obtain ⟨hnodup, hlower⟩ := h.upper_spec hx hxn hlx hl h3
  unfold Mem.moved
  obtain ⟨r, hr⟩ : ∃ r, (m.page x).rightChild = r := ⟨_, rfl⟩
  obtain ⟨c, hc⟩ : ∃ c, (m.page x).child 2 = c := ⟨_, rfl⟩
  rw [hr, hc] at hn' hnodup hlower hkx ⊢
  simp only [List.nodup_cons, List.mem_cons, List.not_mem_nil, or_false, not_or] at hnodup
  obtain ⟨⟨-, hxc, hxr⟩, ⟨hnc, hnr⟩, hcr, -⟩ := hnodup
  simp only [List.forall_mem_cons] at hlower
  obtain ⟨⟨hcu, hcl⟩, ⟨hru, hrl⟩, -⟩ := hlower
  have hk0 : (m.page new).kids = 0 := by
    rw [kids_of_not_isLeaf (not_isLeaf_of_isInternal hnInt)]
    unfold children
    rw [hnKeys, hnRight]
    rfl
  obtain ⟨hnode2, hk2, hslots, hheader, hkeys⟩ :=
    hn'.pair hnInt hnKeys hnRight hnSlots (h.ne_invalid hru)
    (h.lt_two_pow hru) (h.ne_invalid hcu) (h.lt_two_pow hcu)
  refine ⟨?_, hkeys⟩
  -- the four pages are written one by one, each write keeping the forest
  have hA := h.store_parent (S := stale) hru hn (by omega) fun _ _ => id
  have hAc : (m.set r ((m.page r).store .parent new)).page c = m.page c := page_set_ne _ _ hcr
  have hB := hA.store_parent (S := stale) (p := c) hcu hn (by omega) fun _ _ => id
  rw [hAc] at hB
  have hBx : ((m.set r ((m.page r).store .parent new)).set c ((m.page c).store .parent new)).page
      x = m.page x := by
    rw [page_set_ne _ _ hxc, page_set_ne _ _ hxr]
  have hBn : ((m.set r ((m.page r).store .parent new)).set c ((m.page c).store .parent new)).page
      new = m.page new := by
    rw [page_set_ne _ _ hnc, page_set_ne _ _ hnr]
  have hxk := hx'.kids hnode h3
  have hle2 : ({(m.page x).child 0, (m.page x).child 1} : Multiset ℕ) ≤
      {(m.page x).child 0, (m.page x).child 1, c, r} :=
    Multiset.le_iff_exists_add.2 ⟨{c, r}, rfl⟩
  have hC := hB.set (a := x') (P := {c, r} + pending) (S := stale) (E := {new}) hx
    (by rw [hBx, hkx, hxk, ← add_assoc]; rfl)
    (fun d hd => h.kid_level hx (by rw [hkx]; rw [hxk] at hd; exact Multiset.mem_of_le hle2 hd))
    ⟨fun h0 => absurd h0 hl, fun _ => (hx'.node hnode h3).internal, fun _ _ => hx'.node hnode h3,
      fun he => absurd he hxn, by rw [hx'.header.isRoot (by simp)]; exact hfx.root,
      by rw [hx'.header.parent (by simp)]; exact hfx.parent,
      fun h0 h2 i hi => by rw [child_of_slot (hx'.slot i hi)]; exact hfx.slots h0 h2 i hi⟩
    (fun _ _ => id) fun _ _ => Iff.rfl
  have hCn : (((m.set r ((m.page r).store .parent new)).set c
      ((m.page c).store .parent new)).set x x').page new = m.page new := by
    rw [page_set_ne _ _ hxn.symm, hBn]
  have hD := hC.set (a := n') (P := pending) (S := stale) (E := ∅) hn
    (by rw [hCn, hk0, hk2, zero_add]; rfl)
    (fun d hd => by
      rw [hk2] at hd
      rcases Multiset.mem_cons.1 hd with rfl | hd
      · omega
      · rw [Multiset.mem_cons.1 hd |>.resolve_right (Multiset.notMem_zero d)]; omega)
    ⟨fun h0 => absurd (hlx.trans h0) hl, fun _ => hnode2.internal, fun _ _ => hnode2,
      fun he => absurd he (Set.notMem_empty _), by rw [hheader.isRoot (by simp)]; exact hfn.root,
      by rw [hheader.parent (by simp)]; exact hfn.parent, fun _ _ => hslots⟩
    (fun _ _ => id) fun q hq => by simp [hq]
  rw [set_comm _ _ _ hxn.symm]
  exact hD

theorem keepsLeaves_moved (hlx : lvl x = lvl new) (hl : lvl x ≠ 0) :
    KeepsLeaves lvl used m (m.moved x new n' x') := by
  intro q _ hq0
  have hqx : q ≠ x := by
    rintro rfl
    exact hl hq0
  have hqn : q ≠ new := by
    rintro rfl
    exact hl (hlx.trans hq0)
  rw [moved_page, if_neg hqx, if_neg hqn]
  split_ifs
  · exact erase_store_parent _ _
  · exact erase_store_parent _ _
  · rfl

end

/-- **The upper half of a full node moves to the empty one.** -/
theorem wp_moveUpperHalf {fuel x new : ℕ} (h : Forest T m used lvl pending stale {new})
    (hcached : ∀ p < used, m.cached p = true) (hx : x < used) (hn : new < used) (hxn : x ≠ new)
    (hn0 : new ≠ 0) (hlx : lvl x = lvl new) (hl : lvl x ≠ 0) (h3 : (m.page x).numKeys = 3)
    (hK : ∀ i < 3, K i)
    (hQ : ∀ m', Forest T m' used lvl pending stale ∅ → (m'.page x).numKeys = 1 →
      (m'.page new).numKeys = 1 → m'.cached = m.cached → m'.numPages = m.numPages →
      KeepsLeaves lvl used m m' → Q () m') :
    wp (handler K T) (moveUpperHalf (internalNodeInsert fuel) x new) Q F m := by
  have hnSlots := (h.fits new hn).slots (by rw [← hlx]; exact hl) (Or.inl hn0)
  refine Mem.wp_moveUpperHalf (h.moves hcached hx hn hxn hlx hl h3 hK) hK
    (fun hv => absurd hv (hnSlots 0 (by omega))) fun n' x' hn' hx' _ => ?_
  obtain ⟨hforest, hkeys⟩ := h.moved hx hn hxn hn0 hlx hl h3 hn' hx'
  refine hQ _ hforest ?_ ?_ rfl rfl (keepsLeaves_moved hlx hl)
  · rw [moved_page, if_pos rfl, hx'.numKeys]
  · rw [moved_page, if_neg hxn.symm, if_pos rfl, hkeys]

/-- **The two halves.** The child that was to be inserted is hung below one of them. The
separator is written at a key instead of an index: past the page, which is a fault, or
somewhere in the page of the parent. -/
theorem wp_splitHalves {fuel k x new g c oldMax childMax : ℕ} {S : Set ℕ}
    (h : Forest T m used lvl (c ::ₘ pending) stale {new})
    (hcached : ∀ p < used, m.cached p = true) (hx : x < used) (hn : new < used) (hxn : x ≠ new)
    (hx0 : x ≠ 0) (hn0 : new ≠ 0) (hlx : lvl x = lvl new) (hl : lvl x ≠ 0)
    (h3 : (m.page x).numKeys = 3) (hg : g < used) (hgl : lvl g ≠ 0) (hcl : lvl c + 1 = lvl x)
    (hstale : ∀ q, q ≠ c → q ∉ S → q ∉ stale) (hK : ∀ i < 3, K i)
    (hF : ∀ m', F .outOfPage m')
    (hQ : ∀ m', Forest T m' used lvl pending S ∅ → m'.cached = m.cached →
      m'.numPages = m.numPages → KeepsLeaves lvl used m m' → Q () m') :
    wp (handler K T) (splitHalves (internalNodeInsert fuel) k x g c x new c oldMax childMax) Q
      F m := by
  obtain ⟨split, k', hins⟩ := internalNodeInsert_eq fuel
  unfold splitHalves
  rw [wp_bind]
  refine h.wp_moveUpperHalf hcached hx hn hxn hn0 hlx hl h3 hK ?_
  intro m1 h1 hx1 hn1 hcache1 hpages1 hkeep1
  have hc := h1.pending_lt (Multiset.mem_cons_self c pending)
  rw [wp_bind, wp_getNodeMaxKey _ (h1.maxOk hK hx (Set.notMem_empty x)), wp_bind, hins]
  obtain ⟨d, hd⟩ : ∃ d, (if childMax < (m1.page x).maxKey then x else new) = d := ⟨_, rfl⟩
  rw [hd]
  -- the child goes to one of the halves
  have hdx : d = x ∨ d = new := by
    rw [← hd]; split
    · exact Or.inl rfl
    · exact Or.inr rfl
  have hdu : d < used ∧ d ≠ 0 ∧ lvl d = lvl x ∧ (m1.page d).numKeys = 1 := by
    rcases hdx with rfl | rfl
    · exact ⟨hx, hx0, rfl, hx1⟩
    · exact ⟨hn, hn0, hlx.symm, hn1⟩
  obtain ⟨hdu, hd0, hdl, hdk⟩ := hdu
  refine h1.wp_insert_room (fun q hq => by rw [hcache1]; exact hcached q hq) hdu (by omega)
    (by omega) hK
    (fun h0 => absurd h0 hd0) fun a' ha' _ => ?_
  have h2 := h1.addChild hdu (Set.notMem_empty d) (by omega) (by omega) ha'
  have h3' := h2.store_parent (S := S) hc.1 hdu (by omega) hstale
  simp only [wp_bind, wp_store (access_header .parent),
    wp_getNodeMaxKey _ (h3'.maxOk hK hx (Set.notMem_empty x))]
  unfold updateInternalNodeKey
  set m3 := (m1.set d a').set c (((m1.set d a').page c).store .parent d) with hm3
  have hkeep3 : KeepsLeaves lvl used m m3 :=
    (hkeep1.trans (.set (by omega) a')).trans (.store_parent c d)
  by_cases hacc : Access K (m3.page g) (.internalKey oldMax)
  · rw [wp_store hacc]
    refine hQ _ (h3'.same hg (.store_key _ _ _) ?_ fun _ _ => id) hcache1 hpages1
      (hkeep3.trans (.set hgl _))
    intro hg0 hgs
    have := (h3'.fits g hg).parent hg0 hgs
    rwa [(SameHeader.store_body (.internalKey oldMax) _).parent (by simp)]
  · rw [wp_store_of_not hacc]
    exact hF _

end Forest

end ToySQL
