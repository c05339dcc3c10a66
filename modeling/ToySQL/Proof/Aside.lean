import ToySQL.Proof.Forest
import ToySQL.Proof.Recount

/-!
# A leaf that is left alone

The insertion into the internal nodes writes to nodes it gets by parent pointers and by the
counter, and parent pointers into any page. As long as no parent pointer names a leaf, the
leaf keeps its cells, however the insertion ends.

* `Aside`: the invariant. `Keeps` composes along the code.
* `Keeps.createNewRoot`, `Keeps.internalNodeInsert`: the code of the internal nodes.
-/

namespace ToySQL

open Program Mem Page

/-- The page `p` has half the cells of a full leaf, and no page of the file has it for a parent. -/
structure Aside (p : ℕ) (m : Mem) : Prop where
  ne_root : p ≠ rootPageNum
  lt : p < m.numPages
  numCells : (m.page p).numCells = leafNodeLeftSplitCount
  parent : ∀ q < filePagesNum, (m.page q).parent ≠ p

/-- What leaves the pages as they are. -/
def Reading {P : Type} : PagerOp P → Prop
  | .getPage _ => True
  | .getUnusedPage => True
  | .load _ _ => True
  | _ => False

section

variable {K T : ℕ → Prop} [DecidablePred K] [DecidablePred T] {m : Mem} {p q n v : ℕ} {l : Loc}
    {α : Type}
  {Q : α → Mem → Prop} {F : Fault → Mem → Prop}

/-- Code that only reads keeps what getting a page keeps, whether it ends or faults. -/
theorem Mem.wp_reading {f : Prog ℕ α} (hf : Only Reading f) {J : Mem → Prop}
    (htouch : ∀ n m, J m → J (m.touch n)) (h : J m)
    (hQ : ∀ a m', J m' → Q a m') (hF : ∀ e m', J m' → F e m') : wp (handler K T) f Q F m := by
  refine hf.wp (fun o m ho hm => ?_) hQ hF h
  cases o with
  | getPage n =>
    show J (if T n then _ else _ : Except Fault ℕ × Mem).2
    split
    · exact htouch n m hm
    · exact hm
  | getUnusedPage => exact hm
  | load q l =>
    show J (if _ then _ else _ : Except Fault ℕ × Mem).2
    split <;> exact hm
  | store q l v => exact ho.elim
  | memcpy dst dl src sl n => exact ho.elim
  | fill dst dl n b => exact ho.elim

namespace Aside

/-- Getting a page changes none of the contents. -/
theorem touch (h : Aside p m) (n : ℕ) : Aside p (m.touch n) := by
  refine ⟨h.ne_root, ?_, by rw [page_touch]; exact h.numCells, by rw [page_touch]; exact h.parent⟩
  have hlt := h.lt
  unfold Mem.touch
  split
  · exact hlt
  · simp only
    split <;> omega

/-- A page may be replaced if its cells stay, for the leaf, and its parent is not the leaf. -/
theorem set (h : Aside p m) {a : Page} (hn : q = p → a.numCells = leafNodeLeftSplitCount)
    (ha : q < filePagesNum → a.parent ≠ p) : Aside p (m.set q a) := by
  refine ⟨h.ne_root, h.lt, ?_, fun r hr => ?_⟩
  · rw [page_set, Function.update_apply]
    split
    · rename_i hq
      exact hn hq.symm
    · exact h.numCells
  · rw [page_set, Function.update_apply]
    split
    · rename_i hq
      exact ha (hq ▸ hr)
    · exact h.parent r hr

/-- A field other than the parent, of another page. -/
theorem store (h : Aside p m) (hq : q ≠ p) (hl : l.Header ∨ l.Body) (hne : l ≠ .parent) (v : ℕ) :
    Aside p (m.set q ((m.page q).store l v)) := by
  refine h.set (fun heq => absurd heq hq) fun hlt => ?_
  have hsame : ((m.page q).store l v).load .parent = (m.page q).load .parent := by
    rcases hl with hl | hl
    · rw [load_store_header _ hl .parent, if_neg]
      intro ho
      cases hl <;> simp at ho hne
    · exact load_header_store_body _ hl .parent
  unfold Page.parent
  rw [hsame]
  exact h.parent q hlt

/-- The parent of any page. -/
theorem storeParent (h : Aside p m) (hv : v ≠ p) (hlt : v < 2 ^ 32) (q : ℕ) :
    Aside p (m.set q ((m.page q).store .parent v)) := by
  refine h.set (fun heq => ?_) fun _ => ?_
  · unfold Page.numCells
    rw [load_store_header _ .parent .numCells, if_neg (by decide), heq]
    exact h.numCells
  · unfold Page.parent
    rw [load_store_header _ .parent .parent, if_pos rfl]
    exact (Nat.mod_eq_of_lt hlt).trans_ne hv

end Aside

/-! ## Code that keeps it aside -/

/-- However the code ends, the leaf is left alone; at its end `J` holds. -/
def Keeps (K T : ℕ → Prop) [DecidablePred K] [DecidablePred T] (p : ℕ) (J : Mem → Prop)
    (f : Prog ℕ Unit) : Prop :=
  ∀ m, Aside p m → wp (handler K T) f (fun _ => J) (fun _ => Aside p) m

namespace Keeps

variable {J : Mem → Prop} {f : Prog ℕ Unit} {g : ℕ → Prog ℕ Unit}

theorem ret : Keeps K T p (Aside p) (return ()) := fun _ h => h

theorem mono {J' : Mem → Prop} (hf : Keeps K T p J f) (hJ : ∀ m, J m → J' m) : Keeps K T p J' f :=
  fun m h => wp_mono (hf m h) (fun _ => hJ) fun _ _ => id

theorem fault (e : Fault) : Keeps K T p J (fault e) := fun _ h => h

theorem ite {c : Prop} [Decidable c] {f' : Prog ℕ Unit} (hf : Keeps K T p J f)
    (hf' : Keeps K T p J f') :
    Keeps K T p J (if c then f else f') := by
  split
  · exact hf
  · exact hf'

theorem seq {f' : Unit → Prog ℕ Unit} (hf : Keeps K T p (Aside p) f) (hf' : Keeps K T p J (f' ())) :
    Keeps K T p J (f >>= f') := by
  intro m h
  rw [wp_bind]
  exact wp_mono (hf m h) (fun _ => hf') fun _ _ => id

/-- Code that only reads, and then any other. -/
theorem reading {f : Prog ℕ α} {g : α → Prog ℕ Unit} (hf : Only Reading f)
    (hg : ∀ a, Keeps K T p J (g a)) :
    Keeps K T p J (f >>= g) := by
  intro m h
  rw [wp_bind]
  exact wp_reading (J := Aside p) hf (fun n _ hm => hm.touch n) h (fun a m' => hg a m')
    fun _ _ => id

/-- Getting a page gives its number back. -/
theorem getPage (hg : T n → Keeps K T p J (g n)) : Keeps K T p J (ToySQL.getPage n >>= g) := by
  intro m h
  rw [wp_bind]
  by_cases hn : T n
  · rw [wp_getPage hn]
    exact hg hn _ (h.touch n)
  · rw [wp_getPage_of_not hn]
    exact h

/-- The unused page is another one. -/
theorem getUnusedPage (hg : ∀ n, n ≠ p → Keeps K T p J (g n)) :
    Keeps K T p J (ToySQL.getUnusedPage >>= g) := by
  intro m h
  rw [wp_bind, wp_getUnusedPage]
  exact hg _ h.lt.ne' m h

/-- So is every parent. -/
theorem loadParent (hq : q < filePagesNum) (hg : ∀ v, v ≠ p → v < 2 ^ 32 → Keeps K T p J (g v)) :
    Keeps K T p J (load q .parent >>= g) := by
  intro m h
  rw [wp_bind, wp_load (access_header .parent)]
  exact hg _ (h.parent q hq) (load_lt _) m h

/-- A write to another page, to any field but the parent. -/
theorem store (hq : q ≠ p) (hl : l.Header ∨ l.Body) (hne : l ≠ .parent) (v : ℕ) :
    Keeps K T p (Aside p) (ToySQL.store q l v) := by
  intro m h
  by_cases ha : Access K (m.page q) l
  · rw [wp_store ha]
    exact h.store hq hl hne v
  · rw [wp_store_of_not ha]
    exact h

/-- A parent pointer that does not name the leaf, to any page. -/
theorem storeParent (hv : v ≠ p) (hlt : v < 2 ^ 32) (q : ℕ) :
    Keeps K T p (Aside p) (ToySQL.store q .parent v) := by
  intro m h
  rw [wp_store (access_header .parent)]
  exact h.storeParent hv hlt q

end Keeps

/-! ## Reading code -/

/-- `get_node_max_key` only reads, however deep it goes. -/
theorem reading_getNodeMaxKey {P : Type} (fuel : ℕ) (a : P) :
    Only Reading (getNodeMaxKey fuel a) := by
  have hstep : ∀ (next : P → Prog P ℕ) (a : P), (∀ b, Only Reading (next b)) →
      Only Reading (getNodeMaxKeyStep next a) := by
    intro next a hnext
    refine Only.bind ⟨trivial, fun _ => trivial⟩ fun _ => Only.ite ?_ ?_
    · exact Only.bind ⟨trivial, fun _ => trivial⟩ fun _ =>
        Only.ite trivial ⟨trivial, fun _ => trivial⟩
    · refine Only.bind ⟨trivial, fun _ => trivial⟩ fun _ => Only.ite ?_ ⟨trivial, fun _ => trivial⟩
      exact ⟨trivial, fun _ => ⟨trivial, fun b => hnext b⟩⟩
  induction fuel generalizing a with
  | zero => exact hstep _ a fun _ => trivial
  | succ fuel ih => exact hstep _ a ih

/-- `internal_node_find_child` only reads. -/
theorem reading_internalNodeFindChild {P : Type} (node : P) (key : ℕ) :
    Only Reading (internalNodeFindChild node key) := by
  have hloop :
      ∀ rounds lo hi ans, Only Reading (internalNodeFindChildLoop node key rounds lo hi ans) := by
    intro rounds
    induction rounds with
    | zero => exact fun _ _ _ => trivial
    | succ rounds ih =>
      intro lo hi ans
      unfold internalNodeFindChildLoop
      exact Only.ite ⟨trivial, fun _ => Only.ite (Only.ite trivial (ih _ _ _)) (ih _ _ _)⟩ trivial
  exact ⟨trivial, fun _ => Only.ite (hloop _ _ _ _) trivial⟩

theorem reading_load {P : Type} (a : P) (l : Loc) : Only Reading (load a l) :=
  ⟨trivial, fun _ => trivial⟩

theorem reading_getNodeType {P : Type} (a : P) : Only Reading (getNodeType a) :=
  ⟨trivial, fun _ => trivial⟩

/-- A location that `internal_node_child` returns is that of a child. -/
theorem Keeps.internalNodeChild {J : Mem → Prop} {i : ℕ} {g : Loc → Prog ℕ Unit}
    (hg : ∀ l, l.Header ∨ l.Body → l ≠ .parent → Keeps K T p J (g l)) :
    Keeps K T p J (internalNodeChild q i >>= g) := by
  unfold ToySQL.internalNodeChild
  rw [bind_assoc]
  refine Keeps.reading (reading_load q _) fun n => ?_
  rw [ite_bind, ite_bind]
  refine .ite (.fault _) (.ite ?_ ?_)
  · rw [bind_assoc]
    refine Keeps.reading (reading_load q _) fun right => ?_
    rw [ite_bind]
    exact .ite (.fault _) (hg .rightChild (Or.inl .rightChild) (by decide))
  · rw [bind_assoc]
    refine Keeps.reading (reading_load q _) fun child => ?_
    rw [ite_bind]
    exact .ite (.fault _) (hg (.internalCell i) (Or.inr (.internalCell i)) (by simp))

/-! ## Insertion into internal nodes -/

namespace Keeps

variable {x y : ℕ} {insert split : ℕ → ℕ → Prog ℕ Unit}

/-- The loop that moves cells right writes to the node alone. -/
theorem shiftInternalCells (hx : x ≠ p) (index n : ℕ) :
    Keeps K T p (Aside p) (shiftInternalCells x index n) := by
  induction n with
  | zero => exact .ret
  | succ i ih =>
    unfold ToySQL.shiftInternalCells
    refine .ite (.seq (fun m h => ?_) ih) .ret
    by_cases ha : (Loc.internalCell (i + 1)).offset + internalNodeCellSize ≤ pageSize ∧
        (Loc.internalCell i).offset + internalNodeCellSize ≤ pageSize
    · rw [wp_memcpy ha]
      refine h.set (fun heq => absurd heq hx) fun hlt => ?_
      have hparent := h.parent x hlt
      unfold Page.parent Page.load at hparent ⊢
      have hoff : 14 ≤ (Loc.internalCell (i + 1)).offset :=
        (Loc.Body.internalCell (i + 1)).le_offset
      rw [Bytes.slice_splice_disjoint _ _ (Or.inl (le_trans (by decide) hoff))]
      exact hparent
    · unfold memcpy
      rw [wp_perform]
      simp only [handler, if_neg ha]
      exact h

/-- `internal_node_insert` writes to the node, and to the pages the split writes to. -/
theorem internalNodeInsertStep {fuel : ℕ} (hx : x ≠ p)
    (hsplit : Keeps K T p (Aside p) (split x y)) :
    Keeps K T p (Aside p) (internalNodeInsertStep split fuel x y) := by
  unfold ToySQL.internalNodeInsertStep
  refine .getPage fun _ => .getPage fun _ =>
    .reading (reading_getNodeMaxKey fuel y) fun childMaxKey => ?_
  refine .reading (reading_internalNodeFindChild x childMaxKey) fun index =>
    .reading (reading_load x _) fun n => ?_
  refine .ite hsplit (.reading (reading_load x _) fun right => .ite ?_ (.getPage fun _ => ?_))
  · exact .store hx (Or.inl .rightChild) (by decide) y
  refine .seq (.store hx (Or.inl .numKeys) (by decide) _)
    (.reading (reading_getNodeMaxKey fuel right) fun rightMax => .ite ?_ ?_)
  · -- behind the right child
    refine .internalNodeChild fun l hl hne => .seq (.store hx hl hne _) ?_
    refine .reading (reading_getNodeMaxKey fuel right) fun _ =>
      .seq (.store hx (Or.inr (.internalKey n)) (by simp) _) ?_
    exact .store hx (Or.inl .rightChild) (by decide) y
  · refine .seq (shiftInternalCells hx index n)
      (.internalNodeChild fun l hl hne => .seq (.store hx hl hne _) ?_)
    exact .store hx (Or.inr (.internalKey index)) (by simp) _

theorem initializeInternalNode (hx : x ≠ p) : Keeps K T p (Aside p) (initializeInternalNode x) :=
  .seq (.store hx (Or.inl .nodeType) (by decide) _) (.seq (.store hx (Or.inl .isRoot) (by decide) _)
    (.seq (.store hx (Or.inl .numKeys) (by decide) _)
      (.store hx (Or.inl .rightChild) (by decide) _)))

/-! ### The split of a node -/

variable (hinsert : ∀ x y, x ≠ p → Keeps K T p (Aside p) (insert x y)) {old new : ℕ}

include hinsert

/-- Moving children to the new node: their parent pointers name the new node. -/
theorem moveCells (hold : old ≠ p) (hnew : new ≠ p) (hlt : new < 2 ^ 32) (n : ℕ) :
    Keeps K T p (Aside p) (moveCells insert old new n) := by
  induction n with
  | zero => exact .ret
  | succ i ih =>
    unfold ToySQL.moveCells
    refine .ite (.internalNodeChild fun l _ _ => .reading (reading_load old l) fun cur =>
      .getPage fun _ => ?_) .ret
    refine .seq (hinsert new cur hnew)
      (.seq (.storeParent hnew hlt cur) (.reading (reading_load old _) fun k => ?_))
    exact .seq (.store hold (Or.inl .numKeys) (by decide) _) ih

/-- The upper half moves to the new node. -/
theorem moveUpperHalf (hold : old ≠ p) (hnew : new ≠ p) (hlt : new < 2 ^ 32) :
    Keeps K T p (Aside p) (moveUpperHalf insert old new) := by
  unfold ToySQL.moveUpperHalf
  refine .reading (reading_load old _) fun cur => .getPage fun _ => .seq (hinsert new cur hnew) ?_
  refine .seq (.storeParent hnew hlt cur) (.seq (.store hold (Or.inl .rightChild) (by decide) _) ?_)
  refine .seq (moveCells hinsert hold hnew hlt _)
    (.reading (reading_load old _) fun n => .internalNodeChild fun l _ _ => ?_)
  refine .reading (reading_load old l) fun child =>
    .seq (.store hold (Or.inl .rightChild) (by decide) _) ?_
  exact .reading (reading_load old _) fun n => .store hold (Or.inl .numKeys) (by decide) _

/-- The part of a split that both branches go on with. -/
theorem splitHalves {fuel parent child oldMax childMax : ℕ} (hold : old ≠ p) (hnew : new ≠ p)
    (hlt : new < 2 ^ 32)
    (holdlt : old < 2 ^ 32) (hparent : parent ≠ p) :
    Keeps K T p (Aside p)
      (splitHalves insert fuel old parent child old new child oldMax childMax) := by
  unfold ToySQL.splitHalves
  refine .seq (moveUpperHalf hinsert hold hnew hlt)
    (.reading (reading_getNodeMaxKey fuel old) fun max => ?_)
  have hdest : ∀ dest, dest = old ∨ dest = new → Keeps K T p (Aside p) (do
      insert dest child
      ToySQL.store child .parent dest
      updateInternalNodeKey parent oldMax (← getNodeMaxKey fuel old)) := by
    intro dest hd
    have hne : dest ≠ p ∧ dest < 2 ^ 32 := by
      rcases hd with rfl | rfl
      · exact ⟨hold, holdlt⟩
      · exact ⟨hnew, hlt⟩
    refine .seq (hinsert dest child hne.1) (.seq (.storeParent hne.1 hne.2 child)
      (.reading (reading_getNodeMaxKey fuel old) fun k => ?_))
    exact .store hparent (Or.inr (.internalKey oldMax)) (by simp) k
  refine hdest _ ?_
  split
  · exact Or.inl rfl
  · exact Or.inr rfl

end Keeps

/-! ## A new root -/

/-- The first child of the root is another page. -/
structure RootAside (p : ℕ) (m : Mem) : Prop extends Aside p m where
  numKeys : (m.page rootPageNum).numKeys = 1
  child : (m.page rootPageNum).child 0 ≠ p

/-- Getting a page changes none of the contents. -/
theorem RootAside.touch (h : RootAside p m) (n : ℕ) : RootAside p (m.touch n) := by
  refine ⟨h.toAside.touch n, ?_, ?_⟩
  · rw [page_touch]
    exact h.numKeys
  · rw [page_touch]
    exact h.child

/-- The writes of `create_new_root` to the pages other than the root. -/
theorem RootAside.store (h : RootAside p m) (hq : q ≠ p ∧ (l = .internalKey 0 ∨ l = .rightChild) ∨
    l = .parent ∧ v ≠ p ∧ v < 2 ^ 32) :
    RootAside p (m.set q ((m.page q).store l v)) := by
  have haside : Aside p (m.set q ((m.page q).store l v)) := by
    rcases hq with ⟨hq, rfl | rfl⟩ | ⟨rfl, hv, hlt⟩
    · exact h.toAside.store hq (Or.inr (.internalKey 0)) (by decide) v
    · exact h.toAside.store hq (Or.inl .rightChild) (by decide) v
    · exact h.toAside.storeParent hv hlt q
  -- none of these fields is the key count or the first child of a page
  have hroot : ∀ pg : Page, (pg.store l v).numKeys = pg.numKeys ∧
      (pg.store l v).child 0 = pg.child 0 := by
    intro pg
    unfold Page.numKeys Page.child
    rcases hq with ⟨-, rfl | rfl⟩ | ⟨rfl, -⟩
    · exact ⟨load_header_store_body _ (.internalKey 0) .numKeys,
        load_internalCell_store_internalKey _ (by decide)⟩
    · exact ⟨by rw [load_store_header _ .rightChild .numKeys, if_neg (by decide)],
        load_body_store_header _ .rightChild (.internalCell 0)⟩
    · exact ⟨by rw [load_store_header _ .parent .numKeys, if_neg (by decide)],
        load_body_store_header _ .parent (.internalCell 0)⟩
  -- page 0 is the page written, or it is as before
  have hpage : (m.set q ((m.page q).store l v)).page rootPageNum = m.page rootPageNum ∨
      (m.set q ((m.page q).store l v)).page rootPageNum = (m.page rootPageNum).store l v := by
    rw [page_set, Function.update_apply]
    split
    · rename_i heq
      exact Or.inr (by rw [heq])
    · exact Or.inl rfl
  refine ⟨haside, ?_, ?_⟩
  · rcases hpage with hp | hp
    · rw [hp]
      exact h.numKeys
    · rw [hp, (hroot _).1]
      exact h.numKeys
  · rcases hpage with hp | hp
    · rw [hp]
      exact h.child
    · rw [hp, (hroot _).2]
      exact h.child

/-- A store in the code that follows. -/
theorem RootAside.wp_store (h : RootAside p m)
    (hq : q ≠ p ∧ (l = .internalKey 0 ∨ l = .rightChild) ∨ l = .parent ∧ v ≠ p ∧ v < 2 ^ 32)
    {Q : Unit → Mem → Prop} (hQ : ∀ m', RootAside p m' → Q () m')
    (hF : ∀ m', Aside p m' → F .outOfPage m') :
    wp (handler K T) (ToySQL.store q l v) Q F m := by
  by_cases ha : Access K (m.page q) l
  · rw [Mem.wp_store ha]
    exact hQ _ (h.store hq)
  · rw [wp_store_of_not ha]
    exact hF _ h.toAside

/-- **The new root** gets the copy of the old one for its first child. -/
theorem Keeps.linkNewRoot {fuel left right : ℕ} (hleft : left ≠ p) (hllt : left < 2 ^ 32) :
    Keeps K T p (RootAside p) (linkNewRoot fuel rootPageNum left right left right) := by
  intro m h
  have h0 : rootPageNum ≠ p := h.ne_root.symm
  unfold ToySQL.linkNewRoot
  rw [wp_bind]
  refine wp_mono (Keeps.initializeInternalNode h0 m h) (fun _ m₁ h₁ => ?_) fun _ _ => id
  rw [wp_bind]
  refine wp_mono (Keeps.store h0 (Or.inl .isRoot) (by decide) _ m₁ h₁) (fun _ m₂ h₂ => ?_)
    fun _ _ => id
  -- with one key, the first child is in the first cell
  rw [wp_bind, Mem.wp_store (access_header .numKeys)]
  have h₃ := h₂.store h0 (Or.inl .numKeys) (by decide) 1
  have hk : ((m₂.set rootPageNum ((m₂.page rootPageNum).store .numKeys 1)).page rootPageNum).load
      .numKeys = 1 := by
    rw [page_set_self, load_store_header _ .numKeys .numKeys, if_pos rfl]
    rfl
  generalize m₂.set rootPageNum ((m₂.page rootPageNum).store .numKeys 1) = m₃ at h₃ hk
  unfold ToySQL.internalNodeChild
  rw [bind_assoc, wp_bind, wp_load (access_header .numKeys), hk, if_neg (by decide),
    if_neg (by decide), bind_assoc, wp_bind,
    wp_load (access_internalCell (by decide)), ite_bind]
  split
  · exact h₃
  rw [pure_eq, bind_ret, wp_bind, Mem.wp_store (access_internalCell (by decide))]
  have h₄ :
      RootAside p (m₃.set rootPageNum ((m₃.page rootPageNum).store (.internalCell 0) left)) := by
    refine ⟨h₃.store h0 (Or.inr (.internalCell 0)) (by decide) left, ?_, ?_⟩
    · rw [page_set_self]
      exact (load_header_store_body _ (.internalCell 0) .numKeys).trans hk
    · rw [page_set_self]
      unfold Page.child
      rw [load_internalCell_store _ (by decide) (by decide), if_pos rfl, Nat.mod_eq_of_lt hllt]
      exact hleft
  rw [wp_bind]
  refine wp_reading (reading_getNodeMaxKey fuel left) (fun n _ hm => hm.touch n) h₄
    (fun max m₅ h₅ => ?_) fun _ _ hm => hm.toAside
  rw [wp_bind]
  refine h₅.wp_store (Or.inl ⟨h0, Or.inl rfl⟩) (fun m₆ h₆ => ?_) fun _ => id
  rw [wp_bind]
  refine h₆.wp_store (Or.inl ⟨h0, Or.inr rfl⟩) (fun m₇ h₇ => ?_) fun _ => id
  rw [wp_bind]
  refine h₇.wp_store (Or.inr ⟨rfl, h0, by decide⟩) (fun m₈ h₈ => ?_) fun _ => id
  exact h₈.wp_store (Or.inr ⟨rfl, h0, by decide⟩) (fun _ => id) fun _ => id

/-- The children of the old root get a parent that is not the leaf. -/
theorem Keeps.adoptChildren {left w : ℕ} (hw : w ≠ p) (hlt : w < 2 ^ 32) :
    Keeps K T p (Aside p) (adoptChildren left w) := by
  have hloop : ∀ count i, Keeps K T p (Aside p) (createNewRootLoop left w count i) := by
    intro count
    induction count with
    | zero => exact fun _ => .ret
    | succ count ih =>
      intro i
      unfold createNewRootLoop
      refine .internalNodeChild fun l _ _ => .reading (reading_load left l) fun c =>
        .getPage fun _ => ?_
      exact .seq (.storeParent hw hlt c) (ih (i + 1))
  unfold ToySQL.adoptChildren
  refine .reading (reading_load left _) fun right => .reading (reading_load left _) fun n =>
    .seq (hloop n 0) ?_
  exact .getPage fun _ => .storeParent hw hlt right

/-- The page of the right child is one that may be asked for. -/
theorem Keeps.createNewRoot {fuel right : ℕ} (hT : ∀ n, T n → n < filePagesNum)
    (hright : right ≠ p) :
    Keeps K T p (fun m => RootAside p m ∧ T right) (createNewRoot fuel right) := by
  have hlt : ∀ n, T n → n < 2 ^ 32 := fun n hn => (hT n hn).trans (by decide)
  unfold ToySQL.createNewRoot
  refine .getPage fun _ => .getPage fun hTr => .getUnusedPage fun left hleft =>
    .getPage fun hTl => ?_
  have hrest : Keeps K T p (RootAside p) (do
      memcpy left .start rootPageNum .start pageSize
      setNodeRoot left false
      if (← getNodeType left) = .internal then
        ToySQL.adoptChildren left left
      ToySQL.linkNewRoot fuel rootPageNum left right left right) := by
    refine .seq (fun m h => ?_) (.seq (.store hleft (Or.inl .isRoot) (by decide) _) ?_)
    · rw [wp_memcpy ⟨by simp, by simp⟩, Loc.offset_start, splice_page]
      exact h.set (fun heq => absurd heq hleft) fun _ => h.parent rootPageNum (by decide)
    · refine .reading (reading_getNodeType left) fun t => .ite ?_ (.linkNewRoot hleft (hlt _ hTl))
      exact .seq (.adoptChildren hleft (hlt _ hTl)) (.linkNewRoot hleft (hlt _ hTl))
  refine .mono (.reading (reading_getNodeType rootPageNum) fun t => .ite ?_ hrest) fun m h =>
    ⟨h, hTr⟩
  exact .seq (.initializeInternalNode hright) (.seq (.initializeInternalNode hleft) hrest)

/-! ## The insertion -/

/-- A split, if the recursive call keeps the leaf aside. -/
theorem Keeps.internalNodeSplitAndInsert {fuel x y : ℕ} {insert : ℕ → ℕ → Prog ℕ Unit}
    (hT : ∀ n, T n → n < filePagesNum)
    (hinsert : ∀ x y, x ≠ p → Keeps K T p (Aside p) (insert x y)) (hx : x ≠ p) :
    Keeps K T p (Aside p) (internalNodeSplitAndInsert insert fuel x y) := by
  have hlt : ∀ n, T n → n < 2 ^ 32 := fun n hn => (hT n hn).trans (by decide)
  unfold ToySQL.internalNodeSplitAndInsert
  refine .getPage fun hTx => .reading (reading_getNodeMaxKey fuel x) fun oldMax =>
    .getPage fun _ => ?_
  refine .reading (reading_getNodeMaxKey fuel y) fun childMax => .getUnusedPage fun new hnew => ?_
  refine .reading (f := isNodeRoot x) ⟨trivial, fun _ => trivial⟩ fun root => .ite ?_ ?_
  · -- the root is split: its copy is the old node
    intro m h
    have h0 : rootPageNum ≠ p := h.ne_root.symm
    rw [wp_bind]
    refine wp_mono (Keeps.createNewRoot hT hnew m h) (fun _ m₁ hm₁ => ?_) fun _ _ => id
    obtain ⟨h₁, hTn⟩ := hm₁
    have hfirst : wp (handler K T) (do
        let parent ← ToySQL.getPage rootPageNum
        let oldPageNum ← load parent (← ToySQL.internalNodeChild parent 0)
        let oldNode ← ToySQL.getPage oldPageNum
        ToySQL.splitHalves insert fuel oldNode parent y oldPageNum new y oldMax childMax) (fun _ =>
          Aside p) (fun _ => Aside p) m₁ := by
      rw [wp_bind]
      -- without page 0 the code ends here
      by_cases hT0 : T rootPageNum
      swap
      · rw [wp_getPage_of_not hT0]
        exact h₁.toAside
      have h₂ := h₁.touch rootPageNum
      rw [wp_getPage hT0]
      generalize m₁.touch rootPageNum = m₂ at h₂
      unfold ToySQL.internalNodeChild
      rw [bind_assoc, wp_bind, wp_load (access_header .numKeys), load_numKeys, h₂.numKeys,
        if_neg (by decide), if_neg (by decide),
        bind_assoc, wp_bind, wp_load (access_internalCell (by decide)), ite_bind]
      split
      · exact h₂.toAside
      rw [pure_eq, bind_ret, wp_bind, wp_load (access_internalCell (by decide)), load_internalCell]
      refine Keeps.getPage (fun hTold => ?_) m₂ h₂.toAside
      exact .splitHalves hinsert h₂.child hnew (hlt _ hTn) (hlt _ hTold) h0
    exact hfirst
  -- an inner node is split: the parent is read anew before each use
  · refine .loadParent (hT _ hTx) fun g hg _ => .getPage fun _ => .getPage fun hTn =>
      .seq (.initializeInternalNode hnew) ?_
    refine .seq (.splitHalves hinsert hx hnew (hlt _ hTn) (hlt _ hTx) hg) ?_
    refine .loadParent (hT _ hTx) fun g' hg' _ => .seq (hinsert g' new hg') ?_
    exact .loadParent (hT _ hTx) fun g'' hg'' hg''lt => .storeParent hg'' hg''lt new

/-- **The insertion into an internal node** leaves a leaf alone that is no parent. -/
theorem Keeps.internalNodeInsert (hT : ∀ n, T n → n < filePagesNum) :
    ∀ fuel x y, x ≠ p → Keeps K T p (Aside p) (internalNodeInsert fuel x y) := by
  intro fuel
  induction fuel with
  | zero => exact fun x y hx => .internalNodeInsertStep hx (.fault _)
  | succ fuel ih =>
    exact fun x y hx =>
      .internalNodeInsertStep hx (.internalNodeSplitAndInsert hT ih hx)

end

end ToySQL
