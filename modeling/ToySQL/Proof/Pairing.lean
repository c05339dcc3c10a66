import ToySQL.Proof.Stages

/-!
# The code does not look inside its pointers

The functions of `btree.cpp` are written for any type of pointers. Run with addresses of
cache entries and run with page numbers they perform the same operations, on pointers
that were obtained together. A world is the set of these pairs; it grows with every
`get_page`.

The lemmas `match_…` say this of each function. `match_insertRow`, `match_insertRows`,
`match_tableFind` and `match_initializeTable` are those the simulations start from.
-/

namespace ToySQL

open Program

/-- Pairs of an address and a page number. -/
abbrev Links : Type := Set (Addr × ℕ)

/-- The same operation, on linked pointers. -/
inductive SameOp (w : Links) : PagerOp Addr → PagerOp ℕ → Prop where
  | getPage (n : ℕ) : SameOp w (.getPage n) (.getPage n)
  | getUnusedPage : SameOp w .getUnusedPage .getUnusedPage
  | load {a p} (l : Loc) : (a, p) ∈ w → SameOp w (.load a l) (.load p l)
  | store {a p} (l : Loc) (v : ℕ) : (a, p) ∈ w → SameOp w (.store a l v) (.store p l v)
  | memcpy {a p b q} (dl sl : Loc) (n : ℕ) : (a, p) ∈ w → (b, q) ∈ w →
      SameOp w (.memcpy a dl b sl n) (.memcpy p dl q sl n)
  | fill {a p} (dl : Loc) (n : ℕ) (buffer : Bytes n) : (a, p) ∈ w →
      SameOp w (.fill a dl n buffer) (.fill p dl n buffer)

/-- Equal results, and a new pair of pointers. -/
def SameRes : (o : PagerOp Addr) → (o' : PagerOp ℕ) → o.Res → o'.Res → Links → Prop
  | .getPage _, .getPage _, a, p, w => (a, p) ∈ w
  | .getUnusedPage, .getUnusedPage, n, n', _ => n = n'
  | .load _ _, .load _ _, v, v', _ => v = v'
  | _, _, _, _, _ => True

/-- How the two ways to run the code are paired. -/
def pointers : Pairing (pagerInterface Addr) (pagerInterface ℕ) Links where
  ops := SameOp
  res w o o' r r' w' := w ≤ w' ∧ SameRes o o' r r' w'

/-- The code on the left and the code on the right match, with values related by `V`. -/
abbrev Match {α α' : Type} (V : Links → α → α' → Prop) (w : Links) (p : Prog Addr α)
    (p' : Prog ℕ α') :
    Prop := Matches pointers V w p p'

/-- Values without pointers. -/
def Eq' {α : Type} (_ : Links) (a b : α) : Prop := a = b

/-- Linked pointers. -/
def Link (w : Links) (a : Addr) (p : ℕ) : Prop := (a, p) ∈ w

variable {w : Links} {a b : Addr} {p q n : ℕ} {l dl sl : Loc} {v : ℕ} {α β β' : Type}
  {U : Links → β → β' → Prop}

/-! ## Composition -/

theorem match_ret (x : α) : Match Eq' w (.ret x) (.ret x) := .ret rfl

/-- Both sides stop with the same exception. -/
theorem match_fault (e : Fault) {V : Links → β → β' → Prop} : Match V w (fault e) (fault e) := .fail

/-- A page got adds a link and takes none away. -/
theorem links_le (w : Links) (o : PagerOp Addr) (o' : PagerOp ℕ) (r : o.Res) (r' : o'.Res)
    (w' : Links)
    (h : pointers.res w o o' r r' w') : w ≤ w' := h.1

theorem match_bind {f : Prog Addr α} {f' : Prog ℕ α} {g : α → Prog Addr β} {g' : α → Prog ℕ β'}
    (hf : Match Eq' w f f') (hg : ∀ x w', w ≤ w' → Match U w' (g x) (g' x)) :
    Match U w (f >>= g) (f' >>= g') := by
  refine hf.bind links_le ?_
  rintro x _ w' hw rfl
  exact hg x w' hw

/-- After a page was got, the two pointers are linked. -/
theorem match_bind_ptr {f : Prog Addr Addr} {f' : Prog ℕ ℕ} {g : Addr → Prog Addr β}
    {g' : ℕ → Prog ℕ β'}
    (hf : Match Link w f f') (hg : ∀ a p w', w ≤ w' → (a, p) ∈ w' → Match U w' (g a) (g' p)) :
    Match U w (f >>= g) (f' >>= g') :=
  hf.bind links_le fun a p w' hw h => hg a p w' hw h

theorem match_ite {c : Prop} [Decidable c] {f g : Prog Addr β} {f' g' : Prog ℕ β'}
    (hf : Match U w f f') (hg : Match U w g g') :
    Match U w (if c then f else g) (if c then f' else g') := by
  split
  · exact hf
  · exact hg

/-! ## The operations -/

/-- Getting a page links its entry to its number. -/
theorem match_getPage (n : ℕ) : Match Link w (getPage n) (getPage n) :=
  .step (.getPage n) fun _ _ _ h => .ret h.2

theorem match_getUnusedPage : Match Eq' w getUnusedPage getUnusedPage :=
  .step .getUnusedPage fun _ _ _ h => .ret h.2

/-- Reading a field through linked pointers. -/
theorem match_load (h : (a, p) ∈ w) (l : Loc) : Match Eq' w (load a l) (load p l) :=
  .step (.load l h) fun _ _ _ h => .ret h.2

/-- Writing a field through linked pointers. -/
theorem match_store (h : (a, p) ∈ w) (l : Loc) (v : ℕ) : Match Eq' w (store a l v) (store p l v) :=
  .step (.store l v h) fun _ _ _ _ => .ret rfl

theorem match_memcpy (h : (a, p) ∈ w) (h' : (b, q) ∈ w) (dl sl : Loc) (n : ℕ) :
    Match Eq' w (memcpy a dl b sl n) (memcpy p dl q sl n) :=
  .step (.memcpy dl sl n h h') fun _ _ _ _ => .ret rfl

theorem match_fill (h : (a, p) ∈ w) (dl : Loc) (buffer : Bytes n) :
    Match Eq' w (fill a dl buffer) (fill p dl buffer) :=
  .step (.fill dl n buffer h) fun _ _ _ _ => .ret rfl

/-! ## Nodes -/

theorem match_getNodeType (h : (a, p) ∈ w) : Match Eq' w (getNodeType a) (getNodeType p) :=
  match_bind (match_load h _) fun _ _ _ => match_ret _

theorem match_setNodeType (h : (a, p) ∈ w) (t : NodeType) :
    Match Eq' w (setNodeType a t) (setNodeType p t) :=
  match_store h _ _

theorem match_internalNodeChild (h : (a, p) ∈ w) (n : ℕ) :
    Match Eq' w (internalNodeChild a n) (internalNodeChild p n) := by
  refine match_bind (match_load h _) fun k w' hw => ?_
  refine match_ite (match_fault _) (match_ite ?_ ?_)
  · exact match_bind (match_load (hw h) _) fun c _ _ => match_ite (match_fault _) (match_ret _)
  · exact match_bind (match_load (hw h) _) fun c _ _ => match_ite (match_fault _) (match_ret _)

theorem match_updateInternalNodeKey (h : (a, p) ∈ w) (i key : ℕ) :
    Match Eq' w (updateInternalNodeKey a i key) (updateInternalNodeKey p i key) := match_store h _ _

theorem match_isNodeRoot (h : (a, p) ∈ w) : Match Eq' w (isNodeRoot a) (isNodeRoot p) :=
  match_bind (match_load h _) fun _ _ _ => match_ret _

theorem match_setNodeRoot (h : (a, p) ∈ w) (r : Bool) :
    Match Eq' w (setNodeRoot a r) (setNodeRoot p r) :=
  match_store h _ _

theorem match_initializeInternalNode (h : (a, p) ∈ w) :
    Match Eq' w (initializeInternalNode a) (initializeInternalNode p) :=
  match_bind (match_setNodeType h _) fun _ _ h1 =>
    match_bind (match_setNodeRoot (h1 h) _) fun _ _ h2 =>
    match_bind (match_store (h2 (h1 h)) _ _) fun _ _ h3 => match_store (h3 (h2 (h1 h))) _ _

theorem match_initializeLeafNode (h : (a, p) ∈ w) :
    Match Eq' w (initializeLeafNode a) (initializeLeafNode p) :=
  match_bind (match_setNodeType h _) fun _ _ h1 =>
    match_bind (match_setNodeRoot (h1 h) _) fun _ _ h2 =>
    match_bind (match_store (h2 (h1 h)) _ _) fun _ _ h3 => match_store (h3 (h2 (h1 h))) _ _

/-! ## Maxima and searches -/

/-- One level of `get_node_max_key`; `next` is what it calls for the child. -/
theorem match_getNodeMaxKeyStep {next : Addr → Prog Addr ℕ} {next' : ℕ → Prog ℕ ℕ}
    (hnext : ∀ a p w', (a, p) ∈ w' → Match Eq' w' (next a) (next' p)) (h : (a, p) ∈ w) :
    Match Eq' w (getNodeMaxKeyStep next a) (getNodeMaxKeyStep next' p) := by
  refine match_bind (match_getNodeType h) fun t w1 h1 => match_ite ?_ ?_
  · refine match_bind (match_load (h1 h) _) fun n w2 h2 => match_ite (match_ret _) ?_
    exact match_load (h2 (h1 h)) _
  · refine match_bind (match_load (h1 h) _) fun n w2 h2 => match_ite ?_ ?_
    · refine match_bind (match_load (h2 (h1 h)) _) fun r w3 _ => ?_
      exact match_bind_ptr (match_getPage _) fun _ _ _ _ hr => hnext _ _ _ hr
    · exact match_load (h2 (h1 h)) _

theorem match_getNodeMaxKey : ∀ (fuel : ℕ) {w : Links} {a : Addr} {p : ℕ}, (a, p) ∈ w →
    Match Eq' w (getNodeMaxKey fuel a) (getNodeMaxKey fuel p)
  | 0, _, _, _, h => match_getNodeMaxKeyStep (fun _ _ _ _ => match_fault _) h
  | fuel + 1, _, _, _, h => match_getNodeMaxKeyStep (fun _ _ _ h' => match_getNodeMaxKey fuel h') h

theorem match_internalNodeFindChildLoop (key : ℕ) : ∀ rounds lo hi ans {w : Links}, (a, p) ∈ w →
    Match Eq' w (internalNodeFindChildLoop a key rounds lo hi ans)
      (internalNodeFindChildLoop p key rounds lo hi ans) := by
  intro rounds
  induction rounds with
  | zero => intro lo hi ans w h; exact match_fault _
  | succ rounds ih =>
    intro lo hi ans w h
    refine match_ite (match_bind (match_load h _) fun k w1 h1 => match_ite (match_ite ?_ ?_) ?_) ?_
    · exact match_ret _
    · exact ih _ _ _ (h1 h)
    · exact ih _ _ _ (h1 h)
    · exact match_ret _

theorem match_internalNodeFindChild (h : (a, p) ∈ w) (key : ℕ) :
    Match Eq' w (internalNodeFindChild a key) (internalNodeFindChild p key) :=
  match_bind (match_load h _) fun _ _ h1 =>
    match_ite (match_internalNodeFindChildLoop key _ _ _ _ (h1 h)) (match_ret _)

theorem match_leafNodeFindLoop (key : ℕ) : ∀ rounds lo hi ans {w : Links}, (a, p) ∈ w →
    Match Eq' w (leafNodeFindLoop a key rounds lo hi ans)
      (leafNodeFindLoop p key rounds lo hi ans) := by
  intro rounds
  induction rounds with
  | zero => intro lo hi ans w h; exact match_fault _
  | succ rounds ih =>
    intro lo hi ans w h
    refine match_ite (match_bind (match_load h _) fun k w1 h1 =>
      match_ite ?_ (match_ite (match_ite ?_ ?_) ?_)) ?_
    · exact match_ret _
    · exact match_ret _
    · exact ih _ _ _ (h1 h)
    · exact ih _ _ _ (h1 h)
    · exact match_ret _

theorem match_leafNodeFind (pageNum key : ℕ) :
    Match Eq' w (leafNodeFind pageNum key) (leafNodeFind pageNum key) := by
  refine match_bind_ptr (match_getPage _) fun a p w1 _ h => ?_
  refine match_bind (match_load h _) fun n w2 h2 => match_ite (match_ret _) ?_
  exact match_bind (match_leafNodeFindLoop key _ _ _ _ (h2 h)) fun _ _ _ => match_ret _

/-- One level of `internal_node_find`; `next` is what it calls for the child. -/
theorem match_internalNodeFindStep {next : ℕ → Prog Addr Cursor} {next' : ℕ → Prog ℕ Cursor}
    (hnext : ∀ c w', Match Eq' w' (next c) (next' c)) (pageNum key : ℕ) :
    Match Eq' w (internalNodeFindStep next pageNum key)
      (internalNodeFindStep next' pageNum key) := by
  refine match_bind_ptr (match_getPage _) fun a p w1 _ h => ?_
  refine match_bind (match_internalNodeFindChild h _) fun i w2 h2 => ?_
  refine match_bind (match_internalNodeChild (h2 h) _) fun l w3 h3 => ?_
  refine match_bind (match_load (h3 (h2 h)) _) fun c w4 _ => ?_
  refine match_bind_ptr (match_getPage _) fun b q w5 _ h5 => ?_
  refine match_bind (match_getNodeType h5) fun t w6 _ => ?_
  cases t with
  | leaf => exact match_leafNodeFind _ _
  | internal => exact hnext _ _
  | other _ => exact match_fault _

theorem match_internalNodeFind (key : ℕ) : ∀ (fuel : ℕ) {w : Links} (pageNum : ℕ),
    Match Eq' w (internalNodeFind fuel pageNum key) (internalNodeFind fuel pageNum key)
  | 0, _, _ => match_internalNodeFindStep (fun _ _ => match_fault _) _ _
  | fuel + 1, _, _ => match_internalNodeFindStep (fun c _ => match_internalNodeFind key fuel c) _ _

theorem match_tableFind (fuel key : ℕ) : Match Eq' w (tableFind fuel key) (tableFind fuel key) := by
  refine match_bind_ptr (match_getPage _) fun a p w1 _ h => ?_
  refine match_bind (match_getNodeType h) fun t w2 _ => ?_
  cases t with
  | leaf => exact match_leafNodeFind _ _
  | internal => exact match_internalNodeFind _ _ _
  | other _ => exact match_fault _

/-! ## A new root -/

theorem match_createNewRootLoop (n : ℕ) : ∀ count i {w : Links}, (a, p) ∈ w →
    Match Eq' w (createNewRootLoop a n count i) (createNewRootLoop p n count i) := by
  intro count
  induction count with
  | zero => intro i w _; exact match_ret _
  | succ count ih =>
    intro i w h
    refine match_bind (match_internalNodeChild h _) fun l w1 h1 => ?_
    refine match_bind (match_load (h1 h) _) fun c w2 h2 => ?_
    refine match_bind_ptr (match_getPage _) fun b q w3 h3 hb => ?_
    exact match_bind (match_store hb _ _) fun _ w4 h4 => ih _ (h4 (h3 (h2 (h1 h))))

theorem match_adoptChildren (h : (a, p) ∈ w) (n : ℕ) :
    Match Eq' w (adoptChildren a n) (adoptChildren p n) := by
  refine match_bind (match_load h _) fun r w1 h1 => ?_
  refine match_bind (match_load (h1 h) _) fun c w2 h2 => ?_
  refine match_bind (match_createNewRootLoop _ _ _ (h2 (h1 h))) fun _ w3 h3 => ?_
  exact match_bind_ptr (match_getPage _) fun b q w4 _ hb => match_store hb _ _

theorem match_linkNewRoot {c : Addr} {r : ℕ} (fuel n n' : ℕ) (ha : (a, p) ∈ w) (hb : (b, q) ∈ w)
    (hc : (c, r) ∈ w) :
    Match Eq' w (linkNewRoot fuel a b c n n') (linkNewRoot fuel p q r n n') := by
  refine match_bind (match_initializeInternalNode ha) fun _ w1 h1 => ?_
  refine match_bind (match_setNodeRoot (h1 ha) _) fun _ w2 h2 => ?_
  have h12 := le_trans h1 h2
  refine match_bind (match_store (h12 ha) _ _) fun _ w3 h3 => ?_
  have h13 := le_trans h12 h3
  refine match_bind (match_internalNodeChild (h13 ha) _) fun l w4 h4 => ?_
  have h14 := le_trans h13 h4
  refine match_bind (match_store (h14 ha) _ _) fun _ w5 h5 => ?_
  have h15 := le_trans h14 h5
  refine match_bind (match_getNodeMaxKey fuel (h15 hb)) fun k w6 h6 => ?_
  have h16 := le_trans h15 h6
  refine match_bind (match_store (h16 ha) _ _) fun _ w7 h7 => ?_
  have h17 := le_trans h16 h7
  refine match_bind (match_store (h17 ha) _ _) fun _ w8 h8 => ?_
  have h18 := le_trans h17 h8
  exact match_bind (match_store (h18 hb) _ _) fun _ w9 h9 => match_store (h9 (h18 hc)) _ _

theorem match_createNewRoot (fuel n : ℕ) :
    Match Eq' w (createNewRoot fuel n) (createNewRoot fuel n) := by
  refine match_bind_ptr (match_getPage _) fun root root' w1 _ hroot => ?_
  refine match_bind_ptr (match_getPage _) fun right right' w2 h2 hright => ?_
  refine match_bind match_getUnusedPage fun k w3 h3 => ?_
  refine match_bind_ptr (match_getPage _) fun left left' w4 h4 hleft => ?_
  have hroot4 := h4 (h3 (h2 hroot))
  have hright4 := h4 (h3 hright)
  refine match_bind (match_getNodeType hroot4) fun t w5 h5 => ?_
  -- the rest, whether or not the children are initialised
  have hrest : ∀ w6, w5 ≤ w6 → Match Eq' w6
      (do
        memcpy left .start root .start pageSize
        setNodeRoot left false
        if (← getNodeType left) = .internal then adoptChildren left k
        linkNewRoot fuel root left right k n)
      (do
        memcpy left' .start root' .start pageSize
        setNodeRoot left' false
        if (← getNodeType left') = .internal then adoptChildren left' k
        linkNewRoot fuel root' left' right' k n) := by
    intro w6 h6
    have h56 := le_trans h5 h6
    refine match_bind (match_memcpy (h56 hleft) (h56 hroot4) _ _ _) fun _ w7 h7 => ?_
    have h57 := le_trans h56 h7
    refine match_bind (match_setNodeRoot (h57 hleft) _) fun _ w8 h8 => ?_
    have h58 := le_trans h57 h8
    refine match_bind (match_getNodeType (h58 hleft)) fun t' w9 h9 => ?_
    have h59 := le_trans h58 h9
    refine match_ite ?_ ?_
    · exact match_bind (match_adoptChildren (h59 hleft) _) fun _ w10 h10 =>
        match_linkNewRoot fuel _ _ (h10 (h59 hroot4)) (h10 (h59 hleft)) (h10 (h59 hright4))
    · exact match_linkNewRoot fuel _ _ (h59 hroot4) (h59 hleft) (h59 hright4)
  refine match_ite ?_ (hrest w5 le_rfl)
  refine match_bind (match_initializeInternalNode (h5 hright4)) fun _ w6 h6 => ?_
  exact match_bind (match_initializeInternalNode (h6 (h5 hleft))) fun _ w7 h7 =>
    hrest w7 (le_trans h6 h7)

/-! ## Insertion into internal nodes -/

section Split

variable {insert : ℕ → ℕ → Prog Addr Unit} {insert' : ℕ → ℕ → Prog ℕ Unit}

/-- The loop that moves children; `insert` is the recursive call. -/
theorem match_moveCells (hins : ∀ g c w', Match Eq' w' (insert g c) (insert' g c)) (n : ℕ) :
    ∀ i {w : Links}, (a, p) ∈ w →
      Match Eq' w (moveCells insert a n i) (moveCells insert' p n i) := by
  intro i
  induction i with
  | zero => intro w _; exact match_ret _
  | succ i ih =>
    intro w h
    refine match_ite ?_ (match_ret _)
    refine match_bind (match_internalNodeChild h _) fun l w1 h1 => ?_
    refine match_bind (match_load (h1 h) _) fun c w2 h2 => ?_
    have h12 := le_trans h1 h2
    refine match_bind_ptr (match_getPage _) fun b q w3 h3 hb => ?_
    have h13 := le_trans h12 h3
    refine match_bind (hins _ _ _) fun _ w4 h4 => ?_
    have h14 := le_trans h13 h4
    refine match_bind (match_store (h4 hb) _ _) fun _ w5 h5 => ?_
    have h15 := le_trans h14 h5
    refine match_bind (match_load (h15 h) _) fun k w6 h6 => ?_
    have h16 := le_trans h15 h6
    exact match_bind (match_store (h16 h) _ _) fun _ w7 h7 => ih (h7 (h16 h))

theorem match_moveUpperHalf (hins : ∀ g c w', Match Eq' w' (insert g c) (insert' g c))
    (h : (a, p) ∈ w)
    (n : ℕ) : Match Eq' w (moveUpperHalf insert a n) (moveUpperHalf insert' p n) := by
  refine match_bind (match_load h _) fun c w1 h1 => ?_
  refine match_bind_ptr (match_getPage _) fun b q w2 h2 hb => ?_
  have h12 := le_trans h1 h2
  refine match_bind (hins _ _ _) fun _ w3 h3 => ?_
  have h13 := le_trans h12 h3
  refine match_bind (match_store (h3 hb) _ _) fun _ w4 h4 => ?_
  have h14 := le_trans h13 h4
  refine match_bind (match_store (h14 h) _ _) fun _ w5 h5 => ?_
  have h15 := le_trans h14 h5
  refine match_bind (match_moveCells hins _ _ (h15 h)) fun _ w6 h6 => ?_
  have h16 := le_trans h15 h6
  refine match_bind (match_load (h16 h) _) fun k w7 h7 => ?_
  have h17 := le_trans h16 h7
  refine match_bind (match_internalNodeChild (h17 h) _) fun l w8 h8 => ?_
  have h18 := le_trans h17 h8
  refine match_bind (match_load (h18 h) _) fun r w9 h9 => ?_
  have h19 := le_trans h18 h9
  refine match_bind (match_store (h19 h) _ _) fun _ w10 h10 => ?_
  have h110 := le_trans h19 h10
  exact match_bind (match_load (h110 h) _) fun k w11 h11 => match_store (h11 (h110 h)) _ _

theorem match_splitHalves {c : Addr} {r : ℕ}
    (hins : ∀ g c w', Match Eq' w' (insert g c) (insert' g c))
    (fuel n n' n'' oldMax childMax : ℕ) (ha : (a, p) ∈ w) (hb : (b, q) ∈ w) (hc : (c, r) ∈ w) :
    Match Eq' w (splitHalves insert fuel a b c n n' n'' oldMax childMax)
      (splitHalves insert' fuel p q r n n' n'' oldMax childMax) := by
  refine match_bind (match_moveUpperHalf hins ha _) fun _ w1 h1 => ?_
  refine match_bind (match_getNodeMaxKey fuel (h1 ha)) fun k w2 h2 => ?_
  have h12 := le_trans h1 h2
  refine match_bind (hins _ _ _) fun _ w3 h3 => ?_
  have h13 := le_trans h12 h3
  refine match_bind (match_store (h13 hc) _ _) fun _ w4 h4 => ?_
  have h14 := le_trans h13 h4
  refine match_bind (match_getNodeMaxKey fuel (h14 ha)) fun k w5 h5 => ?_
  exact match_updateInternalNodeKey (le_trans h14 h5 hb) _ _

theorem match_internalNodeSplitAndInsert (hins : ∀ g c w', Match Eq' w' (insert g c) (insert' g c))
    (fuel g c : ℕ) :
    Match Eq' w (internalNodeSplitAndInsert insert fuel g c)
      (internalNodeSplitAndInsert insert' fuel g c) := by
  refine match_bind_ptr (match_getPage _) fun old old' w1 _ hold => ?_
  refine match_bind (match_getNodeMaxKey fuel hold) fun oldMax w2 h2 => ?_
  refine match_bind_ptr (match_getPage _) fun child child' w3 h3 hchild => ?_
  refine match_bind (match_getNodeMaxKey fuel hchild) fun childMax w4 h4 => ?_
  refine match_bind match_getUnusedPage fun n w5 h5 => ?_
  have hold5 := h5 (h4 (h3 (h2 hold)))
  have hchild5 := h5 (h4 hchild)
  refine match_bind (match_isNodeRoot hold5) fun root w6 h6 => match_ite ?_ ?_
  -- the root is split: root and copy are got again
  · refine match_bind (match_createNewRoot fuel n) fun _ w7 h7 => ?_
    have h67 := le_trans h6 h7
    refine match_bind_ptr (match_getPage _) fun parent parent' w8 h8 hparent => ?_
    have h68 := le_trans h67 h8
    refine match_bind (match_internalNodeChild hparent _) fun l w9 h9 => ?_
    have h69 := le_trans h68 h9
    refine match_bind (match_load (h9 hparent) _) fun o w10 h10 => ?_
    have h610 := le_trans h69 h10
    refine match_bind_ptr (match_getPage _) fun old2 old2' w11 h11 hold2 => ?_
    exact match_splitHalves hins _ _ _ _ _ _ hold2 (h11 (h10 (h9 hparent))) (h11 (h610 hchild5))
  -- another node: its parent is read from it each time
  · refine match_bind (match_load (h6 hold5) _) fun g w7 h7 => ?_
    have h67 := le_trans h6 h7
    refine match_bind_ptr (match_getPage _) fun parent parent' w8 h8 hparent => ?_
    have h68 := le_trans h67 h8
    refine match_bind_ptr (match_getPage _) fun new new' w9 h9 hnew => ?_
    have h69 := le_trans h68 h9
    refine match_bind (match_initializeInternalNode hnew) fun _ w10 h10 => ?_
    have h610 := le_trans h69 h10
    refine match_bind
      (match_splitHalves hins _ _ _ _ _ _ (h610 hold5) (h10 (h9 hparent)) (h610 hchild5))
      fun _ w11 h11 => ?_
    have h611 := le_trans h610 h11
    refine match_bind (match_load (h611 hold5) _) fun g' w12 h12 => ?_
    have h612 := le_trans h611 h12
    refine match_bind (hins _ _ _) fun _ w13 h13 => ?_
    have h613 := le_trans h612 h13
    refine match_bind (match_load (h613 hold5) _) fun g'' w14 h14 => ?_
    exact match_store (h14 (h13 (h12 (h11 (h10 hnew))))) _ _

end Split

theorem match_shiftInternalCells (index : ℕ) : ∀ n {w : Links}, (a, p) ∈ w →
    Match Eq' w (shiftInternalCells a index n) (shiftInternalCells p index n) := by
  intro n
  induction n with
  | zero => intro w _; exact match_ret _
  | succ n ih =>
    intro w h
    exact match_ite (match_bind (match_memcpy h h _ _ _) fun _ _ h1 => ih (h1 h)) (match_ret _)

/-- `internal_node_insert`, given what it does when the node is full. -/
theorem match_internalNodeInsertStep {split : ℕ → ℕ → Prog Addr Unit} {split' : ℕ → ℕ → Prog ℕ Unit}
    (hsplit : ∀ g c w', Match Eq' w' (split g c) (split' g c)) (fuel g c : ℕ) :
    Match Eq' w (internalNodeInsertStep split fuel g c)
      (internalNodeInsertStep split' fuel g c) := by
  refine match_bind_ptr (match_getPage _) fun a p w1 _ ha => ?_
  refine match_bind_ptr (match_getPage _) fun b q w2 h2 hb => ?_
  refine match_bind (match_getNodeMaxKey fuel hb) fun cmax w3 h3 => ?_
  have ha3 := h3 (h2 ha)
  refine match_bind (match_internalNodeFindChild ha3 _) fun index w4 h4 => ?_
  refine match_bind (match_load (h4 ha3) _) fun n w5 h5 => match_ite (hsplit _ _ _) ?_
  have ha5 := h5 (h4 ha3)
  refine match_bind (match_load ha5 _) fun r w6 h6 => match_ite (match_store (h6 ha5) _ _) ?_
  refine match_bind_ptr (match_getPage _) fun d s w7 h7 hd => ?_
  have ha7 := h7 (h6 ha5)
  refine match_bind (match_store ha7 _ _) fun _ w8 h8 => ?_
  refine match_bind (match_getNodeMaxKey fuel (h8 hd)) fun rmax w9 h9 => ?_
  have h79 := le_trans h8 h9
  -- both branches write through the parent's pointer, which stays linked
  refine match_ite ?_ ?_
  · refine match_bind (match_internalNodeChild (h79 ha7) _) fun l w10 h10 => ?_
    have h710 := le_trans h79 h10
    refine match_bind (match_store (h710 ha7) _ _) fun _ w11 h11 => ?_
    have h711 := le_trans h710 h11
    refine match_bind (match_getNodeMaxKey fuel (h711 hd)) fun k w12 h12 => ?_
    have h712 := le_trans h711 h12
    exact match_bind (match_store (h712 ha7) _ _) fun _ w13 h13 => match_store (h13 (h712 ha7)) _ _
  · refine match_bind (match_shiftInternalCells _ _ (h79 ha7)) fun _ w10 h10 => ?_
    have h710 := le_trans h79 h10
    refine match_bind (match_internalNodeChild (h710 ha7) _) fun l w11 h11 => ?_
    have h711 := le_trans h710 h11
    exact match_bind (match_store (h711 ha7) _ _) fun _ w12 h12 => match_store (h12 (h711 ha7)) _ _

theorem match_internalNodeInsert : ∀ (fuel : ℕ) {w : Links} (g c : ℕ),
    Match Eq' w (internalNodeInsert fuel g c) (internalNodeInsert fuel g c)
  | 0, _, _, _ => match_internalNodeInsertStep (fun _ _ _ => match_fault _) _ _ _
  | fuel + 1, _, _, _ =>
    match_internalNodeInsertStep
      (fun _ _ _ => match_internalNodeSplitAndInsert
        (fun g c _ => match_internalNodeInsert fuel g c) _ _ _) _ _ _

/-! ## Insertion into leaves -/

theorem match_splitLeafCell (ha : (a, p) ∈ w) (hb : (b, q) ∈ w) (c key : ℕ) (row : Row) (i : ℕ) :
    Match Eq' w (splitLeafCell a b c key row i) (splitLeafCell p q c key row i) := by
  have hd :
      ((if i ≥ leafNodeLeftSplitCount then b else a),
        (if i ≥ leafNodeLeftSplitCount then q else p)) ∈ w := by
    split
    · exact hb
    · exact ha
  exact match_ite (match_bind (match_fill hd _ _) fun _ _ h1 => match_store (h1 hd) _ _)
    (match_ite (match_memcpy hd ha _ _ _) (match_memcpy hd ha _ _ _))

theorem match_splitLeafCells (c key : ℕ) (row : Row) :
    ∀ count {w : Links}, (a, p) ∈ w → (b, q) ∈ w →
    Match Eq' w (splitLeafCells a b c key row count) (splitLeafCells p q c key row count) := by
  intro count
  induction count with
  | zero => intro w _ _; exact match_ret _
  | succ count ih =>
    intro w ha hb
    exact match_bind (match_splitLeafCell ha hb _ _ _ _) fun _ _ h1 => ih (h1 ha) (h1 hb)

theorem match_leafNodeSplit (fuel : ℕ) (cursor : Cursor) (key : ℕ) (row : Row) :
    Match Eq' w (leafNodeSplit fuel cursor key row) (leafNodeSplit fuel cursor key row) := by
  refine match_bind_ptr (match_getPage _) fun a p w1 _ ha => ?_
  refine match_bind (match_getNodeMaxKey fuel ha) fun oldMax w2 h2 => ?_
  refine match_bind match_getUnusedPage fun n w3 h3 => ?_
  refine match_bind_ptr (match_getPage _) fun b q w4 h4 hb => ?_
  -- the two leaves stay linked through all that follows
  have ha4 := h4 (h3 (h2 ha))
  refine match_bind (match_initializeLeafNode hb) fun _ w5 h5 => ?_
  refine match_bind (match_load (h5 ha4) _) fun par w6 h6 => ?_
  have h46 := le_trans h5 h6
  refine match_bind (match_store (h46 hb) _ _) fun _ w7 h7 => ?_
  have h47 := le_trans h46 h7
  refine match_bind (match_load (h47 ha4) _) fun next w8 h8 => ?_
  have h48 := le_trans h47 h8
  refine match_bind (match_store (h48 hb) _ _) fun _ w9 h9 => ?_
  have h49 := le_trans h48 h9
  refine match_bind (match_store (h49 ha4) _ _) fun _ w10 h10 => ?_
  have h410 := le_trans h49 h10
  refine match_bind (match_splitLeafCells _ _ _ _ (h410 ha4) (h410 hb)) fun _ w11 h11 => ?_
  have h411 := le_trans h410 h11
  refine match_bind (match_store (h411 ha4) _ _) fun _ w12 h12 => ?_
  have h412 := le_trans h411 h12
  refine match_bind (match_store (h412 hb) _ _) fun _ w13 h13 => ?_
  have h413 := le_trans h412 h13
  refine match_bind (match_isNodeRoot (h413 ha4)) fun root w14 h14 =>
    match_ite (match_bind (match_createNewRoot _ _) fun _ _ _ => match_ret _) ?_
  have h414 := le_trans h413 h14
  refine match_bind (match_load (h414 ha4) _) fun g w15 h15 => ?_
  have h415 := le_trans h414 h15
  refine match_bind (match_getNodeMaxKey fuel (h415 ha4)) fun newMax w16 _ => ?_
  refine match_bind_ptr (match_getPage _) fun c r w17 _ hc => ?_
  refine match_bind (match_internalNodeFindChild hc _) fun i w18 h18 => ?_
  exact match_bind (match_updateInternalNodeKey (h18 hc) _ _) fun _ _ _ => match_ret _

theorem match_shiftLeafCells (c : ℕ) : ∀ n {w : Links}, (a, p) ∈ w →
    Match Eq' w (shiftLeafCells a c n) (shiftLeafCells p c n) := by
  intro n
  induction n with
  | zero => intro w _; exact match_ret _
  | succ n ih =>
    intro w h
    exact match_ite (match_bind (match_memcpy h h _ _ _) fun _ _ h1 => ih (h1 h)) (match_ret _)

theorem match_parentStage (fuel : ℕ) : ∀ o, Match Eq' w (parentStage fuel o) (parentStage fuel o)
  | none => match_ret _
  | some _ => match_internalNodeInsert _ _ _

theorem match_leafNodeSplitAndInsert (fuel : ℕ) (cursor : Cursor) (key : ℕ) (row : Row) :
    Match Eq' w (leafNodeSplitAndInsert fuel cursor key row)
      (leafNodeSplitAndInsert fuel cursor key row) := by
  rw [leafNodeSplitAndInsert_eq]
  exact match_bind (match_leafNodeSplit _ _ _ _) fun o _ _ => match_parentStage _ o

theorem match_leafNodeInsertStep (cursor : Cursor) (key : ℕ) (row : Row) {split : Prog Addr Unit}
    {split' : Prog ℕ Unit}
    (hsplit : ∀ w, Match Eq' w split split') :
    Match Eq' w (leafNodeInsertStep cursor key row split)
      (leafNodeInsertStep cursor key row split') := by
  refine match_bind_ptr (match_getPage _) fun a p w1 _ ha => ?_
  refine match_bind (match_load ha _) fun n w2 h2 => match_ite (hsplit w2) ?_
  -- the rest, whether or not cells are shifted
  have hrest : ∀ w3, w2 ≤ w3 → Match Eq' w3
      (do
        store a .numCells (u32 ((← load a .numCells) + 1))
        store a (.leafKey cursor.cellNum) key
        fill a (.leafValue cursor.cellNum) row.serialize)
      (do
        store p .numCells (u32 ((← load p .numCells) + 1))
        store p (.leafKey cursor.cellNum) key
        fill p (.leafValue cursor.cellNum) row.serialize) := by
    intro w3 h3
    have ha3 := h3 (h2 ha)
    refine match_bind (match_load ha3 _) fun k w4 h4 => ?_
    refine match_bind (match_store (h4 ha3) _ _) fun _ w5 h5 => ?_
    have h35 := le_trans h4 h5
    refine match_bind (match_store (h35 ha3) _ _) fun _ w6 h6 => ?_
    exact match_fill (h6 (h35 ha3)) _ _
  exact match_ite (match_bind (match_shiftLeafCells _ _ (h2 ha)) fun _ w3 h3 => hrest w3 h3)
    (hrest w2 le_rfl)

/-- `leaf_node_insert` over entries and over page numbers. -/
theorem match_leafNodeInsert (fuel : ℕ) (cursor : Cursor) (key : ℕ) (row : Row) :
    Match Eq' w (leafNodeInsert fuel cursor key row) (leafNodeInsert fuel cursor key row) :=
  match_leafNodeInsertStep cursor key row fun _ => match_leafNodeSplitAndInsert fuel cursor key row

/-! ## Using a table -/

theorem match_initializeTable : Match Eq' w initializeTable initializeTable := by
  refine match_bind_ptr (match_getPage _) fun a p w1 _ ha => ?_
  refine match_bind (match_initializeLeafNode ha) fun _ w2 _ => ?_
  exact match_bind_ptr (match_getPage _) fun b q w3 _ hb => match_setNodeRoot hb _

theorem match_insertRow (fuel : ℕ) (op : Insertion) :
    Match Eq' w (insertRow fuel op) (insertRow fuel op) :=
  match_bind (match_tableFind _ _) fun _ _ _ => match_leafNodeInsert _ _ _ _

/-- A list of insertions over entries and over page numbers, one after another. -/
theorem match_insertRows (fuel : ℕ) : ∀ (ops : List Insertion) {w : Links},
    Match Eq' w (insertRows fuel ops) (insertRows fuel ops)
  | [], _ => match_ret _
  | _ :: ops, _ => match_bind (match_insertRow _ _) fun _ _ _ => match_insertRows fuel ops

theorem match_tableStart (fuel : ℕ) : Match Eq' w (tableStart fuel) (tableStart fuel) := by
  refine match_bind (match_tableFind _ _) fun c w1 _ => ?_
  refine match_bind_ptr (match_getPage _) fun a p w2 _ ha => ?_
  exact match_bind (match_load ha _) fun _ _ _ => match_ret _

theorem match_advance (c : Cursor) : Match Eq' w c.advance c.advance := by
  refine match_bind_ptr (match_getPage _) fun a p w1 _ ha => ?_
  refine match_bind (match_load ha _) fun n w2 h2 => match_ite ?_ (match_ret _)
  exact match_bind (match_load (h2 ha) _) fun k _ _ => match_ite (match_ret _) (match_ret _)

/-- The loop of `select` over entries and over page numbers. -/
theorem match_scanFrom : ∀ (steps : ℕ) (c : Cursor) {w : Links},
    Match Eq' w (scanFrom steps c) (scanFrom steps c)
  | 0, _, _ => match_fault _
  | steps + 1, c, _ => by
    refine match_ite (match_ret _) ?_
    refine match_bind_ptr (match_getPage _) fun a p w1 _ ha => ?_
    refine match_bind (match_load ha _) fun k w2 _ => ?_
    refine match_bind (match_advance c) fun c' w3 _ => ?_
    exact match_bind (match_scanFrom steps c') fun _ _ _ => match_ret _

theorem match_scan (fuel steps : ℕ) : Match Eq' w (scan fuel steps) (scan fuel steps) :=
  match_bind (match_tableStart _) fun _ _ _ => match_scanFrom _ _

end ToySQL
