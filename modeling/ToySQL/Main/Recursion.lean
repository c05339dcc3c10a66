import ToySQL.Lib.Deepening
import ToySQL.Main.Height

/-!
# The recursions of an insertion come to an end

* `deepens_insertRow`: an insertion that a bound on the depth of the recursions does not cut off is
  the same with a larger bound.
* `insertRows_ends`: a bound of 9 cuts off no insertion into a new table.
-/

namespace ToySQL

open Program

/-! ## A larger bound -/

section Deeper

variable {P : Type} {fuel fuel' : ℕ} {e : Fault}

theorem deepens_getNodeMaxKeyStep {next next' : P → Prog P ℕ}
    (hnext : ∀ a, Deepens e (next a) (next' a)) (node : P) :
    Deepens e (getNodeMaxKeyStep next node) (getNodeMaxKeyStep next' node) := by
  apply Deepens.same
  intro type
  apply Deepens.ite (.refl _)
  apply Deepens.same
  intro numKeys
  apply Deepens.ite _ (.refl _)
  apply Deepens.same
  intro page
  apply Deepens.same
  intro rightChild
  exact hnext rightChild

/-- A larger bound of `get_node_max_key` changes no result. By induction on it. -/
theorem deepens_getNodeMaxKey : ∀ {fuel fuel'}, fuel ≤ fuel' → ∀ node : P,
    Deepens .noReturn (getNodeMaxKey fuel node) (getNodeMaxKey fuel' node) := by
  intro fuel
  induction fuel with
  | zero =>
    intro fuel' _ node
    cases fuel' with
    | zero => exact .refl _
    | succ fuel' => exact deepens_getNodeMaxKeyStep (fun _ => .cut) node
  | succ fuel ih =>
    intro fuel' hle node
    cases fuel' with
    | zero => exact absurd hle (Nat.not_succ_le_zero fuel)
    | succ fuel' => exact deepens_getNodeMaxKeyStep (ih (Nat.le_of_succ_le_succ hle)) node

theorem deepens_internalNodeFindStep {next next' : ℕ → Prog P Cursor}
    (hnext : ∀ p, Deepens e (next p) (next' p)) (p key : ℕ) :
    Deepens e (internalNodeFindStep next p key) (internalNodeFindStep next' p key) := by
  apply Deepens.same
  intro data
  apply Deepens.same
  intro childIndex
  apply Deepens.same
  intro child
  apply Deepens.same
  intro childNum
  apply Deepens.same
  intro dataChild
  apply Deepens.same
  intro type
  cases type with
  | leaf => exact .refl _
  | internal => exact hnext childNum
  | other v => exact .refl _

/-- A larger bound of `internal_node_find` changes no result. By induction on it. -/
theorem deepens_internalNodeFind (key : ℕ) : ∀ {fuel fuel'}, fuel ≤ fuel' → ∀ p,
    Deepens .noReturn (internalNodeFind fuel p key : Prog P Cursor)
      (internalNodeFind fuel' p key) := by
  intro fuel
  induction fuel with
  | zero =>
    intro fuel' _ p
    cases fuel' with
    | zero => exact .refl _
    | succ fuel' => exact deepens_internalNodeFindStep (fun _ => .cut) p key
  | succ fuel ih =>
    intro fuel' hle p
    cases fuel' with
    | zero => exact absurd hle (Nat.not_succ_le_zero fuel)
    | succ fuel' => exact deepens_internalNodeFindStep (ih (Nat.le_of_succ_le_succ hle)) p key

theorem deepens_tableFind (hle : fuel ≤ fuel') (key : ℕ) :
    Deepens .noReturn (tableFind fuel key : Prog P Cursor) (tableFind fuel' key) := by
  apply Deepens.same
  intro data
  apply Deepens.same
  intro type
  cases type with
  | leaf => exact .refl _
  | internal => exact deepens_internalNodeFind key hle rootPageNum
  | other v => exact .refl _

theorem deepens_linkNewRoot (hle : fuel ≤ fuel') (root left right : P) (l r : ℕ) :
    Deepens .noReturn (linkNewRoot fuel root left right l r)
      (linkNewRoot fuel' root left right l r) :=
  .same _ fun _ => .same _ fun _ => .same _ fun _ => .same _ fun _ => .same _ fun _ =>
    (deepens_getNodeMaxKey hle left).and_then _

theorem deepens_createNewRoot (hle : fuel ≤ fuel') (n : ℕ) :
    Deepens .noReturn (createNewRoot fuel n : Prog P Unit) (createNewRoot fuel' n) := by
  refine .same _ fun root => .same _ fun rightChild => .same _ fun l => .same _ fun leftChild =>
    .same _ fun type => ?_
  have hlink := deepens_linkNewRoot hle root leftChild rightChild l n
  have hrest : Deepens .noReturn
      (do
        memcpy leftChild .start root .start pageSize
        setNodeRoot leftChild false
        if (← getNodeType leftChild) = .internal then
          adoptChildren leftChild l
        linkNewRoot fuel root leftChild rightChild l n)
      (do
        memcpy leftChild .start root .start pageSize
        setNodeRoot leftChild false
        if (← getNodeType leftChild) = .internal then
          adoptChildren leftChild l
        linkNewRoot fuel' root leftChild rightChild l n) :=
    .same _ fun _ => .same _ fun _ => .same _ fun _ => .ite (.same _ fun _ => hlink) hlink
  exact .ite (.same _ fun _ => .same _ fun _ => hrest) hrest

section Split

variable {insert insert' : ℕ → ℕ → Prog P Unit}

/-- The loop that moves children; `insert` is the recursive call. -/
theorem deepens_moveCells (hinsert : ∀ p c, Deepens e (insert p c) (insert' p c)) (oldNode : P)
    (n : ℕ) : ∀ i,
    Deepens e (moveCells insert oldNode n i) (moveCells insert' oldNode n i) := by
  intro i
  induction i with
  | zero => exact .refl _
  | succ i ih =>
    refine .ite (.same _ fun child => .same _ fun curPageNum => .same _ fun cur => ?_) (.refl _)
    exact (hinsert n curPageNum).bind fun _ => .same _ fun _ => .same _ fun _ => .same _ fun _ => ih

theorem deepens_moveUpperHalf (hinsert : ∀ p c, Deepens e (insert p c) (insert' p c)) (oldNode : P)
    (n : ℕ) :
    Deepens e (moveUpperHalf insert oldNode n) (moveUpperHalf insert' oldNode n) := by
  refine .same _ fun curPageNum => .same _ fun cur => (hinsert n curPageNum).bind fun _ =>
    .same _ fun _ => .same _ fun _ => ?_
  exact (deepens_moveCells hinsert oldNode n _).and_then _

theorem deepens_splitHalves (hle : fuel ≤ fuel')
    (hinsert : ∀ p c, Deepens .noReturn (insert p c) (insert' p c))
    (oldNode parent child : P) (p n c oldMax childMax : ℕ) :
    Deepens .noReturn (splitHalves insert fuel oldNode parent child p n c oldMax childMax)
      (splitHalves insert' fuel' oldNode parent child p n c oldMax childMax) := by
  have hmax := deepens_getNodeMaxKey hle oldNode
  refine (deepens_moveUpperHalf hinsert oldNode n).bind fun _ => hmax.bind fun max => ?_
  exact (hinsert _ c).bind fun _ => .same _ fun _ => hmax.and_then _

theorem deepens_internalNodeSplitAndInsert (hle : fuel ≤ fuel')
    (hinsert : ∀ p c, Deepens .noReturn (insert p c) (insert' p c))
    (p c : ℕ) :
    Deepens .noReturn (internalNodeSplitAndInsert insert fuel p c)
      (internalNodeSplitAndInsert insert' fuel' p c) := by
  have hmax := fun node : P => deepens_getNodeMaxKey hle node
  have hhalves := deepens_splitHalves hle hinsert
  refine .same _ fun oldNode => (hmax oldNode).bind fun oldMax => .same _ fun child =>
    (hmax child).bind fun childMax => ?_
  refine .same _ fun n => .same _ fun splittingRoot => .ite ?_ ?_
  · refine (deepens_createNewRoot hle n).bind fun _ => .same _ fun parent => .same _ fun l =>
      .same _ fun oldPageNum => ?_
    exact .same _ fun oldNode => hhalves oldNode parent child oldPageNum n c oldMax childMax
  · refine .same _ fun l => .same _ fun parent => .same _ fun newNode => .same _ fun _ => ?_
    refine (hhalves oldNode parent child p n c oldMax childMax).bind fun _ =>
      .same _ fun grandparent => ?_
    exact (hinsert grandparent n).and_then _

theorem deepens_internalNodeInsertStep {split split' : ℕ → ℕ → Prog P Unit} (hle : fuel ≤ fuel')
    (hsplit : ∀ p c, Deepens .noReturn (split p c) (split' p c)) (p c : ℕ) :
    Deepens .noReturn (internalNodeInsertStep split fuel p c)
      (internalNodeInsertStep split' fuel' p c) := by
  have hmax := fun node : P => deepens_getNodeMaxKey hle node
  refine .same _ fun parent => .same _ fun child => (hmax child).bind fun childMaxKey =>
    .same _ fun index => .same _ fun n => ?_
  refine .ite (hsplit p c)
    (.same _ fun right => .ite (.refl _) (.same _ fun rightChild => .same _ fun _ => ?_))
  refine (hmax rightChild).bind fun rightMax => .ite ?_ (.refl _)
  exact .same _ fun _ => .same _ fun _ => (hmax rightChild).and_then _

end Split

/-- A larger bound of `internal_node_insert` changes no result. By induction on it. -/
theorem deepens_internalNodeInsert : ∀ {fuel fuel'}, fuel ≤ fuel' → ∀ p c,
    Deepens .noReturn (internalNodeInsert fuel p c : Prog P Unit)
      (internalNodeInsert fuel' p c) := by
  intro fuel
  induction fuel with
  | zero =>
    intro fuel' hle p c
    cases fuel' with
    | zero => exact .refl _
    | succ fuel' => exact deepens_internalNodeInsertStep hle (fun _ _ => .cut) p c
  | succ fuel ih =>
    intro fuel' hle p c
    cases fuel' with
    | zero => exact absurd hle (Nat.not_succ_le_zero fuel)
    | succ fuel' =>
      have hle' := Nat.le_of_succ_le_succ hle
      exact deepens_internalNodeInsertStep hle
        (deepens_internalNodeSplitAndInsert hle' (ih hle')) p c

theorem deepens_leafNodeSplitAndInsert (hle : fuel ≤ fuel') (cursor : Cursor) (key : ℕ)
    (row : Row) :
    Deepens .noReturn (leafNodeSplitAndInsert fuel cursor key row : Prog P Unit)
      (leafNodeSplitAndInsert fuel' cursor key row) := by
  have hmax := fun node : P => deepens_getNodeMaxKey hle node
  refine .same _ fun oldData => (hmax oldData).bind fun oldMax => .same _ fun n =>
    .same _ fun newData => .same _ fun _ => ?_
  refine .same _ fun _ => .same _ fun _ => .same _ fun _ => .same _ fun _ => .same _ fun _ =>
    .same _ fun _ => .same _ fun _ => ?_
  refine .same _ fun _ => .same _ fun isRoot => .ite (deepens_createNewRoot hle n) ?_
  refine .same _ fun parentPageNum => (hmax oldData).bind fun newMax => .same _ fun parent =>
    .same _ fun index => ?_
  exact .same _ fun _ => deepens_internalNodeInsert hle parentPageNum n

/-- A larger bound of an insertion changes no result. -/
theorem deepens_insertRow (hle : fuel ≤ fuel') (op : Insertion) :
    Deepens .noReturn (insertRow fuel op : Prog P Unit) (insertRow fuel' op) := by
  refine (deepens_tableFind hle op.key.toNat).bind fun cursor => .same _ fun data =>
    .same _ fun numCells => .ite ?_ (.refl _)
  exact deepens_leafNodeSplitAndInsert hle cursor op.key.toNat op.row

/-- A larger bound of a list of insertions changes no result. -/
theorem deepens_insertRows (hle : fuel ≤ fuel') (ops : List Insertion) :
    Deepens .noReturn (insertRows fuel ops : Prog P Unit) (insertRows fuel' ops) := by
  induction ops with
  | nil => exact .refl _
  | cons op ops ih => exact (deepens_insertRow hle op).bind fun _ => ih

end Deeper

/-! ## The bound is not reached -/

/-- In a tree that fits into the file, no recursion goes deeper than its nodes are high. -/
theorem Tree.wp_insertRows_ends {fuel : ℕ} (hfuel : 9 ≤ fuel) :
    ∀ (ops : List Insertion) (m : Mem) lvl chain, Tree OfFile m lvl chain →
    wp (Mem.handler (fun _ => True) OfFile) (insertRows fuel ops) (fun _ _ => True)
      (fun e _ => e ≠ .noReturn) m := by
  intro ops
  induction ops with
  | nil => exact fun _ _ _ _ => trivial
  | cons op ops ih =>
    intro m lvl chain h
    have hheight := h.height_le
    -- no other fault of an insertion is that of the bound
    have hrange : ∀ e, Fault.outOfRange e ≠ .noReturn := by simp
    have hpage : Fault.outOfPage ≠ .noReturn := by simp
    have hexit : ∀ e, Fault.exit e ≠ .noReturn := by simp
    unfold insertRows
    rw [wp_bind]
    refine h.wp_insertRow_within (fun _ _ => trivial) (fun _ => id) rfl (fun e _ => hrange e)
      (fun hlt => ?_)
      (fun _ _ _ _ _ _ => hpage) (fun _ _ _ _ _ _ e _ => hexit e) (fun _ _ _ _ _ _ _ e _ => hexit e)
      fun m' lvl' chain' h' _ _ => ?_
    · omega
    · exact ih m' lvl' chain' h'

/-- **Insertions come to an end.** Whatever is inserted into a new table, no recursion goes on for
ever: with every bound on their depth from 9 on the insertions have the same outcome, and it is not
that the bound was reached. -/
theorem insertRows_ends (c : ℕ) (hc : filePagesNum ≤ c) (uninit : Addr → Page)
    (ops : List Insertion) :
    ∃ r s, r ≠ .error .noReturn ∧ ∀ fuel ≥ 9,
      Program.run Pager.handler (do initializeTable; insertRows fuel ops)
        (Pager.init File.empty c uninit) = (r, s) := by
  obtain ⟨r, s, m, hrun, hflat, -⟩ := (sim_init c uninit OfFile).run_large (K := fun _ => True) hc
    (f := do initializeTable; insertRows 9 ops) fun _ =>
      match_bind match_initializeTable fun _ _ _ => match_insertRows 9 ops
  rw [Pager.strict_true] at hrun
  have hwp : wp (Mem.handler (fun _ => True) OfFile)
      (do initializeTable; insertRows 9 ops) (fun _ _ => True)
      (fun e _ => e ≠ .noReturn) Mem.empty := by
    rw [wp_bind]
    apply wp_initializeTable (by decide)
    exact Tree.wp_insertRows_ends le_rfl ops _ _ _ (tree_newTable (by decide))
  have hne : r ≠ .error .noReturn := by
    rintro rfl
    exact wp_error hwp hflat rfl
  -- the run with the bound 9 was not cut off, so it is the run with any larger bound
  refine ⟨r, s, hne, fun fuel hfuel => ?_⟩
  have hdeeper : Deepens .noReturn (do initializeTable; insertRows 9 ops : Prog Addr Unit)
      (do initializeTable; insertRows fuel ops) :=
    .same _ fun _ => deepens_insertRows hfuel ops
  rw [hdeeper.run, hrun]
  rw [hrun]
  exact hne

/-- Sixteen rows fill two leaves. -/
theorem insertRows_ends_sixteen : ∃ r s, r ≠ .error .noReturn ∧ ∀ fuel ≥ 9,
    Program.run Pager.handler (do initializeTable; insertRows fuel ((List.range 16).map plain))
      (Pager.init File.empty filePagesNum fun _ => Bytes.zero pageSize) = (r, s) :=
  insertRows_ends filePagesNum le_rfl _ _

end ToySQL
