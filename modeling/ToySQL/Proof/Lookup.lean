import ToySQL.Proof.Forest
import ToySQL.Spec.BTree

/-!
# Lookup, over any environment

`table_find` holds one pointer at a time, so all it needs of its environment is that it can
read a page right after it got it (`Readable`). The cache may be of any size.

* `BTree.run_tableFind`: on a tree the result depends on nothing but the pages.
-/

namespace ToySQL

open Program

variable {P σ : Type} {h : Handler (pagerInterface P) Fault σ} {I : σ → Prop} {s : σ} {a : P}
    {pg : Page} {page : ℕ → Page}
  {n p q key : ℕ}

/-- The pointer `a` leads to the contents `pg`, and reading them changes nothing. -/
def PageAt (h : Handler (pagerInterface P) Fault σ) (s : σ) (a : P) (pg : Page) : Prop :=
  ∀ l : Loc, l.offset + l.width ≤ pageSize → h (.load a l) s = (.ok (pg.load l), s)

/-- Every page below `n` can be got and read, and keeping it so is an invariant. -/
def Readable (h : Handler (pagerInterface P) Fault σ) (I : σ → Prop) (n : ℕ) (page : ℕ → Page) :
    Prop :=
  ∀ s p, I s → p < n → ∃ a s', h (.getPage p) s = (.ok a, s') ∧ I s' ∧ PageAt h s' a (page p)

namespace PageAt

/-- Reading a field of the header of a page. -/
theorem header (hpg : PageAt h s a pg) {l : Loc} (hl : l.Header) :
    h (.load a l) s = (.ok (pg.load l), s) :=
  hpg l (le_trans hl.end_le (by decide))

theorem run_load {α : Type} (hpg : PageAt h s a pg) {l : Loc} (hl : l.offset + l.width ≤ pageSize)
    (f : ℕ → Prog P α) :
    (load a l >>= f).run h s = (f (pg.load l)).run h s := by
  rw [run_bind, load]
  simp only [perform, run, hpg l hl]

/-- A read of the header, and the code behind it. -/
theorem run_header {α : Type} (hpg : PageAt h s a pg) {l : Loc} (hl : l.Header) (f : ℕ → Prog P α) :
    (load a l >>= f).run h s = (f (pg.load l)).run h s :=
  hpg.run_load (le_trans hl.end_le (by decide)) f

/-- The separators of a page, as the search reads them. -/
theorem keysAt (hpg : PageAt h s a pg) (hn : pg.numKeys ≤ 500) :
    KeysAt h s a pg.numKeys pg.sep := by
  refine ⟨hpg.header .numKeys, fun i hi => hpg _ ?_⟩
  rw [Loc.offset_internalKey (by omega)]
  show _ + 4 ≤ 4096
  omega

/-- The keys of a leaf, as the search reads them. -/
theorem cellsAt (hpg : PageAt h s a pg) (hn : pg.numCells ≤ leafNodeMaxCells) :
    CellsAt h s a pg.numCells pg.key := by
  refine ⟨hpg.header .numCells, fun i hi => hpg _ ?_⟩
  have hlt : i < 15 := hi.trans_le hn
  exact (Mem.access_leafKey hlt : Mem.Access (fun _ => True) pg _).1

theorem run_getNodeType {α : Type} (hpg : PageAt h s a pg) (f : NodeType → Prog P α) :
    (getNodeType a >>= f).run h s = (f pg.type).run h s := by
  unfold getNodeType
  rw [bind_assoc, hpg.run_header .nodeType]
  rfl

/-- Whichever slot it is, the child is read from it. -/
theorem run_loadChild {α : Type} (hpg : PageAt h s a pg) (hn : pg.numKeys ≤ 500) {i : ℕ}
    (hi : i ≤ pg.numKeys)
    (hv : pg.childAt i ≠ invalidPageNum) (f : ℕ → Prog P α) :
    (do f (← load a (← internalNodeChild a i))).run h s = (f (pg.childAt i)).run h s := by
  have hk : pg.load .numKeys = pg.numKeys := rfl
  unfold internalNodeChild
  rw [bind_assoc, hpg.run_header .numKeys, hk, if_neg (not_lt.2 hi)]
  unfold Page.childAt at hv ⊢
  rcases hi.lt_or_eq with hlt | heq
  · rw [if_pos hlt] at hv ⊢
    have hcell : (Loc.internalCell i).offset + (Loc.internalCell i).width ≤ pageSize :=
      (Mem.access_internalCell (by omega) : Mem.Access (fun _ => True) pg _).1
    rw [if_neg hlt.ne, bind_assoc, hpg.run_load hcell,
      if_neg (show ¬ pg.load (.internalCell i) = invalidPageNum from hv)]
    exact hpg.run_load hcell f
  · rw [if_neg heq.not_lt] at hv ⊢
    rw [if_pos heq, bind_assoc, hpg.run_header .rightChild,
      if_neg (show ¬ pg.load .rightChild = invalidPageNum from hv)]
    exact hpg.run_header .rightChild f

end PageAt

/-! ## The descent -/

/-- What looking a key up from the node `p` comes to: the cell of a leaf below it, or a recursion
that is too deep. -/
inductive Lookup (page : ℕ → Page) (n key : ℕ) (p : ℕ) : Except Fault Cursor → Prop where
  | deep : Lookup page n key p (.error .noReturn)
  | leaf {q : ℕ} :
    Relation.ReflTransGen (fun p q => (page p).isInternal = true ∧ q ∈ (page p).children) p q →
      q < n → (page q).isLeaf = true → (page q).numCells ≤ leafNodeMaxCells →
      Lookup page n key p (.ok (makeCursor q ((page q).findCell key)))

/-- A lookup in a node is one in one of its children. -/
theorem Lookup.cons {r : Except Fault Cursor} (hp : (page p).isInternal = true)
    (hq : q ∈ (page p).children)
    (h : Lookup page n key q r) : Lookup page n key p r := by
  cases h with
  | deep => exact .deep
  | leaf hpath hlt hl hcells => exact .leaf (.head ⟨hp, hq⟩ hpath) hlt hl hcells

/-- A program that always ends the same way. -/
def EndsIn (h : Handler (pagerInterface P) Fault σ) (I : σ → Prop) (f : Prog P Cursor)
    (r : Except Fault Cursor) : Prop :=
  ∀ s, I s → ∃ s', f.run h s = (r, s') ∧ I s'

/-- The search of a leaf ends at the cell of the key. -/
theorem Readable.leafNodeFind (hr : Readable h I n page) (hp : p < n)
    (hn : (page p).numCells ≤ leafNodeMaxCells) :
    EndsIn h I (leafNodeFind p key) (.ok (makeCursor p ((page p).findCell key))) := by
  intro s hs
  obtain ⟨a, s', hget, hs', hpg⟩ := hr s p hs hp
  exact ⟨s', run_leafNodeFind hget (hpg.cellsAt hn) (lt_of_le_of_lt hn (by decide)) key, hs'⟩

namespace BTree

theorem lt (hb : BTree page n p) : p < n := by
  cases hb with
  | leaf hp _ _ => exact hp
  | node hp _ _ _ _ _ => exact hp

/-- A leaf that fits, or a node. -/
theorem leaf_or_internal (hb : BTree page n p) :
    (page p).type = .leaf ∧ (page p).isLeaf = true ∧ (page p).numCells ≤ leafNodeMaxCells ∨
      (page p).type = .internal ∧ (page p).isInternal = true := by
  cases hb with
  | leaf _ hl hn => exact Or.inl ⟨of_decide_eq_true hl, hl, hn⟩
  | node _ hi _ _ _ _ => exact Or.inr ⟨of_decide_eq_true hi, hi⟩

/-- Every slot the search can give is a child. -/
theorem childAt_mem (pg : Page) (i : ℕ) : pg.childAt i ∈ pg.children := by
  unfold Page.childAt Page.children
  split
  · exact List.mem_append_left _ (List.mem_map.2 ⟨i, List.mem_range.2 ‹_›, rfl⟩)
  · exact List.mem_append_right _ (List.mem_singleton_self _)

theorem childAt (hb : BTree page n p) (hp : (page p).isInternal = true) (i : ℕ) :
    BTree page n ((page p).childAt i) := by
  cases hb with
  | leaf _ hl _ => exact absurd hl (Bool.eq_false_iff.1 (Page.not_isLeaf_of_isInternal hp))
  | node _ _ _ _ _ hchild => exact hchild _ (childAt_mem _ i)

/-- A node of the tree has at most `INTERNAL_NODE_MAX_CELLS` keys. -/
theorem numKeys_le (hb : BTree page n p) (hp : (page p).isInternal = true) :
    (page p).numKeys ≤ internalNodeMaxCells := by
  cases hb with
  | leaf _ hl _ => exact absurd hl (Bool.eq_false_iff.1 (Page.not_isLeaf_of_isInternal hp))
  | node _ _ _ hn _ _ => exact hn

/-- **The descent** ends in the same way from every state. -/
theorem run_internalNodeFind (hr : Readable h I n page) (hn : n ≤ filePagesNum) (key : ℕ) :
    ∀ fuel p, BTree page n p → (page p).isInternal = true →
    ∃ r, Lookup page n key p r ∧ EndsIn h I (internalNodeFind fuel p key) r := by
  -- one step: to the child, and down from there if the child is not a leaf
  have hstep : ∀ (next : ℕ → Prog P Cursor) p, BTree page n p → (page p).isInternal = true →
      (∀ q, BTree page n q → (page q).isInternal = true → ∃ r, Lookup page n key q r ∧
        EndsIn h I (next q) r) →
      ∃ r, Lookup page n key p r ∧ EndsIn h I (internalNodeFindStep next p key) r := by
    intro next p hb hi hnext
    have hle : (page p).numKeys ≤ 500 := (hb.numKeys_le hi).trans (by decide)
    have hq := hb.childAt hi ((page p).findChild key)
    have hmem := childAt_mem (page p) ((page p).findChild key)
    have hv : (page p).childAt ((page p).findChild key) ≠ invalidPageNum :=
      ((hq.lt.trans_le hn).trans (by decide)).ne
    generalize hchild : (page p).childAt ((page p).findChild key) = q at hq hmem hv
    -- the child is read, and then a leaf is searched or a node descended
    have hdown : ∀ (f : Prog P Cursor) (r : Except Fault Cursor), EndsIn h I f r →
        (∀ s b, I s → PageAt h s b (page q) → (childStage key next q b).run h s = f.run h s) →
        EndsIn h I (internalNodeFindStep next p key) r := by
      intro f r hends hf s hs
      obtain ⟨a, s₁, hget, hs₁, hpg⟩ := hr s p hs hb.lt
      obtain ⟨b, s₂, hget₂, hs₂, hpg₂⟩ := hr s₁ q hs₁ hq.lt
      rw [internalNodeFindStep_eq, run_bind, getPage]
      simp only [perform, run, hget]
      rw [run_bind, run_internalNodeFindChild (hpg.keysAt hle) (by omega)]
      have hfind : searchAll (cmpLe (page p).sep key) (page p).numKeys =
          (page p).findChild key := rfl
      simp only [hfind]
      rw [hpg.run_loadChild hle (Page.findChild_le _ _) (by rw [hchild]; exact hv), hchild,
        run_bind, getPage]
      simp only [perform, run, hget₂]
      obtain ⟨s', hrun, hs'⟩ := hends s₂ hs₂
      exact ⟨s', (hf s₂ b hs₂ hpg₂).trans hrun, hs'⟩
    rcases hq.leaf_or_internal with ⟨ht, hl, hcells⟩ | ⟨ht, hi'⟩
    · refine ⟨_, .leaf (.single ⟨hi, hmem⟩) hq.lt hl hcells,
        hdown _ _ (hr.leafNodeFind hq.lt hcells) fun s b _ hpg => ?_⟩
      rw [childStage, hpg.run_getNodeType, ht]
    · obtain ⟨r, hlook, hends⟩ := hnext q hq hi'
      refine ⟨r, hlook.cons hi hmem, hdown _ r hends fun s b _ hpg => ?_⟩
      rw [childStage, hpg.run_getNodeType, ht]
  intro fuel
  induction fuel with
  | zero => exact fun p hb hi => hstep _ p hb hi fun _ _ _ => ⟨_, .deep, fun s hs => ⟨s, rfl, hs⟩⟩
  | succ fuel ih => exact fun p hb hi => hstep _ p hb hi ih

/-- **`table_find` on a tree** depends on nothing but the pages. -/
theorem run_tableFind (hr : Readable h I n page) (hn : n ≤ filePagesNum)
    (hb : BTree page n rootPageNum) (fuel key : ℕ) :
    ∃ r, Lookup page n key rootPageNum r ∧ EndsIn h I (tableFind fuel key) r := by
  have hroot : ∀ (f : Prog P Cursor) (r : Except Fault Cursor), EndsIn h I f r →
      (∀ s a, I s → PageAt h s a (page rootPageNum) → (rootStage fuel key a).run h s = f.run h s) →
      EndsIn h I (tableFind fuel key) r := by
    intro f r hends hf s hs
    obtain ⟨a, s₁, hget, hs₁, hpg⟩ := hr s rootPageNum hs hb.lt
    rw [tableFind_eq, run_bind, getPage]
    simp only [perform, run, hget]
    obtain ⟨s', hrun, hs'⟩ := hends s₁ hs₁
    exact ⟨s', (hf s₁ a hs₁ hpg).trans hrun, hs'⟩
  rcases hb.leaf_or_internal with ⟨ht, hl, hcells⟩ | ⟨ht, hi⟩
  · refine ⟨_, .leaf .refl hb.lt hl hcells,
      hroot _ _ (hr.leafNodeFind hb.lt hcells) fun s a _ hpg => ?_⟩
    rw [rootStage, hpg.run_getNodeType, ht]
  · obtain ⟨r, hlook, hends⟩ := run_internalNodeFind hr hn key fuel rootPageNum hb hi
    refine ⟨r, hlook, hroot _ r hends fun s a _ hpg => ?_⟩
    rw [rootStage, hpg.run_getNodeType, ht]

end BTree

end ToySQL
