import ToySQL.Proof.Counted

/-!
# Code that takes no page

Code that never asks for the unused page does not see the counter of the pager. It runs as
on the pager that counts all pages of the file, where every page in the cache is counted.

* `Pager.run_recount`: the two runs agree.
* `Pager.Wf.wp_flat`: what a run in flat memory does, the run on any pager in order does.
-/

namespace ToySQL

open Program

namespace Pager

/-- The same pager with all pages counted. -/
def recount (s : Pager) : Pager := { s with numPages := filePagesNum }

/-- What code does that takes no page. -/
def NoAlloc : PagerOp Addr → Prop
  | .getUnusedPage => False
  | _ => True

variable {s : Pager} {p : ℕ} {a : Addr}

/-- With the page count set right a table is counted. -/
theorem Wf.recount (h : s.Wf) : s.recount.Counted := by
  refine ⟨⟨h.toCached.congr rfl rfl fun _ => rfl, h.file⟩, fun p a ha => ?_⟩
  obtain ⟨hmem, hp⟩ := (h.lookup p a).1 ha
  rw [← hp]
  exact (h.lt a hmem).2

/-- `get_page` does not look at the page count. -/
theorem recount_getPage (s : Pager) (p : ℕ) :
    (s.getPage p).1 = (s.recount.getPage p).1 ∧
    (s.getPage p).2.recount = (s.recount.getPage p).2 := by
  rcases lt_or_ge p filePagesNum with hp | hp
  · have hp' : ¬ p ≥ filePagesNum := not_le.2 hp
    -- the page asked for is not behind the pages of the file
    have hcount : ∀ t : Pager,
        Pager.recount (if p = t.getUnusedPage then { t with numPages := t.numPages + 1 } else t) =
        if p = t.recount.getUnusedPage then
          { t.recount with numPages := t.recount.numPages + 1 } else t.recount := by
      intro t
      rw [if_neg (show p ≠ t.recount.getUnusedPage from hp.ne)]
      split <;> rfl
    unfold getPage
    rw [if_neg hp', if_neg hp', show s.recount.cache = s.cache from rfl]
    rcases s.cache.getPage p with ⟨_ | entry, cache⟩
    · simp only [show s.recount.file = s.file from rfl, show s.recount.uninit = s.uninit from rfl,
        show s.recount.heap = s.heap from rfl]
      by_cases hfail : (s.file.seekg (u32 (p * pageSize))).fail = true
      · rw [if_pos hfail, if_pos hfail]
        exact ⟨rfl, rfl⟩
      · rw [if_neg hfail, if_neg hfail]
        refine ⟨rfl, ?_⟩
        rcases (PageCache.addPage _ _ _) with ⟨_ | lru, cache'⟩
        · exact hcount _
        · exact hcount _
    · exact ⟨rfl, rfl⟩
  · rw [getPage_of_ge hp, getPage_of_ge hp]
    exact ⟨rfl, rfl⟩

/-- Only `get_unused_page_num` looks at the page count. -/
theorem recount_step (o : PagerOp Addr) (s : Pager) (ho : NoAlloc o) :
    (handler o s).1 = (handler o s.recount).1 ∧
    (handler o s).2.recount = (handler o s.recount).2 := by
  have hif : ∀ {α : Type} {C : Prop} [Decidable C] {x y : Except Fault α × Pager}, y =
      (x.1, x.2.recount) →
      (if C then x else (.error .outOfPage, s)).1 =
        (if C then y else (.error .outOfPage, s.recount)).1 ∧
        (if C then x else (.error .outOfPage, s)).2.recount =
          (if C then y else (.error .outOfPage, s.recount)).2 := by
    intro α C _ x y hxy
    split
    · rw [hxy]
      exact ⟨rfl, rfl⟩
    · exact ⟨rfl, rfl⟩
  cases o with
  | getPage p => exact recount_getPage s p
  | getUnusedPage => exact ho.elim
  | load a l => exact hif rfl
  | store a l v => exact hif rfl
  | memcpy dst dl src sl n => exact hif rfl
  | fill dst dl n b => exact hif rfl

/-- **The counter does not matter** to code that takes no page. -/
theorem run_recount {α : Type} {f : Prog Addr α} (hf : Only NoAlloc f) (s : Pager) :
    (f.run handler s).1 = (f.run handler s.recount).1 ∧
    (f.run handler s).2.recount = (f.run handler s.recount).2 :=
  hf.run_map (J := fun _ => True) recount
    (fun o s ho _ => ⟨(recount_step o s ho).1, (recount_step o s ho).2, trivial⟩) s trivial

/-- **What a run in flat memory does, the run on any pager does**, for code that takes no page
where it does not fault. -/
theorem Wf.wp_flat {α : Type} {f f' : Prog Addr α} {g : Prog ℕ α} {T : ℕ → Prop} [DecidablePred T]
    {Q : α → Mem → Prop} (h : s.Wf) (hfits : Fits T s.cache.maxPages) (hf : Only NoAlloc f')
    (hext : Extends f' f)
    (hmatch : ∀ w, Match Eq' w f' g)
    (hwp : Program.wp (Mem.handler (fun _ => True) T) g Q (fun _ _ => False) s.recount.flat) :
    ∃ a s', f.run handler s = (.ok a, s') ∧ s'.Wf ∧ s'.cache.maxPages = s.cache.maxPages ∧
      ∃ m', Q a m' ∧ ∀ q < filePagesNum, s'.page q = m'.page q := by
  have hflat := h.recount.flat.wp s.recount.flat_tight hfits (fun q hq => (hfits.lt q hq).le)
    hmatch hwp fun _ _ h => h
  rw [strict_true] at hflat
  obtain ⟨a, s₁, hrun, hmax, m', hQ, hflat₁⟩ :=
    wp_total (wp_mono hflat (fun _ _ h => h) fun _ _ h => h.2.choose_spec.1)
  obtain ⟨hres, hstate⟩ := run_recount hf s
  rw [hrun] at hres hstate
  rcases hr : f'.run handler s with ⟨r, s'⟩
  rw [hr] at hres hstate
  obtain rfl : r = .ok a := hres
  obtain rfl : s'.recount = s₁ := hstate
  refine ⟨a, s', hext.run hr, ⟨?_, hflat₁.counted.wf.file⟩, hmax, m', hQ, hflat₁.page⟩
  exact hflat₁.counted.wf.toCached.congr rfl rfl fun _ => rfl

end Pager

/-! ## Code that takes no page -/

open Pager

/-- `get_node_max_key` gets pages and reads them. -/
theorem only_getNodeMaxKey {C : PagerOp Addr → Prop} (hget : ∀ n, C (.getPage n))
    (hload : ∀ a l, C (.load a l)) (fuel : ℕ) (a : Addr) : Only C (getNodeMaxKey fuel a) := by
  have hstep : ∀ (next : Addr → Prog Addr ℕ) (a : Addr), (∀ b, Only C (next b)) →
      Only C (getNodeMaxKeyStep next a) := by
    intro next a hnext
    refine Only.bind ⟨hload _ _, fun _ => trivial⟩ fun _ => Only.ite ?_ ?_
    · exact Only.bind ⟨hload _ _, fun _ => trivial⟩ fun _ =>
        Only.ite trivial ⟨hload _ _, fun _ => trivial⟩
    · refine Only.bind ⟨hload _ _, fun _ => trivial⟩ fun _ =>
        Only.ite ?_ ⟨hload _ _, fun _ => trivial⟩
      exact ⟨hload _ _, fun _ => ⟨hget _, fun b => hnext b⟩⟩
  induction fuel generalizing a with
  | zero => exact hstep _ a fun _ => trivial
  | succ fuel ih => exact hstep _ a ih

/-- `get_node_max_key` allocates no page. -/
theorem noAlloc_getNodeMaxKey (fuel : ℕ) (a : Addr) : Only NoAlloc (getNodeMaxKey fuel a) :=
  only_getNodeMaxKey (fun _ => trivial) (fun _ _ => trivial) fuel a

theorem only_leafNodeFindLoop (data : Addr) (key : ℕ) : ∀ rounds lo hi ans,
    Only NoAlloc (leafNodeFindLoop data key rounds lo hi ans) := by
  intro rounds
  induction rounds with
  | zero => exact fun _ _ _ => trivial
  | succ rounds ih =>
    intro lo hi ans
    unfold leafNodeFindLoop
    refine Only.ite ⟨trivial,
      fun _ => Only.ite trivial (Only.ite (Only.ite trivial (ih _ _ _)) (ih _ _ _))⟩ trivial

theorem only_leafNodeFind (pageNum key : ℕ) : Only NoAlloc (leafNodeFind pageNum key) := by
  refine ⟨trivial, fun data => ⟨trivial, fun _ => Only.ite trivial ?_⟩⟩
  exact (only_leafNodeFindLoop data key _ _ _ _).bind fun _ => trivial

theorem only_shiftLeafCells {C : PagerOp Addr → Prop}
    (hC : ∀ dst dl src sl n, C (.memcpy dst dl src sl n)) (data : Addr)
    (cellNum n : ℕ) : Only C (shiftLeafCells data cellNum n) := by
  induction n with
  | zero => trivial
  | succ i ih =>
    unfold shiftLeafCells
    exact Only.ite ⟨hC _ _ _ _ _, fun _ => ih⟩ trivial

/-- `leaf_node_insert` allocates no page if its split does not. -/
theorem only_leafNodeInsertStep {cursor : Cursor} {key : ℕ} {row : Row} {split : Prog Addr Unit}
    (hsplit : Only NoAlloc split) :
    Only NoAlloc (leafNodeInsertStep cursor key row split) := by
  refine ⟨trivial, fun data => ⟨trivial, fun _ => Only.ite hsplit ?_⟩⟩
  have hrest : Only NoAlloc (do
      store data .numCells (u32 ((← load data .numCells) + 1))
      store data (.leafKey cursor.cellNum) key
      fill data (.leafValue cursor.cellNum) row.serialize) :=
    ⟨trivial, fun _ => ⟨trivial, fun _ => ⟨trivial, fun _ => ⟨trivial, fun _ => trivial⟩⟩⟩⟩
  exact Only.ite ((only_shiftLeafCells (fun _ _ _ _ _ => trivial) data _ _).bind fun _ =>
    hrest) hrest

/-- The insertion where it needs no split. -/
theorem extends_leafNodeInsert (fuel : ℕ) (cursor : Cursor) (key : ℕ) (row : Row) :
    Extends (leafNodeInsertStep cursor key row (fault .noReturn))
      (leafNodeInsert fuel cursor key row : Prog Addr Unit) := by
  rw [leafNodeInsert_eq_step]
  exact .bind_same _ fun _ => .bind_same _ fun _ => .ite .fail (.refl _)

theorem only_internalNodeFindChildLoop (node : Addr) (key : ℕ) : ∀ rounds lo hi ans,
    Only NoAlloc (internalNodeFindChildLoop node key rounds lo hi ans) := by
  intro rounds
  induction rounds with
  | zero => exact fun _ _ _ => trivial
  | succ rounds ih =>
    intro lo hi ans
    unfold internalNodeFindChildLoop
    exact Only.ite ⟨trivial, fun _ => Only.ite (Only.ite trivial (ih _ _ _)) (ih _ _ _)⟩ trivial

theorem only_internalNodeFindChild (node : Addr) (key : ℕ) :
    Only NoAlloc (internalNodeFindChild node key) :=
  ⟨trivial, fun _ => Only.ite (only_internalNodeFindChildLoop node key _ _ _ _) trivial⟩

theorem only_internalNodeChild (node : Addr) (i : ℕ) : Only NoAlloc (internalNodeChild node i) := by
  refine ⟨trivial, fun _ => Only.ite trivial (Only.ite ?_ ?_)⟩
  · exact ⟨trivial, fun _ => Only.ite trivial trivial⟩
  · exact ⟨trivial, fun _ => Only.ite trivial trivial⟩

theorem only_shiftInternalCells (parent : Addr) (index n : ℕ) :
    Only NoAlloc (shiftInternalCells parent index n) := by
  induction n with
  | zero => trivial
  | succ i ih =>
    unfold shiftInternalCells
    exact Only.ite ⟨trivial, fun _ => ih⟩ trivial

/-- `internal_node_insert` allocates no page if its split does not. -/
theorem only_internalNodeInsertStep {split : ℕ → ℕ → Prog Addr Unit}
    (hsplit : ∀ p c, Only NoAlloc (split p c)) (fuel p c : ℕ) :
    Only NoAlloc (internalNodeInsertStep split fuel p c) := by
  refine ⟨trivial, fun parent =>
    ⟨trivial, fun child => (noAlloc_getNodeMaxKey fuel child).bind fun childMaxKey => ?_⟩⟩
  refine (only_internalNodeFindChild parent childMaxKey).bind fun index =>
    ⟨trivial, fun n => Only.ite (hsplit p c) ?_⟩
  refine ⟨trivial, fun right => Only.ite ⟨trivial, fun _ => trivial⟩ ⟨trivial,
    fun rightChild => ⟨trivial, fun _ => ?_⟩⟩⟩
  refine (noAlloc_getNodeMaxKey fuel rightChild).bind fun _ => Only.ite ?_ ?_
  · refine (only_internalNodeChild parent n).bind fun _ => ⟨trivial, fun _ => ?_⟩
    exact (noAlloc_getNodeMaxKey fuel rightChild).bind fun _ =>
      ⟨trivial, fun _ => ⟨trivial, fun _ => trivial⟩⟩
  · refine (only_shiftInternalCells parent index n).bind fun _ => ?_
    exact (only_internalNodeChild parent index).bind fun _ =>
      ⟨trivial, fun _ => ⟨trivial, fun _ => trivial⟩⟩

/-- The insertion of a child where it needs no split. -/
theorem extends_internalNodeInsert (fuel p c : ℕ) :
    Extends (internalNodeInsertStep (fun _ _ => fault .noReturn) fuel p c)
      (internalNodeInsert fuel p c : Prog Addr Unit) := by
  have hstep : ∀ (split : ℕ → ℕ → Prog Addr Unit) (fuel : ℕ),
      Extends (internalNodeInsertStep (fun _ _ => fault .noReturn) fuel p c)
        (internalNodeInsertStep split fuel p c) := by
    intro split fuel
    refine .bind_same _ fun _ => .bind_same _ fun _ => .bind_same _ fun _ => .bind_same _ fun _ =>
      .bind_same _ fun _ => ?_
    exact .ite .fail (.refl _)
  cases fuel with
  | zero => exact hstep _ 0
  | succ fuel => exact hstep _ (fuel + 1)

end ToySQL
