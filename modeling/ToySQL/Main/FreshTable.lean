import ToySQL.Proof.NoPage

/-!
# A table right after its constructor

The zero bytes of a new file are an internal node with page 0 as its right child, so that
the root of a new table is its own child until it is initialized.

* `wp_internalNodeFind_zero`: the descent from such a root goes on as deep as it may.
* `endsInLeaves_iff`: no run that starts with the constructor looks anything up.
-/

namespace ToySQL

open Program

/-! ## Runs of a table -/

/-- What a user does with a table. -/
inductive TableStep where
  | find (key : UInt32)
  | start
  | insert (op : Insertion)

namespace TableStep

/-- The lookup a step begins with. -/
def lookup (fuel : ℕ) : TableStep → Prog Addr Cursor
  | find key => tableFind fuel key.toNat
  | start => tableStart fuel
  | insert op => tableFind fuel op.key.toNat

/-- What a step goes on with, at the cursor of its lookup. -/
def finish (fuel : ℕ) (cursor : Cursor) : TableStep → Prog Addr Unit
  | find _ => return ()
  | start => return ()
  | insert op => leafNodeInsert fuel cursor op.key.toNat op.row

end TableStep

/-- Every lookup of the run ends in a leaf page, with recursions as deep as `fuel`. A step
that ends in an exception ends the run. -/
def EndsInLeaves (fuel : ℕ) : List TableStep → Pager → Prop
  | [], _ => True
  | now :: rest, s =>
    ∃ cursor s₁, (now.lookup fuel).run Pager.handler s = (.ok cursor, s₁) ∧
      (s₁.page cursor.pageNum).isLeaf = true ∧
        ∀ s₂, (now.finish fuel cursor).run Pager.handler s₁ = (.ok (), s₂) →
          EndsInLeaves fuel rest s₂

/-! ## The zero root -/

/-- The root page is all zero. -/
structure ZeroRoot (s : Pager) : Prop where
  wf : s.Wf
  zero : s.page rootPageNum = Bytes.zero pageSize

namespace ZeroRoot

variable {s s' : Pager} {a : Addr} {key : ℕ}

theorem got (h : ZeroRoot s) (hg : Pager.Wf.Got s rootPageNum a s') :
    ZeroRoot s' ∧ (s'.heap.entry a).data = Bytes.zero pageSize := by
  refine ⟨⟨hg.wf, ?_⟩, ?_⟩
  · rw [hg.page]
    exact h.zero
  · rw [hg.data]
    exact h.zero

theorem wp_getPage {Q : Addr → Pager → Prop} {F : Fault → Pager → Prop} (h : ZeroRoot s)
    (hQ : ∀ a s', ZeroRoot s' → (s'.heap.entry a).data = Bytes.zero pageSize → Q a s') :
    wp Pager.handler (getPage rootPageNum) Q F s := by
  refine Pager.wp_getPage h.wf (by decide) fun a s' hg => ?_
  obtain ⟨h', hdata⟩ := h.got hg
  exact hQ a s' h' hdata

/-- Every field of a zero page is 0. -/
theorem wp_load {Q : ℕ → Pager → Prop} {F : Fault → Pager → Prop} {l : Loc}
    (hdata : (s.heap.entry a).data = Bytes.zero pageSize) (hl : l.offset + l.width ≤ pageSize) :
    wp Pager.handler (load a l) Q F s ↔ Q 0 s := by
  rw [Pager.wp_load hl, hdata]
  exact iff_of_eq (congrArg (Q · s) (Bytes.toNat_slice_zero _ _ _))

/-- One level of the descent leads back to the root. -/
theorem wp_internalNodeFindStep {next : ℕ → Prog Addr Cursor} (h : ZeroRoot s)
    (hnext : ∀ s', ZeroRoot s' →
      wp Pager.handler (next rootPageNum) (fun _ _ => False) (fun e _ => e = .noReturn) s') :
    wp Pager.handler (internalNodeFindStep next rootPageNum key) (fun _ _ => False)
    (fun e _ => e = .noReturn) s := by
  unfold internalNodeFindStep
  rw [wp_bind]
  refine h.wp_getPage fun a s₁ h₁ ha => ?_
  unfold internalNodeFindChild internalNodeChild
  rw [wp_bind, wp_bind, wp_load ha (by decide)]
  -- without keys the child is the right one, which is the root
  rw [if_neg (not_not.2 rfl), Program.pure_eq, wp_ret, wp_bind, wp_bind, wp_load ha (by decide),
    if_neg (lt_irrefl 0),
    if_pos rfl, wp_bind, wp_load ha (by decide), if_neg (by decide), Program.pure_eq,
    wp_ret, wp_bind,
    wp_load ha (by decide), wp_bind]
  refine h₁.wp_getPage fun b s₂ h₂ hb => ?_
  unfold getNodeType
  rw [wp_bind, wp_bind, wp_load hb (by decide)]
  exact hnext s₂ h₂

/-- **The descent** does not come back, however deep it may go. -/
theorem wp_internalNodeFind_zero (fuel : ℕ) (h : ZeroRoot s) :
    wp Pager.handler (internalNodeFind fuel rootPageNum key) (fun _ _ => False) (fun e _ => e =
      .noReturn) s := by
  induction fuel generalizing s with
  | zero => exact h.wp_internalNodeFindStep fun s' _ => rfl
  | succ fuel ih => exact h.wp_internalNodeFindStep fun s' h' => ih h'

/-- The lookup descends from page 0 to page 0 until the bound is used up. -/
theorem wp_tableFind (fuel : ℕ) (h : ZeroRoot s) :
    wp Pager.handler (tableFind fuel key : Prog Addr Cursor) (fun _ _ => False) (fun e _ => e =
      .noReturn) s := by
  unfold tableFind
  rw [wp_bind]
  refine h.wp_getPage fun a s₁ h₁ ha => ?_
  unfold getNodeType
  rw [wp_bind, wp_bind, wp_load ha (by decide)]
  exact h₁.wp_internalNodeFind_zero fuel

/-- No lookup comes back. -/
theorem wp_lookup (fuel : ℕ) (now : TableStep) (h : ZeroRoot s) :
    wp Pager.handler (now.lookup fuel) (fun _ _ => False) (fun e _ => e = .noReturn) s := by
  cases now with
  | find key => exact h.wp_tableFind fuel
  | insert op => exact h.wp_tableFind fuel
  | start =>
    unfold TableStep.lookup tableStart
    rw [wp_bind]
    exact wp_mono (h.wp_tableFind fuel) (fun _ _ hf => hf.elim) fun _ _ he => he

/-- No lookup ends. -/
theorem lookup_ne_ok (h : ZeroRoot s) {fuel : ℕ} {now : TableStep} {cursor : Cursor} {s₁ : Pager} :
    (now.lookup fuel).run Pager.handler s ≠ (.ok cursor, s₁) :=
  fun hrun => wp_ok (h.wp_lookup fuel now) hrun

theorem init (cacheSize : ℕ) (uninit : Addr → Page) :
    ZeroRoot (Pager.init File.empty cacheSize uninit) := by
  have hsim := sim_init cacheSize uninit fun _ => True
  exact ⟨hsim.wf, (hsim.page rootPageNum (by decide)).trans rfl⟩

end ZeroRoot

/-- **A new table** serves only the runs that look nothing up. -/
theorem endsInLeaves_iff (cacheSize : ℕ) (uninit : Addr → Page) (steps : List TableStep) :
    (∃ fuel, EndsInLeaves fuel steps (Pager.init File.empty cacheSize uninit)) ↔ steps = [] := by
  constructor
  · rintro ⟨fuel, h⟩
    cases steps with
    | nil => rfl
    | cons now rest =>
      obtain ⟨cursor, s₁, hrun, -⟩ := h
      exact absurd hrun (ZeroRoot.init cacheSize uninit).lookup_ne_ok
  · rintro rfl
    exact ⟨0, trivial⟩

/-- A lookup in a new table does not come back. -/
theorem not_endsInLeaves_find : ¬ ∀ (cacheSize : ℕ) (uninit : Addr → Page) (steps : List TableStep),
    ∃ fuel, EndsInLeaves fuel steps (Pager.init File.empty cacheSize uninit) := by
  intro h
  obtain ⟨fuel, hends⟩ := h 4 (fun _ => Bytes.zero pageSize) [.find 7]
  obtain ⟨cursor, s₁, hrun, -⟩ := hends
  exact (ZeroRoot.init 4 _).lookup_ne_ok hrun

end ToySQL
