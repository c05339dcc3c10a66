import ToySQL.Proof.NoPage
import ToySQL.Proof.Visits

/-!
# Pointers to entries of the cache

`get_page` deletes the entry it evicts, so that code which still holds a pointer to it must not use
it. With a cache for all pages nothing is evicted; and a lookup, or an insertion into a leaf with
room, only uses the pointer it got last.

* `Pager.Wf.live_of_large`: with a cache for all pages every pointer is that of a cached entry.
* `Pager.Wf.live_of_room`: so it is in an insertion that finds room, whatever the size of the cache.
* `Pager.maxPages_handler`: the size of the cache is fixed.
-/

namespace ToySQL

open Program

variable {s : Pager} {m : Mem} {w : Last} {a : Addr} {p fuel c : ℕ}

namespace Pager

/-- The entry the map has for a page is in the list. -/
theorem Cached.mem_of_lookup (h : s.Cached) (hl : s.cache.pageMap.lookup p = some a) :
    a ∈ s.cache.lruList :=
  ((h.lookup p a).1 hl).1

/-! ## A cache for all pages -/

/-- The flat memory of a pager, with its cached pages. -/
def mem (s : Pager) : Mem := ⟨s.page, fun p => (s.cache.pageMap.lookup p).isSome, s.numPages⟩

/-- A pager with a cache for all pages refines its flat memory. -/
theorem Wf.sim_large (h : s.Wf) (hc : filePagesNum ≤ s.cache.maxPages) :
    Sim s.cache.maxPages OfFile ∅ s s.mem := by
  refine ⟨h, rfl, fun _ _ => rfl, rfl, fun p a hl => ?_,
    fun _ p hp => Option.isSome_iff_exists.1 hp,
    fun hlt => absurd hlt (not_lt.2 hc), fun _ _ hl => absurd hl (Set.notMem_empty _),
    ⟨[], s.cache.lruList, rfl, fun _ hb => absurd hb List.not_mem_nil,
      fun _ _ hl => absurd hl (Set.notMem_empty _)⟩⟩
  show (s.cache.pageMap.lookup p).isSome = true
  rw [hl]
  rfl

end Pager

/-- A linked pointer is that of a cached entry. -/
theorem Sim.live {T : ℕ → Prop} {w : Links} {o : PagerOp Addr} {o' : PagerOp ℕ} (h : Sim c T w s m)
    (ho : SameOp w o o') :
    Pager.Live o s := by
  have hmem : ∀ {a p}, (a, p) ∈ w → a ∈ s.cache.lruList :=
    fun hl => h.wf.toCached.mem_of_lookup (h.linked _ _ hl)
  cases ho with
  | getPage _ | getUnusedPage => trivial
  | load _ hl | store _ _ hl | fill _ _ _ hl => exact hmem hl
  | memcpy _ _ _ hl hl' => exact ⟨hmem hl, hmem hl'⟩

/-- **With a cache for all pages** no pointer outlives its entry. -/
theorem Pager.Wf.live_of_large {α : Type} {f : Prog Addr α} {g : Prog ℕ α} (h : s.Wf)
    (hc : filePagesNum ≤ s.cache.maxPages)
    (hm : ∀ w, Match Eq' w f g) : Always Pager.handler Pager.Live f s := by
  -- with a cache for all pages nothing is lost
  have hlost : ∀ {α : Type} {o : Except Fault α × Mem},
      ¬ Lost (lost s.cache.maxPages OfFile) o := by
    rintro α ⟨_ | _, m⟩ hl
    · exact hl.1 ⟨hc, fun _ => id⟩
    · exact hl.1 ⟨hc, fun _ => id⟩
  refine (hm ∅).always (g := flatHandler) (S := Sim s.cache.maxPages OfFile)
    (fun w s' m o o' hs ho => ?_)
    (fun _ _ _ _ _ hs ho => hs.live ho) (h.sim_large hc)
  have hstep := hs.step (K := fun _ => True) (fits_all hc) ho
  rw [Pager.strict_true] at hstep
  exact hstep.resolve_right hlost

/-! ## A leaf with room -/

/-- The last pointer is that of a cached entry. -/
theorem Follows.live {I : Pager → Prop} {o : PagerOp Addr} {o' : PagerOp ℕ} (h : Follows I w s m)
    (ho : LastOp w o o') :
    Pager.Live o s := by
  have hmem : ∀ {a p}, w = some (a, p) → a ∈ s.cache.lruList :=
    fun hw => h.wf.toCached.mem_of_lookup (h.last _ _ hw).2
  cases ho with
  | read ho =>
    cases ho with
    | getPage _ => trivial
    | load _ _ _ => exact hmem rfl
  | store _ _ _ _ | fill _ _ _ _ _ => exact hmem rfl
  | memcpy _ _ _ _ _ => exact ⟨hmem rfl, hmem rfl⟩

/-- Nothing more has to be kept. -/
theorem kept_trivial : KeptByUse fun _ => True := ⟨fun _ _ _ _ _ => trivial, fun _ _ _ _ => trivial⟩

/-- **Code with the last pointer** uses no other. -/
theorem UsesLast.live {α α' : Type} {V : Last → α → α' → Prop} {f : Prog Addr α} {f' : Prog ℕ α'}
    (hf : UsesLast V w f f')
    (h : Follows (fun _ => True) w s m) : Always Pager.handler Pager.Live f s :=
  hf.always (S := Follows fun _ => True) (fun _ _ _ _ _ hs ho => hs.step kept_trivial ho)
    (fun _ _ _ _ _ hs ho => hs.live ho) h

/-- Where the leaf has room, the split is not reached. -/
theorem always_leafNodeInsertStep_room {C : PagerOp Addr → Pager → Prop} {cursor : Cursor} {key : ℕ}
    {row : Row}
    {split split' : Prog Addr Unit} (h : s.Wf)
    (hroom : cursor.pageNum < filePagesNum → (s.page cursor.pageNum).numCells < leafNodeMaxCells)
    (hall : Always Pager.handler C (leafNodeInsertStep cursor key row split) s) :
    Always Pager.handler C (leafNodeInsertStep cursor key row split') s := by
  unfold leafNodeInsertStep at hall ⊢
  rw [always_bind] at hall ⊢
  refine ⟨hall.1, fun a s₁ hget => ?_⟩
  have hload := hall.2 a s₁ hget
  rw [always_bind] at hload ⊢
  refine ⟨hload.1, fun numCells s₂ hrun => ?_⟩
  have hrest := hload.2 numCells s₂ hrun
  -- what was read is the count of the leaf
  have hcells : numCells < leafNodeMaxCells := by
    by_cases hp : cursor.pageNum < filePagesNum
    · have hwp :
          wp Pager.handler (getPage cursor.pageNum) (fun a s' => Pager.Wf.Got s cursor.pageNum a s')
          (fun _ _ => True) s := Pager.wp_getPage h hp fun _ _ hg => hg
      have hgot := wp_ok hwp hget
      have hvalue :
          wp Pager.handler (load a .numCells) (fun n _ => n = (s₁.heap.entry a).data.numCells)
          (fun _ _ => True) s₁ := (Pager.wp_load (by decide)).2 rfl
      rw [wp_ok hvalue hrun, hgot.data]
      exact hroom hp
    · have hout :
          wp Pager.handler (getPage cursor.pageNum) (fun _ _ => False) (fun _ _ => True) s :=
        Pager.wp_getPage_of_ge (not_lt.1 hp) trivial
      exact (wp_ok hout hget).elim
  rw [if_neg (not_le.2 hcells)] at hrest ⊢
  exact hrest

/-- **An insertion that finds room** only uses pointers to cached entries. -/
theorem Pager.Wf.live_of_room {op : Insertion} (h : s.Wf) (hroom : s.HasRoom fuel (.insert op)) :
    Always Pager.handler Pager.Live (insertRow fuel op) s := by
  have hfollows : Follows (fun _ => True) none s ⟨s.page, fun _ => false, 0⟩ :=
    ⟨h, trivial, fun _ _ => rfl, fun _ _ hw => by cases hw⟩
  have hfind := (latest_tableFind fuel op.key.toNat (w := none)).uses
  unfold insertRow
  rw [always_bind]
  refine ⟨hfind.live hfollows, fun cursor s' hrun => ?_⟩
  have hagree := hfind.run kept_trivial hfollows
  rw [hrun] at hagree
  rcases hm : (tableFind fuel op.key.toNat).run flatHandler ⟨s.page, fun _ => false, 0⟩
    with ⟨_ | cursor', m'⟩
  · rw [hm] at hagree
    exact hagree.elim
  · rw [hm] at hagree
    obtain ⟨w', rfl, h'⟩ := hagree
    have hcells : s.cellsFor fuel op.key.toNat = some (s'.page cursor.pageNum).numCells := by
      unfold Pager.cellsFor
      rw [hrun]
    rw [leafNodeInsert_eq_step]
    exact always_leafNodeInsertStep_room h'.wf (fun _ => hroom _ hcells)
      ((uses_leafNodeInsertStep cursor _ op.row .noReturn).live h')

/-! ## The size of the cache -/

/-- The size of the cache is fixed. -/
theorem Pager.maxPages_handler (h : s.Wf) (o : PagerOp Addr) :
    (handler o s).2.cache.maxPages = s.cache.maxPages := by
  rcases handler_cases o s with heq | ⟨p, hp, heq⟩ | ⟨a, data, heq⟩
  · rw [heq]
  · rw [heq]
    have hgets := h.toCached.gets hp
    generalize s.getPage p = o at hgets ⊢
    obtain ⟨r, s'⟩ := o
    cases hgets with
    | hit _ | failed _ _ | added _ _ _ _ => rfl
  · rw [heq]
    rfl

end ToySQL
