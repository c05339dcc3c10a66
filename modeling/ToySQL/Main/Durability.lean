import ToySQL.Proof.NoPage
import ToySQL.Proof.Reading
import ToySQL.Proof.Recount
import ToySQL.Spec.Flushing

/-!
# What a flush makes durable

A new entry is dirty, and nothing sets the flag again once `flush_all` has cleared it.

* `Pager.Saved.refused`: an insertion that is refused before it writes leaves nothing to flush.
* `flushesDurably`: while every insertion between two calls of `flush_all` is refused, each of
  them brings all cached pages to the file.
* `not_flushesDurably`: two insertions, each with a flush after it.
-/

namespace ToySQL

open Program

/-- The pager is in order, and no cached page is clean. -/
structure Pager.AllDirty (s : Pager) : Prop extends s.Wf where
  dirty : ∀ a ∈ s.cache.lruList, (s.heap.entry a).dirty = true

namespace Pager.AllDirty

variable {s : Pager}

theorem setData (h : s.AllDirty) (a : Addr) (data : Page) : (s.setData a data).AllDirty := by
  refine ⟨h.toWf.setData a data, fun b hb => ?_⟩
  rw [setData_dirty]
  exact h.dirty b hb

/-- A page got is marked, and so are the others. -/
theorem getPage (h : s.AllDirty) (p : ℕ) : (s.getPage p).2.AllDirty := by
  by_cases hp : p < filePagesNum
  · obtain ⟨a, s', hget, hgot⟩ := h.toWf.getPage_spec hp
    have hdirty := (h.toCached.gets hp).dirty h.toCached h.dirty
    rw [hget] at hdirty ⊢
    exact ⟨hgot.wf, hdirty⟩
  · unfold Pager.getPage
    rw [if_pos (not_lt.1 hp)]
    exact h

/-- Whatever the code of the table does, the entries stay dirty. -/
theorem step (o : PagerOp Addr) (s : Pager) (h : s.AllDirty) : (handler o s).2.AllDirty := by
  rcases handler_cases o s with heq | ⟨p, -, heq⟩ | ⟨a, data, heq⟩
  · rw [heq]
    exact h
  · rw [heq]
    exact h.getPage p
  · rw [heq]
    exact h.setData a data

/-- No code of the tree clears a mark. -/
theorem run {α : Type} (f : Prog Addr α) (h : s.AllDirty) : (f.run handler s).2.AllDirty :=
  run_invariant (C := AllDirty) step f s h

end Pager.AllDirty

theorem allDirty_openNew (c : ℕ) (uninit : Addr → Page) : (Pager.openNew c uninit).AllDirty := by
  apply Pager.AllDirty.run
  refine ⟨(sim_init c uninit fun _ => True).wf, fun a ha => ?_⟩
  exact absurd ha List.not_mem_nil

/-! ## Flushing again -/

variable {fuel : ℕ} {s t : Pager} {op : Insertion} {steps : List SessionStep}

/-- The pager is in order, and the file has all pages. -/
structure Pager.Saved (s : Pager) : Prop extends s.Wf where
  upToDate : s.UpToDate

/-- A flush keeps the pager in order. -/
theorem Pager.Wf.flushAll (h : s.Wf) : s.flushAll.Wf := by
  obtain ⟨hsound, hsize, -, -⟩ := h.sound.flushList (l := s.cache.lruList) fun _ => id
  exact ⟨hsound.toCached, hsound.works, h.file.size.trans hsize⟩

/-- Flushing a file that has all contents changes nothing in it. -/
theorem Pager.Wf.flushAll_upToDate (h : s.Wf) (hfile : s.UpToDate) (p : ℕ) :
    s.flushAll.file.page p = s.page p := by
  refine h.sound.flushAll_saves (fun a ha => Or.inr ?_) p
  unfold InFile
  rw [hfile _ (h.lt a ha).2]
  exact page_of_lookup ((h.lookup _ a).2 ⟨ha, rfl⟩)

namespace Pager.Saved

/-- A cached page is in the file. -/
theorem durable (h : s.Saved) : s.Durable := by
  intro p a ha
  obtain ⟨hmem, hp⟩ := (h.lookup p a).1 ha
  have hlt := (h.lt a hmem).2
  rw [hp] at hlt
  have hfile := h.upToDate p hlt
  rw [page_of_lookup ha] at hfile
  exact hfile

/-- A flush has nothing to write that is not there. -/
theorem flushAll (h : s.Saved) : s.flushAll.Saved := by
  refine ⟨h.toWf.flushAll, fun p _ => ?_⟩
  rw [h.toWf.flushAll_upToDate h.upToDate, h.toWf.sound.flushAll.2]

/-- A page got from the file is in the file. -/
theorem getPage (h : s.Saved) {p : ℕ} {a : Addr} (hp : p < filePagesNum) (hg : Wf.Got s p a t)
    (hget : s.getPage p = (.ok a, t)) : t.Saved := by
  refine ⟨hg.wf, ?_⟩
  have hfile := upToDate_getPage s p h.toWf h.upToDate hp
  rwa [hget] at hfile

end Pager.Saved

/-- The first flush brings all pages to the file. -/
theorem Pager.AllDirty.saved (h : s.AllDirty) : s.flushAll.Saved := by
  refine ⟨h.toWf.flushAll, fun p _ => ?_⟩
  rw [h.toWf.sound.flushAll_file h.dirty, h.toWf.sound.flushAll.2]

/-! ## Insertions that are refused -/

/-- What reading makes of `s`: the pages are the same, and saved, and no page is given up. -/
structure Pager.ReadFrom (s t : Pager) : Prop extends t.Saved where
  page : t.page = s.page
  numPages : s.numPages ≤ t.numPages

namespace Pager.ReadFrom

variable {p : ℕ} {a : Addr} {u : Pager}

/-- One more page got. -/
theorem got (h : ReadFrom s t) (hp : p < filePagesNum) (hg : Wf.Got t p a u)
    (hget : t.getPage p = (.ok a, u)) : ReadFrom s u := by
  refine ⟨h.toSaved.getPage hp hg hget, hg.page.trans h.page, h.numPages.trans ?_⟩
  rw [hg.numPages]
  split_ifs <;> omega

/-- Reading goes on. -/
theorem step (o : PagerOp Addr) (t : Pager) (ho : IsRead o) (h : ReadFrom s t) :
    ReadFrom s (handler o t).2 := by
  cases o with
  | getPage p =>
    by_cases hp : p < filePagesNum
    · obtain ⟨a, u, hget, hg⟩ := h.toWf.getPage_spec hp
      have hgot := h.got hp hg hget
      simp only [handler, hget]
      exact hgot
    · simp only [handler, getPage_of_ge (not_lt.1 hp)]
      exact h
  | load a l =>
    simp only [handler]
    split_ifs
    · exact h
    · exact h
  | getUnusedPage | store | memcpy | fill => exact ho.elim

/-- Code that only reads. -/
theorem wp {α : Type} {f : Prog Addr α} (hf : Only IsRead f) (h : ReadFrom s t) :
    Program.wp handler f (fun _ => ReadFrom s) (fun _ => ReadFrom s) t :=
  hf.wp step (fun _ _ h => h) (fun _ _ h => h) h

end Pager.ReadFrom

namespace Pager

variable {cursor : Cursor} {key : ℕ} {row : Row}

/-- A split for which no page is left ends before it writes. -/
theorem ReadFrom.wp_split (h : ReadFrom s t) (hnone : filePagesNum ≤ s.numPages) :
    Program.wp handler (leafNodeSplitAndInsert fuel cursor key row) (fun _ => Saved)
      (fun _ => Saved) t := by
  unfold leafNodeSplitAndInsert
  rw [wp_bind]
  refine wp_mono (h.wp ⟨trivial, fun _ => trivial⟩) (fun a u hu => ?_) fun _ _ hu => hu.toSaved
  rw [wp_bind]
  have hreads := only_getNodeMaxKey (C := IsRead) (fun _ => trivial) (fun _ _ => trivial) fuel a
  refine wp_mono (hu.wp hreads) (fun _ v hv => ?_) fun _ _ hv => hv.toSaved
  -- the page for the upper half does not exist
  rw [wp_bind, wp_getUnusedPage, wp_bind]
  exact wp_getPage_of_ge (hnone.trans hv.numPages) hv.toSaved

/-- The leaf of the cursor is full, and no page is left. -/
theorem ReadFrom.wp_leafNodeInsert (h : ReadFrom s t)
    (hfull : leafNodeMaxCells ≤ (s.page cursor.pageNum).numCells)
    (hnone : filePagesNum ≤ s.numPages) :
    Program.wp handler (leafNodeInsert fuel cursor key row) (fun _ => Saved) (fun _ => Saved) t := by
  unfold leafNodeInsert
  rw [wp_bind]
  by_cases hp : cursor.pageNum < filePagesNum
  · obtain ⟨a, u, hget, hg⟩ := h.toWf.getPage_spec hp
    refine wp_perform.2 ?_
    rw [show handler (.getPage cursor.pageNum) t = (.ok a, u) from hget]
    have hcells : (u.heap.entry a).data.load .numCells ≥ leafNodeMaxCells := by
      rw [hg.data, h.page]
      exact hfull
    show Program.wp _ _ _ _ _
    rw [wp_bind, wp_load (by decide), if_pos hcells]
    exact (h.got hp hg hget).wp_split hnone
  · exact wp_getPage_of_ge (not_lt.1 hp) h.toSaved

/-- **An insertion that is refused** leaves nothing to be flushed. -/
theorem Saved.refused (h : s.Saved) (hrefuses : s.Refuses fuel op) :
    ((insertRow fuel op).run handler s).2.Saved := by
  refine wp_state.1 ?_
  unfold insertRow
  rw [wp_bind]
  have hself : ReadFrom s s := ⟨h, rfl, le_rfl⟩
  have hreads : ReadsLast Equal none (tableFind fuel op.key.toNat)
      (tableFind fuel op.key.toNat) := latest_tableFind fuel op.key.toNat
  have hfind := hself.wp hreads.reads
  unfold Program.wp at hfind ⊢
  rcases hrun : (tableFind fuel op.key.toNat).run handler s with ⟨e | cursor, t⟩
  · rw [hrun] at hfind
    exact hfind.toSaved
  · rw [hrun] at hfind
    obtain ⟨hfull, hnone⟩ := hrefuses cursor t hrun
    exact hfind.wp_leafNodeInsert hfull hnone

end Pager

/-! ## Sessions -/

theorem flushesDurably_cons {step : SessionStep}
    (hstep : step = .flushAll → s.flushAll.Durable)
    (h : FlushesDurably fuel (s.doStep fuel step) steps) :
    FlushesDurably fuel s (step :: steps) := by
  rintro (_ | ⟨first, pre⟩) post hsteps
  · obtain ⟨hfirst, -⟩ := List.cons.inj hsteps
    exact hstep hfirst
  · obtain ⟨rfl, hrest⟩ := List.cons.inj hsteps
    exact h pre post hrest

/-- Without a flush there is nothing to show. -/
theorem flushesDurably_of_not_mem (h : .flushAll ∉ steps) : FlushesDurably fuel s steps := by
  rintro pre post rfl
  exact absurd (List.mem_append_right pre List.mem_cons_self) h

/-- From the first flush to the last one nothing is written. -/
theorem flushesDurably_saved (h : s.Saved)
    (hsteps : ∀ pre op post, steps = pre ++ .insert op :: post → .flushAll ∈ post →
      (s.doSteps fuel pre).Refuses fuel op) :
    FlushesDurably fuel s steps := by
  induction steps generalizing s with
  | nil => exact flushesDurably_of_not_mem List.not_mem_nil
  | cons step steps ih =>
    have hrest : ∀ pre op post, steps = pre ++ .insert op :: post → .flushAll ∈ post →
        ((s.doStep fuel step).doSteps fuel pre).Refuses fuel op :=
      fun pre op post hpre => hsteps (step :: pre) op post (congrArg (List.cons _) hpre)
    cases step with
    | insert op =>
      by_cases hmem : .flushAll ∈ steps
      · refine flushesDurably_cons (fun hflush => by cases hflush) (ih ?_ hrest)
        exact h.refused (hsteps [] op steps rfl hmem)
      -- no flush comes after this insertion
      · refine flushesDurably_of_not_mem fun hflush => ?_
        rcases List.mem_cons.1 hflush with hinsert | hflush
        · cases hinsert
        · exact hmem hflush
    | flushAll => exact flushesDurably_cons (fun _ => h.flushAll.durable) (ih h.flushAll hrest)

/-- Up to the first flush, all cached pages are dirty. -/
theorem flushesDurably_allDirty (h : s.AllDirty) (hsteps : RefusedBetweenFlushes fuel s steps) :
    FlushesDurably fuel s steps := by
  induction steps generalizing s with
  | nil => exact flushesDurably_of_not_mem List.not_mem_nil
  | cons step steps ih =>
    cases step with
    | insert op =>
      refine flushesDurably_cons (fun hflush => by cases hflush)
        (ih (h.run (insertRow fuel op)) fun pre op' post hrest hmem => ?_)
      exact hsteps (.insert op :: pre) op' post (congrArg (List.cons _) hrest)
        (List.mem_cons_of_mem _ hmem)
    | flushAll =>
      refine flushesDurably_cons (fun _ => h.saved.durable)
        (flushesDurably_saved h.saved fun pre op post hrest => ?_)
      exact hsteps (.flushAll :: pre) op post (congrArg (List.cons _) hrest) List.mem_cons_self

/-- **Flushes make durable** what was inserted before the first of them, if no insertion writes
between two of them. -/
theorem flushesDurably (c fuel : ℕ) (uninit : Addr → Page) (steps : List SessionStep)
    (h : RefusedBetweenFlushes fuel (Pager.openNew c uninit) steps) :
    FlushesDurably fuel (Pager.openNew c uninit) steps :=
  flushesDurably_allDirty (allDirty_openNew c uninit) h

/-- No insertion between two flushes: there is none to refuse. -/
theorem InsertsBeforeFlushes.refused (h : InsertsBeforeFlushes steps) :
    RefusedBetweenFlushes fuel s steps :=
  fun pre op post hsteps hpre hpost => absurd hpost (h pre op post hsteps hpre)

theorem insertsBeforeFlushes_append {inserts flushes : List SessionStep}
    (hinserts : .flushAll ∉ inserts)
    (hflushes : ∀ step ∈ flushes, step = .flushAll) :
    InsertsBeforeFlushes (inserts ++ flushes) := by
  intro pre op post hsteps hmem
  exfalso
  rcases List.append_eq_append_iff.1 hsteps with ⟨rest, rfl, hrest⟩ | ⟨rest, rfl, -⟩
  · have hinsert :=
      hflushes (.insert op) (by rw [hrest]; exact List.mem_append_right _ List.mem_cons_self)
    cases hinsert
  · exact hinserts (List.mem_append_left _ hmem)

/-- Two rows, and two flushes after them. -/
theorem flushesDurably_twice :
    FlushesDurably 1 (Pager.openNew filePagesNum fun _ => Bytes.zero pageSize)
    ([.insert (plain 1), .insert (plain 2)] ++ [.flushAll, .flushAll]) :=
  flushesDurably filePagesNum 1 _ _
    (insertsBeforeFlushes_append (by decide) (by decide)).refused

/-- A row, a flush, a row and a flush. -/
def flushedTwice : Pager := (Pager.openNew filePagesNum fun _ => Bytes.zero pageSize).doSteps 1
  ([.insert (plain 1), .flushAll, .insert (plain 2)] ++ [.flushAll])

theorem flushedTwice_page : flushedTwice.cache.pageMap.lookup 0 = some 0 ∧
    flushedTwice.file.file.bytes (0 * pageSize) pageSize ≠ (flushedTwice.heap.entry 0).data := by
  unfold flushedTwice Pager.openNew
  rw [Pager.init_eq_new]
  decide +kernel

/-- The second row is not in the file. -/
theorem not_flushesDurably :
    ¬ FlushesDurably 1 (Pager.openNew filePagesNum fun _ => Bytes.zero pageSize)
    [.insert (plain 1), .flushAll, .insert (plain 2), .flushAll] := by
  intro h
  have hlast : flushedTwice.Durable := h [.insert (plain 1), .flushAll, .insert (plain 2)] [] rfl
  exact flushedTwice_page.2 (hlast 0 0 flushedTwice_page.1)

end ToySQL
