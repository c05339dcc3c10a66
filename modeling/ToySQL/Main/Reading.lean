import ToySQL.Main.Durability
import ToySQL.Proof.Live

/-!
# What a table answers when it is opened

* `answers_cache`: the size of the cache makes no difference to lookups and scans, and they
  leave the file as it is.
* `answers_close`: a table that was flushed and closed answers as it did before, whatever cache
  it is opened with, if its cache was large enough for the insertions.
-/

namespace ToySQL

open Program

variable {fuel : ℕ} {file : File} {s t : Pager} {steps : List SessionStep} {queries : List Query}

/-- Two pagers with the same pages give the same answers. -/
theorem answers_congr (hs : s.Wf) (ht : t.Wf) (hpages : ∀ p < filePagesNum, s.page p = t.page p) :
    (s.answers fuel queries).1 = (t.answers fuel queries).1 := by
  have hkept : KeptByGets fun _ => True := fun _ _ _ _ _ => trivial
  have hseen : Seen (fun _ => True) t.page none s ⟨t.page, fun _ => false, 0⟩ :=
    ⟨hs, trivial, hpages, rfl, fun _ _ hw => by cases hw⟩
  have hseen' : Seen (fun _ => True) t.page none t ⟨t.page, fun _ => false, 0⟩ :=
    ⟨ht, trivial, fun _ _ => rfl, rfl, fun _ _ hw => by cases hw⟩
  rw [(hseen.answers hkept queries).1, (hseen'.answers hkept queries).1]

/-- A file that has all contents keeps them. -/
theorem answers_upToDate (hs : s.Wf) (hfile : s.UpToDate) {p : ℕ} (hp : p < filePagesNum) :
    (s.answers fuel queries).2.flushAll.file.page p = s.page p := by
  have hseen : Seen Pager.UpToDate s.page none s ⟨s.page, fun _ => false, 0⟩ :=
    ⟨hs, hfile, fun _ _ => rfl, rfl, fun _ _ hw => by cases hw⟩
  obtain ⟨-, w, m, hlast⟩ :
      _ ∧ ∃ w m', Seen Pager.UpToDate s.page w (s.answers fuel queries).2 m' :=
    hseen.answers Pager.upToDate_getPage queries
  rw [hlast.wf.flushAll_upToDate hlast.inv, hlast.page p hp]

/-- **Reading through any cache.** The answers depend on the file alone, and it has the same pages
when it is closed again. -/
theorem answers_cache (file : File)
    (hfile : u32 file.size = 0 ∨ filePagesNum * pageSize ≤ file.size) (c c' : ℕ)
    (uninit uninit' : Addr → Page) (fuel : ℕ) (queries : List Query) :
    ((Pager.init file c uninit).answers fuel queries).1 =
      ((Pager.init file c' uninit').answers fuel queries).1 ∧
      ∀ p < filePagesNum,
      ((Pager.init file c uninit).answers fuel queries).2.close.bytes (p * pageSize) pageSize =
        if u32 file.size = 0 then Bytes.zero pageSize else file.bytes (p * pageSize) pageSize := by
  constructor
  · apply answers_congr (Pager.init_wf hfile) (Pager.init_wf hfile)
    intro p hp
    rw [Pager.init_page file c uninit hp, Pager.init_page file c' uninit' hp]
  · intro p hp
    rw [← Pager.init_page file c uninit hp]
    exact answers_upToDate (Pager.init_wf hfile) Pager.init_upToDate hp

/-- The file of a table with the keys 0 to 15, in two leaves below the root. -/
def sixteenRows : File := (runTable filePagesNum 0 ((List.range 16).map plain)).2.close

/-- Sixteen rows, through a cache for one page and one for all pages: the three pages of the table
do not fit into the first one. -/
theorem answers_cache_sixteen :
    ((Pager.init sixteenRows 1 fun _ => Bytes.zero pageSize).answers 1 [.find 7, .select 17]).1 =
        [.ok (.cursor (makeCursor 2 7)), .ok (.rows ((List.range 16).map fun i => (plain i).row))] ∧
      ((Pager.init sixteenRows 1 fun _ => Bytes.zero pageSize).answers 1 [.find 7, .select 17]).1 =
        ((Pager.init sixteenRows filePagesNum fun _ => Bytes.zero pageSize).answers 1 [.find 7,
          .select 17]).1 ∧
      ∀ p < filePagesNum,
        ((Pager.init sixteenRows 1 fun _ => Bytes.zero pageSize).answers 1 [.find 7,
          .select 17]).2.close.bytes
            (p * pageSize) pageSize =
          if u32 sixteenRows.size = 0 then
            Bytes.zero pageSize else sixteenRows.bytes (p * pageSize) pageSize := by
  refine ⟨by decide +kernel, ?_⟩
  exact answers_cache sixteenRows (Or.inr (by decide +kernel)) 1 filePagesNum _ _ 1 [.find 7,
    .select 17]

/-! ## Closing and opening again -/

/-- No page of the table is clean, and its file has just its pages. -/
structure Pager.Unflushed (s : Pager) : Prop extends s.AllDirty where
  exact : s.Exact

theorem Pager.Unflushed.step (o : PagerOp Addr) (s : Pager) (h : s.Unflushed) :
    (Pager.handler o s).2.Unflushed := by
  refine ⟨h.toAllDirty.step o s, ?_⟩
  rcases Pager.handler_cases o s with heq | ⟨p, hp, heq⟩ | ⟨a, data, heq⟩
  · rw [heq]
    exact h.exact
  · rw [heq]
    exact Pager.exact_getPage s p h.toWf h.exact hp
  · rw [heq]
    exact h.exact

/-- Whatever is inserted, and however the insertions end. -/
theorem Pager.Unflushed.doSteps (h : s.Unflushed) (hsteps : .flushAll ∉ steps) :
    (s.doSteps fuel steps).Unflushed := by
  induction steps generalizing s with
  | nil => exact h
  | cons step steps ih =>
    cases step with
    | insert op =>
      apply ih
      · exact run_invariant Pager.Unflushed.step (insertRow fuel op) s h
      · exact fun hmem => hsteps (List.mem_cons_of_mem _ hmem)
    | flushAll => exact absurd List.mem_cons_self hsteps

/-- A pager just opened has flushed nothing. -/
theorem unflushed_openNew (c : ℕ) (uninit : Addr → Page) : (Pager.openNew c uninit).Unflushed := by
  apply run_invariant Pager.Unflushed.step
  refine ⟨⟨Pager.init_wf (Or.inl rfl), fun a ha => absurd ha List.not_mem_nil⟩, ?_⟩
  exact Nat.zero_max _

/-- The closed file has the pages of the table. -/
theorem Pager.Unflushed.close (h : s.Unflushed) (c : ℕ) (uninit : Addr → Page) :
    (Pager.init s.close c uninit).Wf ∧
    ∀ p < filePagesNum, (Pager.init s.close c uninit).page p = s.page p := by
  have hsize : s.close.size = filePagesNum * pageSize :=
    Pager.exact_flushList (fun _ => id) h.toWf.sound h.exact
  have hne : ¬ u32 s.close.size = 0 := by
    rw [hsize]
    decide
  refine ⟨Pager.init_wf (Or.inr hsize.ge), fun p hp => ?_⟩
  rw [Pager.init_page s.close c uninit hp, if_neg hne]
  exact h.toWf.sound.flushAll_file h.dirty p

/-- No code changes the size of the cache. -/
theorem Pager.AllDirty.maxPages_run {α : Type} (h : s.AllDirty) (f : Prog Addr α) :
    (f.run Pager.handler s).2.cache.maxPages = s.cache.maxPages := by
  have hinv : (f.run Pager.handler s).2.AllDirty ∧
      (f.run Pager.handler s).2.cache.maxPages = s.cache.maxPages :=
    run_invariant (C := fun t => t.AllDirty ∧ t.cache.maxPages = s.cache.maxPages)
      (fun o t ht => ⟨ht.1.step o t, (Pager.maxPages_handler ht.1.toWf o).trans ht.2⟩) f s ⟨h, rfl⟩
  exact hinv.2

theorem Pager.Unflushed.maxPages_doSteps (h : s.Unflushed) (hsteps : .flushAll ∉ steps) :
    (s.doSteps fuel steps).cache.maxPages = s.cache.maxPages := by
  induction steps generalizing s with
  | nil => rfl
  | cons step steps ih =>
    cases step with
    | insert op =>
      have hnext : (s.doStep fuel (.insert op)).Unflushed :=
        run_invariant Pager.Unflushed.step (insertRow fuel op) s h
      have hrest := ih hnext fun hmem => hsteps (List.mem_cons_of_mem _ hmem)
      exact hrest.trans (h.toAllDirty.maxPages_run (insertRow fuel op))
    | flushAll => exact absurd List.mem_cons_self hsteps

theorem maxPages_openNew (c : ℕ) (uninit : Addr → Page) :
    (Pager.openNew c uninit).cache.maxPages = c := by
  have hdirty : (Pager.init File.empty c uninit).AllDirty :=
    ⟨Pager.init_wf (Or.inl rfl), fun a ha => absurd ha List.not_mem_nil⟩
  exact hdirty.maxPages_run initializeTable

/-- **Closing and opening again.** A table over a new file answers every query as before when it
has been flushed once and is opened again, with a cache of any size. Its own cache has all pages, or
its insertions find room: then they use no pointer to an entry that was evicted. -/
theorem answers_close (c fuel : ℕ) (uninit : Addr → Page) (steps : List SessionStep)
    (hsteps : .flushAll ∉ steps)
    (hroom : filePagesNum ≤ c ∨ ∀ pre op post, steps = pre ++ .insert op :: post →
      ((Pager.openNew c uninit).doSteps fuel pre).HasRoom fuel (.insert op))
    (c' fuel' : ℕ) (uninit' : Addr → Page) (queries : List Query) :
    ((Pager.init ((Pager.openNew c uninit).doSteps fuel steps).close c' uninit').answers
      fuel' queries).1 =
        (((Pager.openNew c uninit).doSteps fuel steps).answers fuel' queries).1 ∧
      ∀ pre op post, steps = pre ++ .insert op :: post →
        Always Pager.handler Pager.Live (insertRow fuel op)
          ((Pager.openNew c uninit).doSteps fuel pre) := by
  have hnew := unflushed_openNew c uninit
  constructor
  · have h : ((Pager.openNew c uninit).doSteps fuel steps).Unflushed := hnew.doSteps hsteps
    obtain ⟨hwf, hpages⟩ := h.close c' uninit'
    exact answers_congr hwf h.toWf hpages
  · rintro pre op post rfl
    have hpre : .flushAll ∉ pre := fun hmem => hsteps (List.mem_append_left _ hmem)
    have hdirty : ((Pager.openNew c uninit).doSteps fuel pre).Unflushed := hnew.doSteps hpre
    rcases hroom with hlarge | hroom
    · refine hdirty.toWf.live_of_large ?_ fun _ => match_insertRow fuel op
      rw [hnew.maxPages_doSteps hpre, maxPages_openNew]
      exact hlarge
    · exact hdirty.toWf.live_of_room (hroom pre op post rfl)

/-- Two rows, through a cache for one page and then one for all pages. -/
theorem answers_close_two :
    ((Pager.init ((Pager.openNew 1 fun _ => Bytes.zero pageSize).doSteps 0 [.insert (plain 1),
      .insert (plain 2)]).close
        filePagesNum fun _ => Bytes.zero pageSize).answers 1 [.find 2, .select 3]).1 =
        (((Pager.openNew 1 fun _ => Bytes.zero pageSize).doSteps 0 [.insert (plain 1),
          .insert (plain 2)]).answers 1
          [.find 2, .select 3]).1 ∧
      ∀ pre op post, [.insert (plain 1), .insert (plain 2)] = pre ++ .insert op :: post →
        Always Pager.handler Pager.Live (insertRow 0 op)
          ((Pager.openNew 1 fun _ => Bytes.zero pageSize).doSteps 0 pre) := by
  refine answers_close 1 0 _ [.insert (plain 1), .insert (plain 2)] (by decide)
    (Or.inr fun pre op post heq => ?_)
    filePagesNum 1 _ [.find 2, .select 3]
  unfold Pager.openNew
  rw [Pager.init_eq_new]
  rcases pre with _ | ⟨first, _ | ⟨second, pre⟩⟩
  · obtain rfl : plain 1 = op := SessionStep.insert.inj (List.cons.inj heq).1
    decide +kernel
  · obtain ⟨rfl, hrest⟩ := List.cons.inj heq
    obtain rfl : plain 2 = op := SessionStep.insert.inj (List.cons.inj hrest).1
    decide +kernel
  · have hlength := congrArg List.length heq
    simp only [List.cons_append, List.length_cons, List.length_append, List.length_nil] at hlength
    omega

end ToySQL
