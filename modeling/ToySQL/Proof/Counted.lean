import ToySQL.Proof.Simulation

/-!
# Pagers whose pages are counted

A pager may have lost some of its pages to the file. As long as every page in the cache
is one of those the counter counts, it makes no difference to the code which pages are
cached: the flat memory of the pager has them all.

* `Pager.Flat.wp`: what a run in flat memory does, the run on the pager does, if the
  pages it asks for fit in the cache.
-/

namespace ToySQL

open Program

namespace Mem

/-- The same memory with all the pages that are counted in the cache. -/
def counted (m : Mem) : Mem := { m with cached := fun p => m.cached p || decide (p < m.numPages) }

/-- In a tight memory the counter says which pages are cached. -/
theorem Tight.counted {m : Mem} (h : m.Tight) : m.counted = m := by
  refine Mem.ext rfl (funext fun p => ?_) rfl
  show (m.cached p || decide (p < m.numPages)) = m.cached p
  rw [h p, Bool.or_self]

/-- Counting commutes with getting a page. -/
theorem counted_touch (m : Mem) (n : ℕ) : (m.touch n).counted = m.counted.touch n := by
  unfold touch
  by_cases hc : m.cached n = true
  · have hc' : m.counted.cached n = true := by simp [counted, hc]
    rw [if_pos hc, if_pos hc']
  rw [if_neg hc]
  by_cases hn : n < m.numPages
  · have hc' : m.counted.cached n = true := by simp [counted, hn]
    rw [if_pos hc']
    refine Mem.ext rfl (funext fun p => ?_) ?_
    · by_cases hp : p = n
      · simp [counted, hp, hn, hn.ne]
      · simp [counted, hp, hn.ne]
    · simp [counted, hn.ne]
  · have hc' : ¬ m.counted.cached n = true := by simp [counted, hc, hn]
    rw [if_neg hc']
    refine Mem.ext rfl (funext fun p => ?_) rfl
    by_cases hp : p = n
    · simp [counted, hp]
    · simp only [counted, Function.update_of_ne hp]
      by_cases he : n = m.numPages
      · rw [if_pos he]
        congr 1
        rw [decide_eq_decide]
        omega
      · rw [if_neg he]

/-- The code runs alike, whichever of the pages that are counted are in the cache. -/
theorem counted_run {K T : ℕ → Prop} [DecidablePred K] [DecidablePred T] {α : Type} (g : Prog ℕ α)
    (m : Mem) :
    (g.run (handler K T) m).1 = (g.run (handler K T) m.counted).1 ∧
      (g.run (handler K T) m).2.counted = (g.run (handler K T) m.counted).2 := by
  refine run_map (J := fun _ => True) counted (fun o m _ => ?_) g m trivial
  cases o with
  | getPage n =>
    by_cases hn : T n
    · simp [handler, hn, counted_touch]
    · simp [handler, hn]
  | getUnusedPage => exact ⟨rfl, rfl, trivial⟩
  | load p l =>
    by_cases hl : Access K (m.page p) l
    · simp [handler, hl, counted]
    · simp [handler, hl, counted]
  | store p l v =>
    by_cases hl : Access K (m.page p) l
    · simp [handler, hl, counted, set]
    · simp [handler, hl, counted]
  | memcpy dst dl src sl n =>
    by_cases hl : dl.offset + n ≤ pageSize ∧ sl.offset + n ≤ pageSize
    · simp [handler, hl, counted, set]
    · simp [handler, hl, counted]
  | fill dst dl n b =>
    by_cases hl : dl.offset + n ≤ pageSize
    · simp [handler, hl, counted, set]
    · simp [handler, hl, counted]

end Mem

namespace Pager

/-- The pager works, and every page in its cache is counted. -/
structure Counted (s : Pager) : Prop where
  wf : s.Wf
  counted : ∀ p a, s.cache.pageMap.lookup p = some a → p < s.numPages

/-- The pages of a pager as a flat memory. -/
def flat (s : Pager) : Mem := ⟨s.page, fun p => decide (p < s.numPages), s.numPages⟩

theorem flat_tight (s : Pager) : s.flat.Tight := fun _ => rfl

/-- The pager has the pages of `m`. -/
structure Flat (s : Pager) (m : Mem) : Prop where
  counted : s.Counted
  page : ∀ p < filePagesNum, s.page p = m.page p
  numPages : s.numPages = m.numPages

/-- A pager that counts its pages is simulated by its flat memory. -/
theorem Counted.flat {s : Pager} (h : s.Counted) : s.Flat s.flat := ⟨h, fun _ _ => rfl, rfl⟩

end Pager

open Pager

theorem Sim.flat {c : ℕ} {T : ℕ → Prop} {s : Pager} {m : Mem} (h : Sim c T ∅ s m)
    (hm : m.counted.Tight) :
    s.Flat m.counted := by
  refine ⟨⟨h.wf, fun p a ha => ?_⟩, h.page, h.numPages⟩
  have hc := h.cached p a ha
  have ht : m.counted.cached p = true := by simp [Mem.counted, hc]
  rw [hm p, decide_eq_true_iff] at ht
  rw [h.numPages]
  exact ht

namespace Pager.Flat

variable {s : Pager} {m : Mem} {K T : ℕ → Prop} [DecidablePred K] [DecidablePred T]

omit [DecidablePred T] in
/-- A flat memory that simulates the pager, and is `m` when all the pages that are counted
are cached. -/
theorem sim (h : s.Flat m) (hm : m.Tight) :
    ∃ m', Sim s.cache.maxPages T ∅ s m' ∧ m'.counted = m := by
  have hrecent : ∃ front rest, s.cache.lruList = front ++ rest ∧
      (∀ a ∈ front, T (s.heap.entry a).pageNum) ∧
      ∀ a p, (a, p) ∈ (∅ : Links) → a ∈ front :=
    ⟨[], s.cache.lruList, rfl, fun _ hb => absurd hb List.not_mem_nil,
      fun _ _ hl => absurd hl (Set.notMem_empty _)⟩
  have hcached : ∀ p a, s.cache.pageMap.lookup p = some a → m.cached p = true := fun p a ha => by
    rw [hm p, decide_eq_true_iff, ← h.numPages]
    exact h.counted.counted p a ha
  rcases lt_or_ge s.cache.maxPages filePagesNum with hc | hc
  · refine ⟨m, ⟨h.counted.wf, rfl, h.page, h.numPages, hcached,
      fun hge => absurd hge (not_le.2 hc), fun _ p hp => ?_,
      fun _ _ hl => absurd hl (Set.notMem_empty _), hrecent⟩, hm.counted⟩
    rw [hm p, decide_eq_true_iff] at hp
    exact hp
  · refine ⟨⟨m.page, fun p => (s.cache.pageMap.lookup p).isSome, m.numPages⟩,
      ⟨h.counted.wf, rfl, h.page, h.numPages, fun p a ha => by simp [ha],
        fun _ p hp => Option.isSome_iff_exists.1 hp,
        fun hlt => absurd hlt (not_lt.2 hc), fun _ _ hl => absurd hl (Set.notMem_empty _), hrecent⟩,
          ?_⟩
    refine Mem.ext rfl (funext fun p => ?_) rfl
    show ((s.cache.pageMap.lookup p).isSome || decide (p < m.numPages)) = m.cached p
    cases ha : s.cache.pageMap.lookup p with
    | none => exact (hm p).symm
    | some a => exact (hcached p a ha).symm

/-- **What a run in flat memory does, the run on the pager does**, if the flat run does
not ask for other pages than those in `T`, nor for a page that leaves a gap. -/
theorem wp_of_tight {α : Type} {f : Prog Addr α} {g : Prog ℕ α} {Q : α → Mem → Prop}
    {F : Fault → Mem → Prop}
    (h : s.Flat m) (hm : m.Tight) (hf : Fits T s.cache.maxPages) (hmatch : ∀ w, Match Eq' w f g)
    (hwp : Program.wp (Mem.handler K T) g Q F m) (htight : (g.run (Mem.handler K T) m).2.Tight)
    (hrange : ∀ what m', ¬ F (.outOfRange what) m') :
    Program.wp (Pager.strict K) f (fun a s' => s'.cache.maxPages = s.cache.maxPages ∧ ∃ m', Q a m' ∧
      s'.Flat m')
      (fun e s' => s'.cache.maxPages = s.cache.maxPages ∧ ∃ m', F e m' ∧ s'.Flat m') s := by
  obtain ⟨m₀, hsim, hcounted⟩ := h.sim (T := T) hm
  obtain ⟨hres, hstate⟩ := Mem.counted_run (K := K) (T := T) g m₀
  rw [hcounted] at hres hstate
  unfold Program.wp at hwp ⊢
  rw [← hstate] at htight
  have hlost : ¬ Lost (lost s.cache.maxPages T) (g.run (Mem.handler K T) m₀) := by
    rcases hr : g.run (Mem.handler K T) m₀ with ⟨r, m'⟩
    rcases ht : g.run (Mem.handler K T) m with ⟨r', t⟩
    rw [hr, ht] at hres
    rw [hr] at htight
    rw [ht] at hwp
    obtain rfl : r = r' := hres
    intro hl
    -- no page beyond the counter is in the cache
    have hgap : ¬ ∃ n, m'.cached n = true ∧ m'.numPages ≤ n := by
      rintro ⟨n, hc, hn⟩
      have hcn : m'.counted.cached n = true := by simp [Mem.counted, hc]
      have htn : m'.counted.cached n = decide (n < m'.numPages) := htight n
      rw [htn, decide_eq_true_iff] at hcn
      exact absurd hcn (not_lt.2 hn)
    rcases r with e | a
    · obtain ⟨-, ⟨what, he⟩ | ⟨-, hn⟩⟩ := hl
      · rw [Option.some.inj he] at hwp
        exact hrange what _ hwp
      · exact hgap hn
    · obtain ⟨-, ⟨what, he⟩ | ⟨-, hn⟩⟩ := hl
      · cases he
      · exact hgap hn
  obtain ⟨r, s', m', hrun, hflat, hsim'⟩ := (hsim.run (K := K) hf hmatch).resolve_right hlost
  rw [hflat] at hres hstate htight
  rw [hrun]
  rcases ht : g.run (Mem.handler K T) m with ⟨r', t⟩
  rw [ht] at hwp hres hstate
  obtain rfl : r = r' := hres
  obtain rfl : m'.counted = t := hstate
  rcases r with e | a
  · exact ⟨hsim'.maxPages, _, hwp, hsim'.flat htight⟩
  · exact ⟨hsim'.maxPages, _, hwp, hsim'.flat htight⟩

/-- Code that asks for no page beyond the unused one leaves no gap. -/
theorem tight_run {α : Type} (g : Prog ℕ α) {m : Mem} (hm : m.Tight)
    (hT : ∀ q, T q → q ≤ m.numPages) :
    (g.run (Mem.handler K T) m).2.Tight := by
  refine (run_invariant (C := fun m => m.Tight ∧ ∀ q, T q → q ≤ m.numPages) (fun o m h => ?_) g m
    ⟨hm, hT⟩).1
  obtain ⟨hm, hT⟩ := h
  -- the other operations change neither the cache nor the count
  have hsame : ∀ {α : Type} {C : Prop} [Decidable C] (x : Except Fault α × Mem),
      x.2.cached = m.cached → x.2.numPages = m.numPages →
      ((if C then x else (.error .outOfPage, m)).2.Tight ∧
        ∀ q, T q → q ≤ (if C then x else (.error .outOfPage, m)).2.numPages) := by
    intro α C _ x hc hn
    split
    · exact ⟨fun p => by rw [hc, hn]; exact hm p, fun q hq => by rw [hn]; exact hT q hq⟩
    · exact ⟨hm, hT⟩
  cases o with
  | getPage n =>
    show (if T n then _ else _ : Except Fault ℕ × Mem).2.Tight ∧ ∀ q, T q →
        q ≤ (if T n then _ else _ : Except Fault ℕ × Mem).2.numPages
    by_cases hn : T n
    · rw [if_pos hn]
      rcases (hT n hn).lt_or_eq with hlt | rfl
      · rw [hm.touch_of_lt hlt]
        exact ⟨hm, hT⟩
      -- the page got is the first unused one
      · exact ⟨hm.alloc, fun q hq => by
          have hle := hT q hq
          have hnum := hm.numPages_alloc
          show q ≤ m.alloc.numPages
          omega⟩
    · rw [if_neg hn]
      exact ⟨hm, hT⟩
  | getUnusedPage => exact ⟨hm, hT⟩
  | load p l => exact hsame _ rfl rfl
  | store p l v => exact hsame _ rfl rfl
  | memcpy dst dl src sl k => exact hsame _ rfl rfl
  | fill dst dl k b => exact hsame _ rfl rfl

/-- **What a run in flat memory does, the run on the pager does**, if the pages it may ask
for fit in the cache and leave no gap. -/
theorem wp {α : Type} {f : Prog Addr α} {g : Prog ℕ α} {Q : α → Mem → Prop} {F : Fault → Mem → Prop}
    (h : s.Flat m) (hm : m.Tight) (hf : Fits T s.cache.maxPages) (hT : ∀ q, T q → q ≤ m.numPages)
    (hmatch : ∀ w, Match Eq' w f g) (hwp : Program.wp (Mem.handler K T) g Q F m)
    (hrange : ∀ what m', ¬ F (.outOfRange what) m') :
    Program.wp (Pager.strict K) f (fun a s' => s'.cache.maxPages = s.cache.maxPages ∧ ∃ m', Q a m' ∧
      s'.Flat m')
      (fun e s' => s'.cache.maxPages = s.cache.maxPages ∧ ∃ m', F e m' ∧ s'.Flat m') s :=
  h.wp_of_tight hm hf hmatch hwp (tight_run g hm hT) hrange

end Pager.Flat

end ToySQL
