import ToySQL.Proof.PagerClient

/-!
# The pager as its clients see it

* `PagerClient.reads_back`: over a file of all pages, a client reads every page as it left
  it, whatever the cache evicts and whenever it is flushed.
* `PagerClient.boundedLru`: over any file, the cache is a bounded least-recently-used map.
* `PagerClient.safe_iff`: over a file of any length, a client is served safely exactly if
  every page it asks for is whole in the file and keeps its bytes when the file is opened.
-/

namespace ToySQL

namespace PagerClient

variable {c : PagerClient} {m : Pages}

/-! ## Reading back -/

/-- A client sees the pages of the file. By induction on the steps. -/
theorem Sees.run {P : ℕ → Prop} (hP : ∀ p < filePagesNum, P p) :
    ∀ (steps : List PagerStep) {c : PagerClient} {m : Pages},
      (∀ p, PagerStep.getPage p ∈ steps → p < filePagesNum) → Sees P c m →
        filePagesNum * pageSize ≤ c.pager.file.file.size →
          (PagerClient.run steps c).1 = (Pages.run steps m).map .ok
  | [], _, _, _, _, _ => rfl
  | .getPage p :: rest, c, m, hsteps, h, hsize => by
    have hp := hsteps p List.mem_cons_self
    have hle := FStream.Open.holds ⟨h.sound.works, hsize⟩ hp
    obtain ⟨a, s', hget, hf, hsees⟩ := h.getPage (hP p hp) hp hle
    have ih := Sees.run hP rest (fun q hq => hsteps q (List.mem_cons_of_mem _ hq)) hsees
      (hsize.trans hf.size)
    unfold PagerClient.run Pages.run
    rw [hget, List.map_cons, ← ih]
  | .change data :: rest, c, m, hsteps, h, hsize => by
    have hsize' : filePagesNum * pageSize ≤ (c.change data).pager.file.file.size := by
      rw [change_file]
      exact hsize
    exact Sees.run hP rest (fun q hq => hsteps q (List.mem_cons_of_mem _ hq)) (h.change data) hsize'
  | .flushAll :: rest, c, m, hsteps, h, hsize => by
    have hsize' := hsize.trans (h.sound.flushList (l := c.pager.cache.lruList) fun _ => id).2.1
    exact Sees.run hP rest (fun q hq => hsteps q (List.mem_cons_of_mem _ hq)) h.flushAll hsize'

/-- **The pager reads back what was written**, with a cache of any size. -/
theorem reads_back (file : File) (hsize : file.size = filePagesNum * pageSize) (cacheSize : ℕ)
    (uninit : Addr → Page)
    (steps : List PagerStep) (hsteps : ∀ p, PagerStep.getPage p ∈ steps → p < filePagesNum) :
    ((PagerClient.init file cacheSize uninit).run steps).1 =
      ((Pages.init file).run steps).map .ok := by
  have hu : u32 file.size ≠ 0 := by
    rw [hsize]
    decide
  have hsees :
      Sees (· < filePagesNum) (PagerClient.init file cacheSize uninit) (Pages.init file) := by
    refine ⟨Pager.init_sound file cacheSize uninit, fun p hp => ?_, Or.inl ⟨rfl, rfl⟩⟩
    refine (Pager.init_page file cacheSize uninit hp).trans ?_
    rw [if_neg hu]
    rfl
  refine hsees.run (fun _ => id) steps hsteps ?_
  exact hsize.symm.le.trans (Pager.init_file_spec file cacheSize uninit).2.1

/-- A cache of no entries, a page left with new bytes, a flush, and the page again. -/
theorem reads_back_flushed :
    ((PagerClient.init ⟨filePagesNum * pageSize, 7⟩ 0 fun _ => Bytes.zero pageSize).run
      [.getPage 3, .flushAll, .change (Bytes.ofNat pageSize 5), .getPage 4, .getPage 3]).1 =
      ((Pages.init ⟨filePagesNum * pageSize, 7⟩).run
        [.getPage 3, .flushAll, .change (Bytes.ofNat pageSize 5), .getPage 4, .getPage 3]).map
          .ok := by
  refine reads_back ⟨filePagesNum * pageSize, 7⟩ rfl 0 _ _ fun p hp => ?_
  simp only [List.mem_cons, PagerStep.getPage.injEq, reduceCtorEq, List.not_mem_nil, or_false,
    false_or] at hp
  unfold filePagesNum
  omega

/-! ## The cache -/

/-- The cache is a least-recently-used map of at most `max 1 maxPages` entries, after the
given requests, the last one first, and the next request keeps it one. -/
structure BoundedLru (maxPages : ℕ) (requests : List ℕ) (s : Pager) : Prop where
  mem : ∀ a, a ∈ s.cache.lruList ↔ ∃ p, s.cache.pageMap.lookup p = some a
  pageNum : ∀ p a, s.cache.pageMap.lookup p = some a → (s.heap.entry a).pageNum = p
  nodup : s.cache.lruList.Nodup
  length : s.cache.pageMap.keys.length = s.cache.lruList.length
  size : s.cache.lruList.length ≤ max 1 maxPages
  requested : ∀ a ∈ s.cache.lruList, (s.heap.entry a).pageNum ∈ requests
  order : s.cache.lruList.Pairwise fun a b =>
    requests.idxOf (s.heap.entry a).pageNum < requests.idxOf (s.heap.entry b).pageNum
  evicts : ∀ p < filePagesNum, ∀ b ∈ s.cache.lruList, b ∉ (s.getPage p).2.cache.lruList →
    s.cache.pageMap.lookup p = none ∧ s.cache.lruList.length = max 1 maxPages ∧
      (∀ a ∈ s.cache.lruList, a ≠ b →
        requests.idxOf (s.heap.entry a).pageNum < requests.idxOf (s.heap.entry b).pageNum) ∧
      (s.heap.entry b).pageNum ≠ p ∧ (s.getPage p).1 ≠ .ok b
  /-- A cached page is returned from the cache. -/
  hit : ∀ p < filePagesNum, ∀ a, s.cache.pageMap.lookup p = some a → (s.getPage p).1 = .ok a
  /-- A page that is returned is cached, at the front of the list, and the others stay behind it. -/
  front : ∀ p < filePagesNum, ∀ a, (s.getPage p).1 = .ok a →
    (s.getPage p).2.cache.pageMap.lookup p = some a ∧
    (s.getPage p).2.cache.lruList = a :: s.behind p
  /-- No entry becomes that of another page. -/
  frame : ∀ p < filePagesNum, ∀ b ∈ s.cache.lruList,
    ((s.getPage p).2.heap.entry b).pageNum = (s.heap.entry b).pageNum
  /-- A request that throws leaves the cache as it is. -/
  thrown : ∀ p < filePagesNum, ∀ e, (s.getPage p).1 = .error e → (s.getPage p).2.cache = s.cache

/-- What `Lru` says of the cache is what the cache promises. -/
theorem bounded {s : Pager} {requests : List ℕ} (h : s.Lru requests) :
    BoundedLru s.cache.maxPages requests s := by
  have hgets : ∀ {p}, p < filePagesNum → Pager.Gets s p (s.getPage p).1 (s.getPage p).2 :=
    fun hp => h.toCached.gets hp
  have horder := h.recency.order
  unfold Pager.cachedPages at horder
  have horder' := List.pairwise_map.1 horder
  refine ⟨fun a => ⟨fun ha => ⟨_, (h.lookup _ a).2 ⟨ha, rfl⟩⟩, ?_⟩,
    fun p a hl => ((h.lookup p a).1 hl).2,
    h.nodup, h.length_keys, h.size, fun a ha => ?_, horder', fun p hp b hb hout => ?_,
    fun p hp a hl => (hgets hp).eq_of_lookup hl, fun p hp a hok => ?_,
    fun p hp b hb => (hgets hp).pageNum h.toCached hb, fun p hp e herror => ?_⟩
  · rintro ⟨p, hl⟩
    exact ((h.lookup p a).1 hl).1
  · exact h.recency.requested _ (List.mem_map_of_mem ha)
  · exact h.evicted (hgets hp) hb hout
  · have hg := hgets hp
    rw [hok] at hg
    exact hg.front
  · have hg := hgets hp
    rw [herror] at hg
    exact hg.thrown

/-- **The page cache is a bounded LRU map** in every state a client can bring about. -/
theorem boundedLru (file : File) (maxPages : ℕ) (uninit : Addr → Page) (steps : List PagerStep)
    (hsteps : ∀ p, PagerStep.getPage p ∈ steps → p < filePagesNum) :
    BoundedLru maxPages (steps.filterMap PagerStep.request).reverse
      ((PagerClient.init file maxPages uninit).run steps).2.pager := by
  obtain ⟨h, hmax⟩ := lru_run steps hsteps (c := PagerClient.init file maxPages uninit)
    (Pager.init_lru file maxPages uninit)
  have hbounded := bounded h
  rw [hmax, List.append_nil] at hbounded
  exact hbounded

/-- Two entries for the pages 3, 4, 3 again and 5: the third request finds its page, the last
one drops the page 4. -/
theorem boundedLru_two : BoundedLru 2 [5, 3, 4, 3]
      ((PagerClient.init ⟨filePagesNum * pageSize, 7⟩ 2 fun _ => Bytes.zero pageSize).run
        [.getPage 3, .getPage 4, .getPage 3, .getPage 5]).2.pager ∧
    ((PagerClient.init ⟨filePagesNum * pageSize, 7⟩ 2 fun _ => Bytes.zero pageSize).run
        [.getPage 3, .getPage 4, .getPage 3, .getPage 5]).2.pager.cachedPages = [5, 3] := by
  refine ⟨boundedLru ⟨filePagesNum * pageSize, 7⟩ 2 _ [.getPage 3, .getPage 4, .getPage 3,
    .getPage 5]
    fun p hp => ?_, by decide +kernel⟩
  simp only [List.mem_cons, PagerStep.getPage.injEq, List.not_mem_nil, or_false] at hp
  unfold filePagesNum
  omega

/-! ## Files of any length -/

/-- The page is whole in the file, and opening the file does not overwrite it with other
bytes. -/
def Kept (file : File) (p : ℕ) : Prop :=
  p * pageSize + pageSize ≤ file.size ∧
    (u32 file.size ≠ 0 ∨ file.bytes (p * pageSize) pageSize = Bytes.zero pageSize)

/-- A client that asked for kept pages only. -/
structure Served (file : File) (cacheSize : ℕ) (uninit : Addr → Page) (c : PagerClient)
    (m : Pages) : Prop
    extends Sees (fun p => p < filePagesNum ∧ Kept file p) c m where
  size : file.size ≤ c.pager.file.file.size
  dirty : ∀ a ∈ c.pager.cache.lruList, (c.pager.heap.entry a).dirty = true
  changed : ∀ p ∈ m.changed, p < filePagesNum ∧ Kept file p
  others : ∀ p, ¬ (p < filePagesNum ∧ Kept file p) → m.page p = file.bytes (p * pageSize) pageSize ∧
    c.pager.page p = (Pager.init file cacheSize uninit).page p

namespace Served

variable {file : File} {cacheSize : ℕ} {uninit : Addr → Page} {p : ℕ}

/-- The pager starts with the pages of its file. -/
theorem init :
    Served file cacheSize uninit (PagerClient.init file cacheSize uninit) (Pages.init file) := by
  refine ⟨⟨Pager.init_sound file cacheSize uninit, fun p hp => ?_, Or.inl ⟨rfl, rfl⟩⟩,
    (Pager.init_file_spec file cacheSize uninit).2.1, fun a ha => absurd ha List.not_mem_nil,
    fun p hp => absurd hp List.not_mem_nil, fun p _ => ⟨rfl, rfl⟩⟩
  refine (Pager.init_page file cacheSize uninit hp.1).trans ?_
  split
  · exact (hp.2.2.resolve_left (not_not.2 ‹_›)).symm
  · rfl

theorem getPage (h : Served file cacheSize uninit c m) (hp : p < filePagesNum) (hk : Kept file p) :
    ∃ c', c.getPage p = (.ok (m.page p), c') ∧ Served file cacheSize uninit c' (m.getPage p) := by
  obtain ⟨a, s', hget, hf, hsees⟩ := h.toSees.getPage ⟨hp, hk⟩ hp (hk.1.trans h.size)
  refine ⟨_, hget, hsees, h.size.trans hf.size, fun b hb => ?_, h.changed, fun q hq => ?_⟩
  · have hg := h.sound.toCached.gets hp
    rw [← getPage_pager, hget] at hg
    exact hg.dirty h.sound.toCached h.dirty b hb
  · obtain ⟨hm, hpage⟩ := h.others q hq
    exact ⟨hm, (congrFun hf.page q).trans hpage⟩

theorem change (h : Served file cacheSize uninit c m) (data : Page) :
    Served file cacheSize uninit (c.change data) (m.change data) := by
  have hsees := h.toSees.change data
  unfold PagerClient.change Pages.change at hsees ⊢
  rcases h.entry with ⟨hc, hm⟩ | ⟨a, p, hc, hm, hP, hl⟩
  · rw [hc, hm] at hsees ⊢
    exact h
  · rw [hc, hm] at hsees ⊢
    refine ⟨hsees, h.size, fun b hb => ?_, fun q hq => ?_, fun q hq => ?_⟩
    · exact (Pager.setData_dirty a b data).trans (h.dirty b hb)
    · rcases List.mem_cons.1 hq with rfl | hq
      · exact hP
      · exact h.changed q hq
    · have hqp : q ≠ p := by
        rintro rfl
        exact hq hP
      obtain ⟨hm', hpage⟩ := h.others q hq
      refine ⟨(Function.update_of_ne hqp _ _).trans hm', ?_⟩
      show (c.pager.setData a data).page q = _
      rw [h.sound.setData_page hl, Function.update_of_ne hqp]
      exact hpage

/-- A page that is not kept is not served safely. -/
theorem not_safe (h : Served file cacheSize uninit c m) (hp : p < filePagesNum) (hk : ¬ Kept file p)
    (rest : List PagerStep) : ¬ PagerClient.Safe file (.getPage p :: rest) c m := by
  obtain ⟨hm, hpage⟩ := h.others p fun hP => hk hP.2
  have hg := h.sound.toCached.gets hp
  unfold PagerClient.Safe PagerClient.getPage
  rcases hget : c.pager.getPage p with ⟨e | a, s'⟩
  · -- the stream still works, so that nothing is thrown
    rw [hget] at hg
    cases hg with
    | failed _ hfail =>
      rw [h.sound.works.fail] at hfail
      cases hfail
  · rintro ⟨⟨hle, hdata⟩, -⟩
    obtain ⟨a', s'', hget', hf⟩ := h.sound.getPage_spec hp (hle.trans h.size)
    rw [hget] at hget'
    obtain ⟨ha, rfl⟩ := Prod.mk.inj hget'
    obtain rfl := Except.ok.inj ha
    -- a page that was read rightly was in the file, or the file is empty
    have hzero : u32 file.size = 0 := by
      by_contra hu
      exact hk ⟨hle, Or.inl hu⟩
    apply hk
    refine ⟨hle, Or.inr ?_⟩
    rw [← hm, ← hdata, ← Pager.page_of_lookup hf.found, hf.page, hpage,
      Pager.init_page file cacheSize uninit hp,
      if_pos hzero]

/-- **A run is safe** exactly if all pages it asks for are kept. -/
theorem safe_run : ∀ (steps : List PagerStep) {c : PagerClient} {m : Pages},
    (∀ p, PagerStep.getPage p ∈ steps → p < filePagesNum) → PagerStep.flushAll ∉ steps →
      Served file cacheSize uninit c m →
        (PagerClient.Safe file steps c m ↔ ∀ p, PagerStep.getPage p ∈ steps → Kept file p)
  | [], c, m, _, _, h => by
    refine ⟨fun _ p hp => absurd hp List.not_mem_nil, fun _ p hp => ?_⟩
    exact (h.sound.flushAll_file h.dirty p).trans (h.page p (h.changed p hp))
  | .getPage p :: rest, c, m, hsteps, hflush, h => by
    have hp := hsteps p List.mem_cons_self
    have hsteps' : ∀ q, PagerStep.getPage q ∈ rest → q < filePagesNum :=
      fun q hq => hsteps q (List.mem_cons_of_mem _ hq)
    -- the first page that is not kept decides
    by_cases hk : Kept file p
    · obtain ⟨c', hget, h'⟩ := h.getPage hp hk
      have ih := safe_run rest hsteps' (fun hf => hflush (List.mem_cons_of_mem _ hf)) h'
      unfold PagerClient.Safe
      rw [hget]
      constructor
      · rintro ⟨-, hrest⟩ q hq
        rcases List.mem_cons.1 hq with he | hq
        · rw [PagerStep.getPage.inj he]
          exact hk
        · exact ih.1 hrest q hq
      · intro hall
        exact ⟨⟨hk.1, rfl⟩, ih.2 fun q hq => hall q (List.mem_cons_of_mem _ hq)⟩
    · constructor
      · intro hsafe
        exact absurd hsafe (h.not_safe hp hk rest)
      · intro hall
        exact absurd (hall p List.mem_cons_self) hk
  | .change data :: rest, c, m, hsteps, hflush, h => by
    have ih := safe_run rest (fun q hq => hsteps q (List.mem_cons_of_mem _ hq))
      (fun hf => hflush (List.mem_cons_of_mem _ hf)) (h.change data)
    refine ih.trans (forall_congr' fun q => imp_congr_left ?_)
    rw [List.mem_cons]
    exact ⟨Or.inr, fun hq => hq.resolve_left (by rintro ⟨⟩)⟩
  | .flushAll :: _, _, _, _, hflush, _ => absurd List.mem_cons_self hflush

end Served

/-- **Opening a file of any length** is safe exactly for the clients that ask for kept
pages only. -/
theorem safe_iff (file : File) (_ : file.size ≠ 0) (cacheSize : ℕ) (uninit : Addr → Page)
    (steps : List PagerStep)
    (hsteps : ∀ p, PagerStep.getPage p ∈ steps → p < filePagesNum)
    (hflush : PagerStep.flushAll ∉ steps) :
    PagerClient.Safe file steps (PagerClient.init file cacheSize uninit) (Pages.init file) ↔
      ∀ p, PagerStep.getPage p ∈ steps → Kept file p :=
  Served.safe_run steps hsteps hflush Served.init

/-- Two pages and a half. -/
theorem safe_halfPage :
    PagerClient.Safe ⟨10000, 7⟩ [.getPage 1, .change (Bytes.ofNat pageSize 5)]
        (PagerClient.init ⟨10000, 7⟩ 1 fun _ => Bytes.zero pageSize) (Pages.init ⟨10000, 7⟩) ↔
      ∀ p, PagerStep.getPage p ∈ [.getPage 1, .change (Bytes.ofNat pageSize 5)] →
        Kept ⟨10000, 7⟩ p := by
  refine safe_iff ⟨10000, 7⟩ (by decide) 1 _ _ (fun p hp => ?_) ?_
  · simp only [List.mem_cons, PagerStep.getPage.injEq, reduceCtorEq, List.not_mem_nil,
      or_false] at hp
    rw [hp]
    decide
  · simp

/-- The one byte of a file is returned as a page. -/
theorem not_safe_oneByte :
    ¬ ∀ (file : File), file.size ≠ 0 → ∀ (cacheSize : ℕ) (uninit : Addr → Page)
    (steps : List PagerStep), (∀ p, PagerStep.getPage p ∈ steps → p < filePagesNum) →
      PagerStep.flushAll ∉ steps →
      PagerClient.Safe file steps (PagerClient.init file cacheSize uninit) (Pages.init file) := by
  intro h
  have hsafe :=
    h ⟨1, 7⟩ (by decide) 1 (fun _ => Bytes.zero pageSize) [.getPage 0] (fun p hp => ?_) (by simp)
  · have hle : 0 * pageSize + pageSize ≤ 1 := And.left (And.left hsafe)
    exact absurd hle (by decide)
  · rw [PagerStep.getPage.inj (List.mem_singleton.1 hp)]
    decide

end PagerClient

end ToySQL
