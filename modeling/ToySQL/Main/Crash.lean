import ToySQL.Main.Visits
import ToySQL.Spec.Crash

/-!
# What a killed process leaves

* `file_versions`: whatever is done with the cached entries of a pager, its file has of each page
  what the page was at some time, never goes back to an earlier time, and has all of them from the
  first `flush_all` on.
* `killed_pages`: in a session whose insertions find room, the file has of each page what the page
  was between two works, and no half of an insertion.
-/

namespace ToySQL

open Program

variable {fuel : ℕ} {s t u : Pager} {p : ℕ}

/-! ## What reaches the file -/

namespace Pager

/-- The file of `t` has of each page what the file of `s` had, or what the page was in `s`. -/
def Stores (s t : Pager) : Prop := ∀ p, t.file.page p = s.file.page p ∨ t.file.page p = s.page p

theorem Stores.of_file (h : t.file.file = s.file.file) : s.Stores t := by
  intro p
  left
  unfold FStream.page
  rw [h]

theorem Stores.refl (s : Pager) : s.Stores s := .of_file rfl

theorem Stores.trans (h : s.Stores t) (hpage : t.page = s.page) (h' : t.Stores u) : s.Stores u := by
  intro p
  rcases h' p with hfile | hnow
  · rw [hfile]
    exact h p
  · right
    rw [hnow, hpage]

/-- An entry that is evicted has the contents of its page. -/
theorem stores_getPage (h : s.Wf) (hp : p < filePagesNum) : s.Stores (s.getPage p).2 := by
  intro q
  -- either nothing is evicted, or the least recently used entry is written to its place
  obtain ⟨f, hf, hsame, hkept | ⟨lru, hlru, hevicted⟩⟩ := getPage_stream h hp
  · exact Stores.of_file (hkept.trans hsame) q
  · rw [hevicted, (hf.write_page (h.lt lru hlru).2 _).2.2 q]
    split
    · rename_i hq
      right
      rw [hq, page_of_lookup ((h.lookup _ lru).2 ⟨hlru, rfl⟩)]
    · left
      unfold FStream.page
      rw [hsame]

/-- Flushing an entry writes its page as it is. -/
theorem stores_flush {a : Addr} (h : s.Sound) (ha : a ∈ s.cache.lruList) :
    s.Stores (s.flush a) := by
  intro q
  rw [(h.flush_file ha).2.2 q]
  split
  · rename_i hq
    right
    rw [hq.2, page_of_lookup ((h.lookup _ a).2 ⟨ha, rfl⟩)]
  · exact Or.inl rfl

/-- Flushing entries writes their pages as they are. By induction on the list. -/
theorem stores_flushList {l : List Addr} (hl : ∀ a ∈ l, a ∈ s.cache.lruList) (h : s.Sound) :
    s.Stores (s.flushList l) := by
  induction l generalizing s with
  | nil => exact Stores.refl s
  | cons a l ih =>
    have ha := hl a List.mem_cons_self
    rw [flushList_cons]
    apply (stores_flush h ha).trans (h.flush_page ha)
    apply ih
    · intro b hb
      rw [flush_cache]
      exact hl b (List.mem_cons_of_mem a hb)
    · exact h.flush ha

namespace Wf

/-- **One operation**, through any pointer. -/
theorem operation (h : s.Wf) (o : PagerOp Addr) :
    (handler o s).2.Wf ∧ s.Stores (handler o s).2 := by
  rcases handler_cases o s with heq | ⟨p, hp, heq⟩ | ⟨a, data, heq⟩
  · rw [heq]
    exact ⟨h, .refl s⟩
  · rw [heq]
    refine ⟨?_, stores_getPage h hp⟩
    obtain ⟨a, s', hget, hgot⟩ := h.getPage_spec hp
    rw [hget]
    exact hgot.wf
  · -- what is written to an entry does not reach the file yet
    rw [heq]
    exact ⟨h.setData a data, .of_file rfl⟩

theorem flushList (h : s.Wf) {l : List Addr} (hl : ∀ a ∈ l, a ∈ s.cache.lruList) :
    (s.flushList l).Wf ∧ (s.flushList l).page = s.page := by
  obtain ⟨hsound, hsize, hpage, -⟩ := h.sound.flushList hl
  exact ⟨⟨hsound.toCached, hsound.works, h.file.size.trans hsize⟩, hpage⟩

/-- One event writes no page but as it is, and keeps the pager well formed. -/
theorem happen (h : s.Wf) (e : Event) : (s.happen e).Wf ∧ s.Stores (s.happen e) := by
  cases e with
  | op o => exact h.operation o
  | flush rounds =>
    have hl : ∀ a ∈ s.cache.lruList.take rounds, a ∈ s.cache.lruList :=
      fun _ => List.mem_of_mem_take
    exact ⟨(h.flushList hl).1, stores_flushList hl h.sound⟩

/-- The pager stays well formed. -/
theorem after (h : s.Wf) (events : List Event) : (s.after events).Wf := by
  induction events generalizing s with
  | nil => exact h
  | cons e events ih => exact ih (h.happen e).1

/-- New bytes for a cached entry are the new bytes of its page. -/
theorem page_setData (h : s.Wf) {a : Addr} (ha : a ∈ s.cache.lruList) (f : Page → Page) :
    (s.setData a (f (s.heap.entry a).data)).page =
      Function.update s.page (s.pageOf a) (f (s.page (s.pageOf a))) := by
  have hlook : s.cache.pageMap.lookup (s.pageOf a) = some a := (h.lookup _ a).2 ⟨ha, rfl⟩
  rw [h.setData_page hlook, page_of_lookup hlook]

/-- **What an event does to the pages**, through pointers to cached entries. -/
theorem page_happen (h : s.Wf) {e : Event} (hlive : s.UsesLive [e]) :
    (s.happen e).page = s.pagesAfter e := by
  cases e with
  | flush rounds => exact (h.flushList fun _ => List.mem_of_mem_take).2
  | op o =>
    have ho : Live o s := hlive.1
    unfold Pager.happen pagesAfter
    cases o with
    | getPage p =>
      by_cases hp : p < filePagesNum
      · obtain ⟨a, s', hget, hgot⟩ := h.getPage_spec hp
        simp only [handler, hget]
        exact hgot.page
      · simp only [handler, getPage_of_ge (not_lt.1 hp)]
    | getUnusedPage => rfl
    | load a l =>
      simp only [handler]
      split <;> rfl
    | store a l v =>
      simp only [handler]
      split
      · exact h.page_setData ho fun data => data.store l v
      · rfl
    | memcpy dst dl src sl n =>
      -- a live source is the entry of its page
      have hsrc : s.page (s.pageOf src) = (s.heap.entry src).data :=
        page_of_lookup ((h.lookup _ src).2 ⟨ho.2, rfl⟩)
      simp only [handler, hsrc]
      split
      · exact h.page_setData ho.1 fun data =>
          data.splice dl.offset ((s.heap.entry src).data.slice sl.offset n)
      · rfl
    | fill a l n buffer =>
      simp only [handler]
      split
      · exact h.page_setData ho fun data => data.splice l.offset buffer
      · rfl

end Wf

end Pager

/-! ## Versions of the pages -/

theorem foldl_take_succ {α β : Type} (f : β → α → β) (b : β) {l : List α} {n : ℕ}
    (hn : n < l.length) :
    (l.take (n + 1)).foldl f b = f ((l.take n).foldl f b) l[n] := by
  rw [List.take_succ_eq_append_getElem hn, List.foldl_append]
  rfl

/-- The first elements, up to one that is known. -/
theorem take_succ_append {α : Type} (pre post : List α) (x : α) :
    (pre ++ x :: post).take (pre.length + 1) = pre ++ [x] := by
  rw [List.take_append, List.take_of_length_le (Nat.le_succ _), Nat.add_sub_cancel_left,
    List.take_succ_cons, List.take_zero]

/-- Along the events the file only takes pages as they are. -/
theorem Pager.Wf.writesBack (h : s.Wf) (hfile : ∀ p, s.file.page p = s.page p)
    (events : List Event) :
    WritesBack (fun i => (s.after (events.take i)).page)
      (fun i => (s.after (events.take i)).file.page) := by
  refine ⟨hfile, fun n p => ?_⟩
  by_cases hn : n < events.length
  · have hnext : s.after (events.take (n + 1)) = (s.after (events.take n)).happen events[n] :=
      foldl_take_succ _ s hn
    rw [hnext]
    exact ((h.after _).happen events[n]).2 p
  · rw [List.take_of_length_le (not_lt.1 hn),
      List.take_of_length_le (Nat.le_succ_of_le (not_lt.1 hn))]
    exact Or.inl rfl

/-- Each event of a list uses cached entries when it happens. -/
theorem usesLive_getElem {events : List Event} {n : ℕ} {e : Event} (hlive : s.UsesLive events)
    (he : events[n]? = some e) : (s.after (events.take n)).UsesLive [e] := by
  induction events generalizing s n with
  | nil => cases he
  | cons first events ih =>
    cases n with
    | zero =>
      obtain rfl := Option.some.inj he
      cases first with
      | op o => exact ⟨hlive.1, trivial⟩
      | flush rounds => trivial
    | succ n =>
      cases first with
      | op o => exact ih hlive.2 he
      | flush rounds => exact ih hlive he

/-- Without a flush round every cached page stays marked. -/
theorem Pager.AllDirty.after {events : List Event} (h : s.AllDirty)
    (hflush : ∀ rounds, .flush rounds ∉ events) :
    (s.after events).AllDirty := by
  induction events generalizing s with
  | nil => exact h
  | cons e events ih =>
    cases e with
    | op o => exact ih (h.step o s) fun rounds hmem => hflush rounds (List.mem_cons_of_mem _ hmem)
    | flush rounds => exact absurd List.mem_cons_self (hflush rounds)

theorem allDirty_init {file : File}
    (hfile : u32 file.size = 0 ∨ filePagesNum * pageSize ≤ file.size) (c : ℕ)
    (uninit : Addr → Page) : (Pager.init file c uninit).AllDirty :=
  ⟨Pager.init_wf hfile, fun _ ha => absurd ha List.not_mem_nil⟩

/-- At the start the file has the pages of the pager. -/
theorem Pager.init_file_page {file : File} {c : ℕ} {uninit : Addr → Page} (p : ℕ) :
    (Pager.init file c uninit).file.page p = (Pager.init file c uninit).page p :=
  (Pager.page_of_none (AList.lookup_empty p)).symm

/-- The first flush brings all pages to the file. -/
theorem Pager.AllDirty.flush_file (h : s.AllDirty) {rounds : ℕ}
    (hrounds : s.cache.lruList.length ≤ rounds) :
    (s.happen (.flush rounds)).file.page p = (s.happen (.flush rounds)).page p := by
  have hall : s.happen (.flush rounds) = s.flushAll := by
    show s.flushList (s.cache.lruList.take rounds) = s.flushAll
    rw [List.take_of_length_le hrounds]
    rfl
  rw [hall, h.toWf.sound.flushAll_file h.dirty p, h.toWf.sound.flushAll.2]

/-- **What the file has of a page** is what the page was at some time. That time never goes back,
and is not before the end of the first flush, if that was a whole one. What the pages are at a time
is what was written to them through cached entries. -/
theorem file_versions (file : File)
    (hfile : u32 file.size = 0 ∨ filePagesNum * pageSize ≤ file.size) (c : ℕ)
    (uninit : Addr → Page) (events : List Event)
    (hlive : (Pager.init file c uninit).UsesLive events) :
    (∀ n p, (Pager.init file c uninit).fileVersion events n p ≤ n ∧
      ((Pager.init file c uninit).after (events.take n)).file.page p =
        ((Pager.init file c uninit).after
          (events.take ((Pager.init file c uninit).fileVersion events n p))).page p) ∧
      (∀ p, Monotone fun n => (Pager.init file c uninit).fileVersion events n p) ∧
      (∀ pre rounds post, events = pre ++ .flush rounds :: post → (∀ r, .flush r ∉ pre) →
        ((Pager.init file c uninit).after pre).cache.lruList.length ≤ rounds →
        ∀ n > pre.length, ∀ p, pre.length < (Pager.init file c uninit).fileVersion events n p) ∧
      ∀ n e, events[n]? = some e → ((Pager.init file c uninit).after (events.take (n + 1))).page =
        ((Pager.init file c uninit).after (events.take n)).pagesAfter e := by
  have hdirty := allDirty_init hfile c uninit
  have hback := hdirty.toWf.writesBack Pager.init_file_page events
  refine ⟨fun n p => ⟨version_le, (hback.current_version n p).symm⟩, hback.version_mono, ?_,
    fun n e he => ?_⟩
  · rintro pre rounds post rfl hfirst hrounds n hn p
    apply Nat.lt_of_succ_le
    apply hback.le_version_of_eq (n := pre.length + 1) _ hn
    have hlast : (Pager.init file c uninit).after (pre ++ [.flush rounds]) =
        ((Pager.init file c uninit).after pre).happen (.flush rounds) := List.foldl_append
    rw [take_succ_append, hlast]
    -- before the first flush every entry is dirty, so that the flush writes them all
    exact (hdirty.after hfirst).flush_file hrounds
  · obtain ⟨hn, rfl⟩ := List.getElem?_eq_some_iff.1 he
    have hnext : (Pager.init file c uninit).after (events.take (n + 1)) =
        ((Pager.init file c uninit).after (events.take n)).happen events[n] :=
        foldl_take_succ _ _ hn
    rw [hnext]
    exact (hdirty.toWf.after _).page_happen (usesLive_getElem hlive he)

/-- A page that is changed and evicted, got again and changed again. -/
def evictedEvents : List Event :=
  [.op (.getPage 0), .op (.store 0 .numCells 1), .op (.getPage 1), .op (.getPage 0),
    .op (.store 2 .numCells 2), .flush 1]

theorem file_versions_evicted :
    (∀ n p,
      (Pager.init File.empty 1 fun _ => Bytes.zero pageSize).fileVersion evictedEvents n p ≤ n ∧
      ((Pager.init File.empty 1 fun _ => Bytes.zero pageSize).after
        (evictedEvents.take n)).file.page p =
        ((Pager.init File.empty 1 fun _ => Bytes.zero pageSize).after (evictedEvents.take
          ((Pager.init File.empty 1 fun _ => Bytes.zero pageSize).fileVersion
            evictedEvents n p))).page p) ∧
      (∀ p, Monotone fun n => (Pager.init File.empty 1 fun _ => Bytes.zero pageSize).fileVersion
        evictedEvents n p) ∧
      (∀ pre rounds post, evictedEvents = pre ++ .flush rounds :: post → (∀ r, .flush r ∉ pre) →
        ((Pager.init File.empty 1 fun _ => Bytes.zero pageSize).after pre).cache.lruList.length ≤
          rounds →
        ∀ n > pre.length, ∀ p,
          pre.length < (Pager.init File.empty 1 fun _ => Bytes.zero pageSize).fileVersion
            evictedEvents n p) ∧
      ∀ n e, evictedEvents[n]? = some e →
        ((Pager.init File.empty 1 fun _ => Bytes.zero pageSize).after
          (evictedEvents.take (n + 1))).page =
          ((Pager.init File.empty 1 fun _ => Bytes.zero pageSize).after
            (evictedEvents.take n)).pagesAfter e := by
  refine file_versions File.empty (Or.inl rfl) 1 _ evictedEvents ?_
  rw [Pager.init_eq_new]
  decide +kernel

/-! ## The moments of a work -/

/-- The moments from `s` on at which no page is changed yet. -/
structure Unchanged (s t : Pager) : Prop where
  wf : t.Wf
  page : t.page = s.page
  stores : s.Stores t

/-- Getting a page changes none and stores only pages as they are. -/
theorem kept_unchanged : KeptByGets fun t => t.page = s.page ∧ s.Stores t := by
  rintro t p ht ⟨hpage, hstores⟩ hp
  have hget : (t.getPage p).2.page = t.page := by
    obtain ⟨a, t', hget, hgot⟩ := ht.getPage_spec hp
    rw [hget]
    exact hgot.page
  exact ⟨hget.trans hpage, hstores.trans hpage (Pager.stores_getPage ht hp)⟩

/-- Reading changes no page. -/
theorem ReadsLast.moments {α α' : Type} {V : Last → α → α' → Prop} {f : Prog Addr α}
    {f' : Prog ℕ α'} (hf : ReadsLast V none f f')
    (h : s.Wf) : ∀ t ∈ Program.moments Pager.handler f s, Unchanged s t := by
  have hseen :
      Seen (fun t => t.page = s.page ∧ s.Stores t) s.page none s ⟨s.page, fun _ => false, 0⟩ :=
    ⟨h, ⟨rfl, .refl s⟩, fun _ _ => rfl, rfl, fun _ _ hw => by cases hw⟩
  intro t ht
  obtain ⟨w, m, hlast⟩ :=
    Matches.moments (fun _ _ _ _ _ hs ho => hs.step kept_unchanged ho) hf hseen t ht
  exact ⟨hlast.wf, hlast.inv.1, hlast.inv.2⟩

/-- The operation gets no page but `p`. -/
def Stays (p : ℕ) : PagerOp Addr → Prop
  | .getPage n => n = p
  | _ => True

/-- Nothing is evicted while only a page in the cache is got. -/
theorem Stays.step {a : Addr} {file : FStream} (o : PagerOp Addr) (s : Pager) (ho : Stays p o)
    (h : s.file = file ∧ s.cache.pageMap.lookup p = some a) :
    (Pager.handler o s).2.file = file ∧ (Pager.handler o s).2.cache.pageMap.lookup p = some a := by
  cases o with
  | getPage n =>
    -- page `p` is cached, so getting it neither reads nor evicts
    obtain rfl : n = p := ho
    simp only [Pager.handler]
    unfold Pager.getPage PageCache.getPage
    split
    · exact h
    · simp only [h.2]
      exact ⟨h.1, trivial⟩
  | getUnusedPage => exact h
  | load a l =>
    simp only [Pager.handler]
    split_ifs
    · exact h
    · exact h
  | store a l v =>
    simp only [Pager.handler]
    split_ifs
    · exact h
    · exact h
  | memcpy dst dl src sl n =>
    simp only [Pager.handler]
    split_ifs
    · exact h
    · exact h
  | fill dst dl n buffer =>
    simp only [Pager.handler]
    split_ifs
    · exact h
    · exact h

theorem stays_load {a : Addr} {l : Loc} : Only (Stays p) (load a l) := ⟨trivial, fun _ => trivial⟩
theorem stays_store {a : Addr} {l : Loc} {v : ℕ} : Only (Stays p) (store a l v) :=
  ⟨trivial, fun _ => trivial⟩
theorem stays_fill {a : Addr} {l : Loc} {n : ℕ}
    {buffer : Bytes n} : Only (Stays p) (fill a l buffer) := ⟨trivial, fun _ => trivial⟩

/-- Shifting cells gets no page. -/
theorem stays_shiftLeafCells {a : Addr} (c n : ℕ) : Only (Stays p) (shiftLeafCells a c n) := by
  induction n with
  | zero => trivial
  | succ n ih => exact Only.ite ⟨trivial, fun _ => ih⟩ trivial

/-- After the page has been got, only its contents change. -/
theorem Unchanged.writing {α : Type} {a : Addr} {f : Prog Addr α} (h : Unchanged s t)
    (ha : t.cache.pageMap.lookup p = some a)
    (hf : Only (Stays p) f) : ∀ u ∈ Program.moments Pager.handler f t, s.Stores u := by
  intro u hu
  have hu' := hf.moments (J := fun u => u.file = t.file ∧ u.cache.pageMap.lookup p = some a)
    Stays.step ⟨rfl, ha⟩ u hu
  apply h.stores.trans h.page
  exact .of_file (by rw [hu'.1])

/-- Getting a page and going on with its entry. -/
theorem Unchanged.getPage {α : Type} {f : Addr → Prog Addr α} (h : Unchanged s t) (p : ℕ)
    (hf : ∀ a t', Unchanged s t' → t'.cache.pageMap.lookup p = some a →
      ∀ u ∈ Program.moments Pager.handler (f a) t', s.Stores u) :
    ∀ u ∈ Program.moments Pager.handler (ToySQL.getPage p >>= f) t, s.Stores u := by
  intro u hu
  have hstep : (ToySQL.getPage p >>= f : Prog Addr α) = .step (PagerOp.getPage p) f := rfl
  rw [hstep, Program.moments] at hu
  rcases List.mem_cons.1 hu with rfl | hu
  · -- killed before the page is got
    exact h.stores
  · by_cases hp : p < filePagesNum
    · obtain ⟨a, t', hget, hgot⟩ := h.wf.getPage_spec hp
      have ht' : Unchanged s t' := by
        have hkept := kept_unchanged t p h.wf ⟨h.page, h.stores⟩ hp
        rw [hget] at hkept
        exact ⟨hgot.wf, hkept.1, hkept.2⟩
      simp only [Pager.handler, hget] at hu
      exact hf a t' ht' hgot.found u hu
    · simp only [Pager.handler, Pager.getPage_of_ge (not_lt.1 hp)] at hu
      rw [List.mem_singleton.1 hu]
      exact h.stores

/-- At every moment of `initialize_table` the file has only pages as they are. -/
theorem moments_initializeTable (h : s.Wf) :
    ∀ t ∈ Program.moments Pager.handler initializeTable s, s.Stores t := by
  apply Unchanged.getPage ⟨h, rfl, .refl s⟩
  intro a t ht ha
  apply ht.writing ha
  refine Only.bind ?_ fun _ => ?_
  · exact stays_store.bind fun _ => stays_store.bind fun _ => stays_store.bind fun _ => stays_store
  · exact ⟨rfl, fun b => stays_store⟩

/-- An insertion writes to a leaf when it has got all its pages. -/
theorem moments_insertRow {op : Insertion} (h : s.Wf) (hroom : s.HasRoom fuel (.insert op)) :
    ∀ t ∈ Program.moments Pager.handler (insertRow fuel op) s, s.Stores t := by
  intro t ht
  have hfind := (latest_tableFind fuel op.key.toNat (w := none)).moments h
  rcases mem_moments_bind ht with ht | ⟨cursor, s', hrun, ht⟩
  · -- killed during the lookup
    exact (hfind t ht).stores
  · have hs' : Unchanged s s' := by
      apply hfind
      have hlast := run_mem_moments (h := Pager.handler) (tableFind fuel op.key.toNat) s
      rwa [hrun] at hlast
    have hcells : s.cellsFor fuel op.key.toNat = some (s'.page cursor.pageNum).numCells := by
      unfold Pager.cellsFor
      rw [hrun]
    rw [leafNodeInsert_eq_step] at ht
    unfold leafNodeInsertStep at ht
    refine hs'.getPage cursor.pageNum ?_ t ht
    intro a u hu ha t ht
    have hdata : (u.heap.entry a).data = s'.page cursor.pageNum := by
      rw [← Pager.page_of_lookup ha, hu.page, hs'.page]
    rcases mem_moments_bind ht with ht | ⟨numCells, u', hload, ht⟩
    · exact hu.writing ha stays_load t ht
    · have hval : (load a .numCells).run Pager.handler u =
          (.ok (s'.page cursor.pageNum).numCells, u) := by
        show Program.run Pager.handler (.step (PagerOp.load a .numCells) _) u = _
        simp only [Program.run, Pager.handler,
          if_pos (by decide : Loc.numCells.offset + Loc.numCells.width ≤ pageSize), hdata]
        rfl
      rw [hval] at hload
      obtain ⟨hnum, rfl⟩ := Prod.mk.inj hload
      obtain rfl := Except.ok.inj hnum
      rw [if_neg (not_le.2 (hroom _ hcells))] at ht
      revert ht
      -- what is left writes to the entry of the leaf alone, and nothing is evicted any more
      apply hu.writing ha
      have hrest : Only (Stays cursor.pageNum) (do
          store a .numCells (u32 ((← load a .numCells) + 1))
          store a (.leafKey cursor.cellNum) op.key.toNat
          fill a (.leafValue cursor.cellNum) op.row.serialize) :=
        stays_load.bind fun _ => stays_store.bind fun _ => stays_store.bind fun _ => stays_fill
      apply Only.ite
      · exact (stays_shiftLeafCells _ _).bind fun _ => hrest
      · exact hrest

/-- A lookup changes no page at any moment. -/
theorem moments_find (h : s.Wf) (key : ℕ) : ∀ t ∈ s.moments fuel (.find key), Unchanged s t := by
  have hreads : ReadsLast Equal none ((Work.find key).code fuel) ((Work.find key).code fuel) :=
    latest_then (latest_tableFind fuel key) fun _ _ => latest_ret _
  exact hreads.moments h

theorem moments_scan (h : s.Wf) (steps : ℕ) :
    ∀ t ∈ s.moments fuel (.scan steps), Unchanged s t := by
  have hreads : ReadsLast Equal none ((Work.scan steps).code fuel) ((Work.scan steps).code fuel) :=
    latest_then (latest_scan fuel steps) fun _ _ => latest_ret _
  exact hreads.moments h

/-- **One work**, stopped at any moment. -/
theorem Pager.Wf.moments (h : s.Wf) {w : Work} (hroom : s.FindsRoom fuel w) :
    ∀ t ∈ s.moments fuel w, s.Stores t := by
  cases w with
  | newTable => exact moments_initializeTable h
  | insert op => exact moments_insertRow h hroom
  | find key => exact fun t ht => (moments_find h key t ht).stores
  | scan steps => exact fun t ht => (moments_scan h steps t ht).stores
  | flushAll =>
    intro t ht
    obtain ⟨rounds, -, rfl⟩ := List.mem_map.1 ht
    exact Pager.stores_flushList (fun _ => List.mem_of_mem_take) h.sound

/-- The end of a request is one of its moments. -/
theorem work_mem_moments (s : Pager) (fuel : ℕ) (w : Work) : s.work fuel w ∈ s.moments fuel w := by
  cases w with
  | flushAll =>
    refine List.mem_map.2 ⟨s.cache.lruList.length, List.mem_range.2 (Nat.lt_succ_self _), ?_⟩
    rw [List.take_length]
    rfl
  | newTable | insert | find | scan => exact run_mem_moments _ s

theorem Pager.Wf.work (h : s.Wf) (fuel : ℕ) (w : Work) : (s.work fuel w).Wf := by
  cases w with
  | flushAll => exact (h.flushList fun _ => id).1
  | newTable | insert | find | scan =>
    exact run_invariant (C := Pager.Wf) (fun o s hs => (hs.operation o).1) _ s h

/-- Without a flush round every cached page stays marked. -/
theorem Pager.AllDirty.work (h : s.AllDirty) (fuel : ℕ) {w : Work} (hw : w ≠ .flushAll) :
    (s.work fuel w).AllDirty := by
  cases w with
  | flushAll => exact absurd rfl hw
  | newTable | insert | find | scan => exact run_invariant Pager.AllDirty.step _ s h

/-! ## Sessions -/

/-- A list of requests finds room if both its parts do. -/
theorem findRoom_append {ws ws' : List Work} :
    Pager.FindRoom fuel (ws ++ ws') s ↔
      Pager.FindRoom fuel ws s ∧ Pager.FindRoom fuel ws' (s.works fuel ws) := by
  induction ws generalizing s with
  | nil => exact ⟨fun h => ⟨trivial, h⟩, And.right⟩
  | cons w ws ih => exact (and_congr_right fun _ => ih).trans and_assoc.symm

theorem Pager.Wf.works (h : s.Wf) (ws : List Work) : (s.works fuel ws).Wf := by
  induction ws generalizing s with
  | nil => exact h
  | cons w ws ih => exact ih (h.work fuel w)

theorem Pager.AllDirty.works {ws : List Work} (h : s.AllDirty) (hflush : .flushAll ∉ ws) :
    (s.works fuel ws).AllDirty := by
  induction ws generalizing s with
  | nil => exact h
  | cons w ws ih =>
    apply ih
    · exact h.work fuel fun hw => hflush (hw ▸ List.mem_cons_self)
    · exact fun hmem => hflush (List.mem_cons_of_mem w hmem)

/-- Along the requests the file only takes pages as they are. -/
theorem Pager.Wf.worksBack {ws : List Work} (h : s.Wf) (hfile : ∀ p, s.file.page p = s.page p)
    (hroom : Pager.FindRoom fuel ws s) :
    WritesBack (fun i => (s.works fuel (ws.take i)).page)
      (fun i => (s.works fuel (ws.take i)).file.page) := by
  refine ⟨hfile, fun n p => ?_⟩
  by_cases hn : n < ws.length
  · have hnext : s.works fuel (ws.take (n + 1)) = (s.works fuel (ws.take n)).work fuel ws[n] :=
      foldl_take_succ _ s hn
    have hfinds : (s.works fuel (ws.take n)).FindsRoom fuel ws[n] := by
      rw [← List.take_append_drop n ws, findRoom_append, List.drop_eq_getElem_cons hn] at hroom
      exact hroom.2.1
    rw [hnext]
    exact (h.works _).moments hfinds _ (work_mem_moments _ fuel _) p
  · rw [List.take_of_length_le (not_lt.1 hn),
      List.take_of_length_le (Nat.le_succ_of_le (not_lt.1 hn))]
    exact Or.inl rfl

/-- What the file has at a moment of a work, for a table that starts with a file that has its pages.
-/
theorem Pager.AllDirty.killed {ws : List Work} {w : Work} (h : s.AllDirty)
    (hfile : ∀ p, s.file.page p = s.page p)
    (hroom : Pager.FindRoom fuel (ws ++ [w]) s) (ht : t ∈ (s.works fuel ws).moments fuel w)
    (p : ℕ) :
    ∃ i ≤ ws.length, t.file.page p = (s.works fuel (ws.take i)).page p ∧
      ∀ pre post, ws = pre ++ .flushAll :: post → .flushAll ∉ pre → pre.length < i := by
  obtain ⟨hbefore, hnow, -⟩ := findRoom_append.1 hroom
  have hback := h.toWf.worksBack hfile hbefore
  -- the file has what it had before the work, or what the page was then
  rcases (h.toWf.works ws).moments hnow t ht p with hold | hnew
  · obtain ⟨i, hi, hsame, hlatest⟩ := hback.exists_version ws.length p
    rw [List.take_length] at hsame
    refine ⟨i, hi, hold.trans hsame, ?_⟩
    rintro pre post rfl hfirst
    -- at the end of the first flush the file had all pages as they were
    have hlast : s.works fuel (pre ++ [.flushAll]) = (s.works fuel pre).flushAll :=
      List.foldl_append
    have hpre : (s.works fuel pre).AllDirty := h.works hfirst
    apply Nat.lt_of_succ_le
    apply hlatest (pre.length + 1)
    · rw [List.length_append, List.length_cons]
      omega
    · rw [take_succ_append, hlast, hpre.toWf.sound.flushAll_file hpre.dirty p,
        hpre.toWf.sound.flushAll.2]
  · refine ⟨ws.length, le_rfl, ?_, ?_⟩
    · rw [List.take_length]
      exact hnew
    · rintro pre post rfl -
      rw [List.length_append, List.length_cons]
      omega

/-- **A process that is killed** in the middle of a work leaves each page as it was between two
earlier works, and not before the first flush, as long as the insertions find room. -/
theorem killed_pages (file : File)
    (hfile : u32 file.size = 0 ∨ filePagesNum * pageSize ≤ file.size) (c : ℕ)
    (uninit : Addr → Page) (fuel : ℕ) (done : List Work) (w : Work)
    (hroom : Pager.FindRoom fuel (done ++ [w]) (Pager.init file c uninit)) :
    ∀ t ∈ ((Pager.init file c uninit).works fuel done).moments fuel w, ∀ p, ∃ i ≤ done.length,
      t.file.page p = ((Pager.init file c uninit).works fuel (done.take i)).page p ∧
        ∀ pre post, done = pre ++ .flushAll :: post → .flushAll ∉ pre → pre.length < i :=
  fun _ ht p => (allDirty_init hfile c uninit).killed Pager.init_file_page hroom ht p

/-- Three rows, the last one not all in the file. -/
def threeWorks : List Work := [.newTable, .insert (plain 1), .flushAll, .insert (plain 2)]

theorem killed_pages_three :
    Pager.FindRoom 1 (threeWorks ++ [.insert (plain 3)])
      (Pager.init File.empty 1 fun _ => Bytes.zero pageSize) ∧
      ∀ t ∈ ((Pager.init File.empty 1 fun _ => Bytes.zero pageSize).works 1 threeWorks).moments 1
        (.insert (plain 3)), ∀ p,
        ∃ i ≤ threeWorks.length,
          t.file.page p = ((Pager.init File.empty 1 fun _ => Bytes.zero pageSize).works 1
            (threeWorks.take i)).page p ∧
            ∀ pre post, threeWorks = pre ++ .flushAll :: post → .flushAll ∉ pre →
              pre.length < i := by
  have hroom : Pager.FindRoom 1 (threeWorks ++ [.insert (plain 3)])
      (Pager.init File.empty 1 fun _ => Bytes.zero pageSize) := by
    rw [Pager.init_eq_new]
    decide +kernel
  exact ⟨hroom, killed_pages File.empty (Or.inl rfl) 1 (fun _ => Bytes.zero pageSize) 1 threeWorks
    (.insert (plain 3)) hroom⟩

end ToySQL
