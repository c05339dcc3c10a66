import ToySQL.Proof.Files

/-!
# The page cache

`Pager.Cached` is the invariant of the cache: the page map and the LRU list name the same
entries. `Pager.Sound` adds that the stream works, and `Pager.Wf` that the file holds all
pages. `Pager.page` is the contents of a page wherever it is.

* `Cached.gets`: what getting a page does, over any stream. `Room` is how the cache makes
  room for a new entry.
* `Wf.getPage_spec`: getting a page changes the contents of no page. The entry moves to
  the front of the list, and one entry at most leaves the cache, the last one.
* `Cached.setData_page`: writing through the current entry of a page changes that page.
-/

namespace ToySQL

namespace Heap

variable (heap : Heap) {a b : Addr} {e : CacheEntry}

/-- The entries after one has been replaced. -/
theorem entry_set (ha : a < heap.length) :
    Heap.entry (heap.set a e) b = if b = a then e else heap.entry b := by
  unfold entry
  by_cases h : b = a
  · rw [if_pos h, h, List.getD_eq_getElem?_getD, List.getElem?_set_self ha]; rfl
  · rw [if_neg h, List.getD_eq_getElem?_getD, List.getD_eq_getElem?_getD,
      List.getElem?_set_ne (Ne.symm h)]

/-- A new entry leaves the old ones where they are. -/
theorem entry_append (ha : a < heap.length) : Heap.entry (heap ++ [e]) a = heap.entry a := by
  unfold entry
  rw [List.getD_eq_getElem?_getD, List.getD_eq_getElem?_getD, List.getElem?_append_left ha]

theorem entry_new : Heap.entry (heap ++ [e]) heap.length = e := by
  unfold entry
  rw [List.getD_eq_getElem?_getD, List.getElem?_append_right le_rfl, Nat.sub_self]; rfl

end Heap

namespace Pager

/-- The page map and the LRU list name the same entries. -/
structure Cached (s : Pager) : Prop where
  nodup : s.cache.lruList.Nodup
  lt : ∀ a ∈ s.cache.lruList, a < s.heap.length ∧ (s.heap.entry a).pageNum < filePagesNum
  lookup : ∀ p a, s.cache.pageMap.lookup p = some a ↔
    a ∈ s.cache.lruList ∧ (s.heap.entry a).pageNum = p

/-- The cache is in order, and the stream works. -/
structure Sound (s : Pager) : Prop extends Cached s where
  works : s.file.Works

/-- The invariant of the pager. -/
structure Wf (s : Pager) : Prop extends Cached s where
  file : s.file.Open

theorem Wf.sound {s : Pager} (h : s.Wf) : s.Sound := ⟨h.toCached, h.file.toWorks⟩

variable {s s' : Pager} {p q : ℕ} {a b : Addr}

/-- A page in the cache is what its entry holds. -/
theorem page_of_lookup (h : s.cache.pageMap.lookup p = some a) :
    s.page p = (s.heap.entry a).data := by
  unfold page; rw [h]

/-- A page that is not cached is what the file holds. -/
theorem page_of_none (h : s.cache.pageMap.lookup p = none) : s.page p = s.file.page p := by
  unfold page; rw [h]; rfl

theorem setData_pageNum (a b : Addr) (data : Page) :
    ((s.setData a data).heap.entry b).pageNum = (s.heap.entry b).pageNum := by
  show (Heap.entry (s.heap.set a _) b).pageNum = _
  rcases lt_or_ge a s.heap.length with ha | ha
  · rw [Heap.entry_set _ ha]
    split
    · rename_i hb
      rw [hb]
    · rfl
  · rw [List.set_eq_of_length_le ha]

theorem setData_dirty (a b : Addr) (data : Page) :
    ((s.setData a data).heap.entry b).dirty = (s.heap.entry b).dirty := by
  show (Heap.entry (s.heap.set a _) b).dirty = _
  rcases lt_or_ge a s.heap.length with ha | ha
  · rw [Heap.entry_set _ ha]
    split
    · rename_i hb
      rw [hb]
    · rfl
  · rw [List.set_eq_of_length_le ha]

/-! ## The cache -/

namespace Cached

/-- A page has one entry in the cache. -/
theorem injective (h : s.Cached) (ha : a ∈ s.cache.lruList) (hb : b ∈ s.cache.lruList)
    (he : (s.heap.entry a).pageNum = (s.heap.entry b).pageNum) : a = b := by
  have h1 := (h.lookup _ a).2 ⟨ha, he⟩
  rw [(h.lookup _ b).2 ⟨hb, rfl⟩] at h1
  exact (Option.some.inj h1).symm

/-- The pages of the cached entries, in the order of the list. -/
theorem nodup_pages (h : s.Cached) :
    (s.cache.lruList.map fun a => (s.heap.entry a).pageNum).Nodup :=
  List.Nodup.map_on (fun _ ha _ hb he => h.injective ha hb he) h.nodup

/-- The keys of the map are the pages of the entries of the list. -/
theorem keys_perm (h : s.Cached) :
    s.cache.pageMap.keys.Perm (s.cache.lruList.map fun a => (s.heap.entry a).pageNum) := by
  refine (List.perm_ext_iff_of_nodup s.cache.pageMap.keys_nodup h.nodup_pages).2 fun p => ?_
  rw [← AList.mem_keys, ← AList.lookup_isSome, Option.isSome_iff_exists, List.mem_map]
  exact exists_congr fun a => h.lookup p a

/-- The map and the list are of one length. -/
theorem length_keys (h : s.Cached) : s.cache.pageMap.keys.length = s.cache.lruList.length := by
  rw [h.keys_perm.length_eq, List.length_map]

/-- Only the cache and the page numbers of the entries matter. -/
theorem congr (h : s.Cached) (hcache : s'.cache = s.cache) (hlen : s'.heap.length = s.heap.length)
    (hnum : ∀ b, (s'.heap.entry b).pageNum = (s.heap.entry b).pageNum) : s'.Cached := by
  refine ⟨?_, fun b hb => ?_, fun q b => ?_⟩
  · rw [hcache]
    exact h.nodup
  · rw [hcache] at hb
    rw [hlen, hnum]
    exact h.lt b hb
  · rw [hcache, hnum]
    exact h.lookup q b

/-- An empty cache. -/
theorem init {c : ℕ} (hcache : s.cache = .init c) : s.Cached := by
  refine ⟨?_, fun a ha => ?_, fun p a => ?_⟩
  · rw [hcache]
    exact List.nodup_nil
  · rw [hcache] at ha
    exact absurd ha List.not_mem_nil
  · have hnone : (PageCache.init c).pageMap.lookup p = none := AList.lookup_empty p
    rw [hcache, hnone]
    exact ⟨fun h => (Option.some_ne_none _ h.symm).elim, fun h => absurd h.1 List.not_mem_nil⟩

/-- A write through a pointer changes no page number and no list. -/
theorem setData (h : s.Cached) (a : Addr) (data : Page) : (s.setData a data).Cached :=
  h.congr rfl List.length_set fun b => setData_pageNum a b data

/-- The entry of a cached page moves to the front. -/
theorem front (h : s.Cached) (ha : a ∈ s.cache.lruList) :
    ({ s with cache := { s.cache with lruList := a :: s.cache.lruList.filter (· ≠ a) } } :
      Pager).Cached := by
  have hlist : ∀ b, b ∈ a :: s.cache.lruList.filter (· ≠ a) ↔ b ∈ s.cache.lruList := fun b => by
    rw [List.mem_cons, List.mem_filter, decide_eq_true_iff]
    constructor
    · rintro (rfl | ⟨hb, -⟩)
      · exact ha
      · exact hb
    · intro hb
      by_cases hba : b = a
      · exact Or.inl hba
      · exact Or.inr ⟨hb, hba⟩
  refine ⟨?_, fun b hb => h.lt b ((hlist b).1 hb), fun q b => ?_⟩
  · refine List.nodup_cons.2 ⟨fun hb => ?_, h.nodup.filter _⟩
    simp at hb
  · exact (h.lookup q b).trans (and_congr_left fun _ => (hlist b).symm)

end Cached

/-! ### Getting a page -/

/-- How `add_page` makes room for one more entry: the entries `kept` stay, with the map
that names them, and the stream `f` becomes the last one. -/
inductive Room (s : Pager) (f : FStream) :
    List Addr → (AList fun _ : ℕ => Addr) → FStream → Prop where
  | keep : s.cache.lruList = [] ∨ s.cache.lruList.length < s.cache.maxPages →
      Room s f s.cache.lruList s.cache.pageMap f
  | evict {kept lru} : s.cache.lruList = kept ++ [lru] → s.cache.maxPages ≤ s.cache.lruList.length →
      Room s f kept (s.cache.pageMap.erase (s.heap.entry lru).pageNum)
        ((f.seekp (u32 ((s.heap.entry lru).pageNum * pageSize))).write (s.heap.entry lru).data)

/-- What `get_page` does, for a page of the file: the page is cached, or the stream is
broken, or there is a new entry. -/
inductive Gets (s : Pager) (p : ℕ) : Except Fault Addr → Pager → Prop where
  | hit {entry} : s.cache.pageMap.lookup p = some entry →
      Gets s p (.ok entry)
        { s with cache := { s.cache with lruList := entry :: s.cache.lruList.filter (· ≠ entry) } }
  | failed {e} : s.cache.pageMap.lookup p = none → s.file.fail = true →
      Gets s p (.error e) { s with file := s.file.seekg (u32 (p * pageSize)) }
  | added {kept map data f f'} : s.cache.pageMap.lookup p = none → s.file.fail = false →
      (s.file.seekg (u32 (p * pageSize))).read (s.uninit s.heap.length) = (data, f) →
        Room s f kept map f' →
      Gets s p (.ok s.heap.length)
        ⟨f', ⟨s.cache.maxPages, map.insert p s.heap.length, s.heap.length :: kept⟩,
          if p = s.numPages then s.numPages + 1 else s.numPages, s.heap ++ [⟨p, data, true⟩],
          s.uninit⟩

namespace Room

variable {f f' : FStream} {kept : List Addr} {map : AList fun _ : ℕ => Addr}

/-- What eviction keeps is in the order of the list. -/
theorem sublist (h : Room s f kept map f') : kept.Sublist s.cache.lruList := by
  cases h with
  | keep _ => exact List.Sublist.refl _
  | evict hlist _ => rw [hlist]; exact List.sublist_append_left _ _

/-- Eviction makes room for one page. -/
theorem length_lt (h : Room s f kept map f')
    (hle : s.cache.lruList.length ≤ max 1 s.cache.maxPages) :
    kept.length < max 1 s.cache.maxPages := by
  cases h with
  | keep hroom =>
    rcases hroom with hnil | hlt
    · rw [hnil]
      exact lt_max_of_lt_left Nat.zero_lt_one
    · exact lt_max_of_lt_right hlt
  | evict hlist _ =>
    rw [hlist, List.length_append, List.length_singleton] at hle
    omega

/-- What leaves the list is its last entry, and the list was full. -/
theorem evicted (h : Room s f kept map f') (hle : s.cache.lruList.length ≤ max 1 s.cache.maxPages)
    (hb : b ∈ s.cache.lruList) (hout : b ∉ kept) :
    s.cache.lruList = kept ++ [b] ∧ s.cache.lruList.length = max 1 s.cache.maxPages := by
  cases h with
  | keep _ => exact absurd hb hout
  | evict hlist hfull =>
    have hb' := hb
    rw [hlist, List.mem_append, List.mem_singleton] at hb'
    rcases hb' with hin | rfl
    · exact absurd hin hout
    · refine ⟨hlist, le_antisymm hle (max_le ?_ hfull)⟩
      exact List.length_pos_of_mem hb

/-- The map names the entries that stay. -/
theorem lookup (h : Room s f kept map f') (hs : s.Cached) (q : ℕ) (b : Addr) :
    map.lookup q = some b ↔ b ∈ kept ∧ (s.heap.entry b).pageNum = q := by
  cases h with
  | keep _ => exact hs.lookup q b
  | @evict _ lru hlist _ =>
    have hlru : lru ∈ s.cache.lruList := by rw [hlist]; simp
    have hnd := hs.nodup
    rw [hlist, List.nodup_append] at hnd
    -- the entries kept are all but the one evicted
    have hkept : b ∈ kept ↔ b ∈ s.cache.lruList ∧ b ≠ lru := by
      rw [hlist, List.mem_append, List.mem_singleton]
      constructor
      · intro hb; exact ⟨Or.inl hb, hnd.2.2 b hb lru (List.mem_singleton_self lru)⟩
      · rintro ⟨hb | hb, hbl⟩
        · exact hb
        · exact absurd hb hbl
    -- the map has lost the evicted page and nothing else
    by_cases hq : q = (s.heap.entry lru).pageNum
    · rw [hq, AList.lookup_erase]
      constructor
      · intro he; cases he
      · rintro ⟨hb, he⟩
        have := hkept.1 hb
        exact absurd (hs.injective this.1 hlru he) this.2
    · rw [AList.lookup_erase_ne hq, hs.lookup, hkept]
      constructor
      · rintro ⟨hb, he⟩
        exact ⟨⟨hb, fun hbl => hq (by rw [← he, hbl])⟩, he⟩
      · rintro ⟨⟨hb, -⟩, he⟩; exact ⟨hb, he⟩

end Room

/-- A new entry next to the entries that stay. -/
theorem Cached.add (h : s.Cached) (hp : p < filePagesNum) (hnone : s.cache.pageMap.lookup p = none)
    {map : AList fun _ : ℕ => Addr} {kept : List Addr} {f f' : FStream} {data : Page} {n : ℕ}
    (hroom : Room s f kept map f') :
    (⟨f', ⟨s.cache.maxPages, map.insert p s.heap.length, s.heap.length :: kept⟩, n,
      s.heap ++ [⟨p, data, true⟩], s.uninit⟩ : Pager).Cached := by
  have hsub := hroom.sublist
  have hold : ∀ b ∈ kept, b < s.heap.length := fun b hb => (h.lt b (hsub.subset hb)).1
  have hentry : ∀ b ∈ kept, Heap.entry (s.heap ++ [⟨p, data, true⟩]) b = s.heap.entry b :=
    fun b hb => Heap.entry_append _ (hold b hb)
  -- no entry kept is one of page `p`, which was not cached
  have hpkept : ∀ b ∈ kept, (s.heap.entry b).pageNum ≠ p := fun b hb he => by
    have := (h.lookup p b).2 ⟨hsub.subset hb, he⟩
    rw [hnone] at this
    cases this
  refine ⟨List.nodup_cons.2 ⟨fun hb => lt_irrefl _ (hold _ hb), hsub.nodup h.nodup⟩, fun b hb => ?_,
    fun q b => ?_⟩
  · show b < (s.heap ++ _).length ∧ (Heap.entry (s.heap ++ _) b).pageNum < filePagesNum
    rw [List.length_append, List.length_singleton]
    rcases List.mem_cons.1 hb with rfl | hb
    · rw [Heap.entry_new]; exact ⟨Nat.lt_succ_self _, hp⟩
    · rw [hentry b hb]
      exact ⟨Nat.lt_succ_of_lt (hold b hb), (h.lt b (hsub.subset hb)).2⟩
  · show (map.insert p s.heap.length).lookup q = some b ↔
      b ∈ s.heap.length :: kept ∧ (Heap.entry (s.heap ++ [⟨p, data, true⟩]) b).pageNum = q
    -- the new entry is the only one of page `p`
    by_cases hq : q = p
    · rw [hq, AList.lookup_insert, Option.some_inj, List.mem_cons]
      constructor
      · rintro rfl
        exact ⟨Or.inl rfl, by rw [Heap.entry_new]⟩
      · rintro ⟨rfl | hb, he⟩
        · rfl
        · rw [hentry b hb] at he
          exact absurd he (hpkept b hb)
    · rw [AList.lookup_insert_ne hq, hroom.lookup h, List.mem_cons]
      constructor
      · rintro ⟨hb, he⟩
        exact ⟨Or.inr hb, by rw [hentry b hb]; exact he⟩
      · rintro ⟨rfl | hb, he⟩
        · rw [Heap.entry_new] at he
          exact absurd he.symm hq
        · rw [hentry b hb] at he
          exact ⟨hb, he⟩

/-- **Getting a page, over any stream.** -/
theorem Cached.gets (h : s.Cached) (hp : p < filePagesNum) :
    Gets s p (s.getPage p).1 (s.getPage p).2 := by
  unfold getPage PageCache.getPage
  rw [if_neg (not_le.2 hp)]
  cases hl : s.cache.pageMap.lookup p with
  | some a => exact Gets.hit hl
  | none =>
    -- seeking leaves the fail bit as it is
    have hseek : (s.file.seekg (u32 (p * pageSize))).fail = s.file.fail := by
      unfold FStream.seekg
      split <;> rfl
    cases hfail : s.file.fail with
    | true =>
      simp only [hseek, hfail, if_true]
      exact Gets.failed hl hfail
    | false =>
      have hnew : ∀ data, Heap.entry (s.heap ++ [⟨p, data, true⟩]) s.heap.length =
          ⟨p, data, true⟩ :=
        fun data => Heap.entry_new _
      have hnum :
          ∀ f cache heap, (if p = (Pager.mk f cache s.numPages heap s.uninit).getUnusedPage then
            Pager.mk f cache (s.numPages + 1) heap s.uninit
          else Pager.mk f cache s.numPages heap s.uninit) =
          Pager.mk f cache (if p = s.numPages then s.numPages + 1 else s.numPages)
            heap s.uninit := by
        intro f cache heap
        unfold getUnusedPage
        split <;> rfl
      simp only [hseek, hfail, Bool.false_eq_true, if_false]
      rcases hread : (s.file.seekg (u32 (p * pageSize))).read (s.uninit s.heap.length)
        with ⟨data, f⟩
      unfold PageCache.addPage
      -- a full cache evicts before it takes the page
      by_cases hfull : s.cache.pageMap.keys.length ≥ s.cache.maxPages
      · simp only [if_pos hfull]
        unfold PageCache.evict
        cases hlast : s.cache.lruList.getLast? with
        | none =>
          simp only [hnew]
          rw [hnum]
          exact Gets.added hl hfail hread (Room.keep (Or.inl (List.getLast?_eq_none_iff.1 hlast)))
        | some lru =>
          have hdrop : s.cache.lruList.dropLast ++ [lru] = s.cache.lruList :=
            List.dropLast_append_getLast? _ hlast
          have hlt := h.lt lru (List.mem_of_getLast? hlast)
          have hentry : Heap.entry (s.heap ++ [⟨p, data, true⟩]) lru = s.heap.entry lru :=
            Heap.entry_append _ hlt.1
          rw [h.length_keys] at hfull
          simp only [hnew]
          unfold writeBack
          -- the evicted page is written from the entry it had before
          rw [hnum, hentry]
          exact Gets.added hl hfail hread (Room.evict hdrop.symm hfull)
      · rw [h.length_keys] at hfull
        simp only [h.length_keys, if_neg hfull, hnew]
        rw [hnum]
        exact Gets.added hl hfail hread (Room.keep (Or.inr (not_le.1 hfull)))

/-- The cache is in order after a request. -/
theorem Gets.cached {r : Except Fault Addr} (h : Gets s p r s') (hs : s.Cached)
    (hp : p < filePagesNum) :
    s'.Cached := by
  cases h with
  | hit hl => exact hs.front ((hs.lookup p _).1 hl).1
  | failed hl _ => exact hs.congr rfl rfl fun _ => rfl
  | added hl _ _ hroom => exact hs.add hp hl hroom

/-- A new entry is dirty. -/
theorem Gets.dirty {r : Except Fault Addr} (h : Gets s p r s') (hs : s.Cached)
    (hd : ∀ b ∈ s.cache.lruList, (s.heap.entry b).dirty = true) :
    ∀ b ∈ s'.cache.lruList, (s'.heap.entry b).dirty = true := by
  cases h with
  | hit hl =>
    intro b hb
    rcases List.mem_cons.1 hb with rfl | hb
    · exact hd b ((hs.lookup p b).1 hl).1
    · exact hd b (List.mem_of_mem_filter hb)
  | failed _ _ => exact hd
  | @added kept map data f f' _ _ _ hroom =>
    intro b hb
    show (Heap.entry (s.heap ++ [⟨p, data, true⟩]) b).dirty = true
    rcases List.mem_cons.1 hb with rfl | hb
    · rw [Heap.entry_new]
    · have hmem := hroom.sublist.subset hb
      rw [Heap.entry_append _ (hs.lt b hmem).1]
      exact hd b hmem

/-! ## The contents of the pages -/

/-- **Writing through the current entry of a page.** -/
theorem Cached.setData_page (h : s.Cached) (ha : s.cache.pageMap.lookup p = some a) (data : Page) :
    (s.setData a data).page = Function.update s.page p data := by
  obtain ⟨hmem, hp⟩ := (h.lookup p a).1 ha
  have hlt := (h.lt a hmem).1
  funext q
  by_cases hq : q = p
  · rw [hq, Function.update_self]
    have hset : (s.setData a data).cache.pageMap.lookup p = some a := ha
    rw [page_of_lookup hset]
    show (Heap.entry (s.heap.set a _) a).data = data
    rw [Heap.entry_set _ hlt, if_pos rfl]
  · rw [Function.update_of_ne hq]
    cases hb : s.cache.pageMap.lookup q with
    | none =>
      have hset : (s.setData a data).cache.pageMap.lookup q = none := hb
      rw [page_of_none hset, page_of_none hb]
      rfl
    | some b =>
      have hset : (s.setData a data).cache.pageMap.lookup q = some b := hb
      have hba : b ≠ a := fun he => by
        have := ((h.lookup q b).1 hb).2
        rw [he, hp] at this
        exact hq this.symm
      rw [page_of_lookup hset, page_of_lookup hb]
      show (Heap.entry (s.heap.set a _) b).data = _
      rw [Heap.entry_set _ hlt, if_neg hba]

/-- What `get_page` does, for a page the file holds: `a` is the entry it returns. -/
structure Fetched (s : Pager) (p : ℕ) (a : Addr) (s' : Pager) : Prop where
  sound : s'.Sound
  size : s.file.file.size ≤ s'.file.file.size
  page : s'.page = s.page
  found : s'.cache.pageMap.lookup p = some a
  maxPages : s'.cache.maxPages = s.cache.maxPages
  numPages : s'.numPages =
    if (s.cache.pageMap.lookup p).isNone ∧ p = s.numPages then s.numPages + 1 else s.numPages
  heap : s'.heap = s.heap ∨ s'.heap = s.heap ++ [⟨p, s.page p, true⟩]
  list : ∃ kept, s'.cache.lruList = a :: kept ∧
    (kept = s.cache.lruList.filter (· ≠ a) ∨
      s.cache.pageMap.lookup p = none ∧ s.cache.lruList ≠ [] ∧
        s.cache.maxPages ≤ s.cache.lruList.length ∧ kept = s.cache.lruList.dropLast)

namespace Fetched

/-- The entries that were there stay as they are. -/
theorem entry (h : Fetched s p a s') (hs : s.Cached) (hb : b ∈ s.cache.lruList) :
    s'.heap.entry b = s.heap.entry b := by
  rcases h.heap with hh | hh
  · rw [hh]
  · rw [hh, Heap.entry_append _ (hs.lt b hb).1]

/-- What is in the list afterwards is the new entry or was there. -/
theorem mem_list (h : Fetched s p a s') (hb : b ∈ s'.cache.lruList) :
    b = a ∨ b ∈ s.cache.lruList := by
  obtain ⟨kept, hlist, hkept⟩ := h.list
  rw [hlist] at hb
  rcases List.mem_cons.1 hb with hb | hb
  · exact Or.inl hb
  · rcases hkept with rfl | ⟨-, -, -, rfl⟩
    · exact Or.inr (List.mem_of_mem_filter hb)
    · exact Or.inr (List.mem_of_mem_dropLast hb)

end Fetched

namespace Sound

/-- Making room loses no contents. -/
theorem room_page (h : s.Sound) {f f' : FStream} {kept : List Addr} {map : AList fun _ : ℕ => Addr}
    (hroom : Room s f kept map f') (hf : f.Works) (hfile : f.file = s.file.file) :
    f'.Works ∧ s.file.file.size ≤ f'.file.size ∧ ∀ q, map.lookup q = none →
      f'.page q = s.page q := by
  have hfpage : ∀ q, f.page q = s.file.page q := fun q => by unfold FStream.page; rw [hfile]
  cases hroom with
  | keep _ => exact ⟨hf, by rw [hfile], fun q hq => by rw [hfpage, page_of_none hq]⟩
  | @evict _ lru hlist _ =>
    have hlru : lru ∈ s.cache.lruList := by rw [hlist]; simp
    obtain ⟨hworks, hsize, hpage⟩ := hf.write_page (h.lt lru hlru).2 (s.heap.entry lru).data
    refine ⟨hworks, by rw [← hfile]; exact hsize, fun q hq => ?_⟩
    rw [hpage, hfpage]
    by_cases hql : q = (s.heap.entry lru).pageNum
    · rw [if_pos hql, page_of_lookup ((h.lookup q lru).2 ⟨hlru, hql.symm⟩)]
    · rw [if_neg hql, page_of_none]
      rwa [AList.lookup_erase_ne hql] at hq

/-- **Getting a page that the file holds.** -/
theorem getPage_spec (h : s.Sound) (hp : p < filePagesNum)
    (hle : p * pageSize + pageSize ≤ s.file.file.size) :
    ∃ a s', s.getPage p = (.ok a, s') ∧ Fetched s p a s' := by
  have hg := h.toCached.gets hp
  have hcached := hg.cached h.toCached hp
  generalize s.getPage p = o at hg hcached ⊢
  obtain ⟨r, s'⟩ := o
  cases hg with
  | hit hl =>
    refine ⟨_, _, rfl, ⟨hcached, h.works⟩, le_rfl, rfl, hl, rfl, ?_, Or.inl rfl,
      ⟨_, rfl, Or.inl rfl⟩⟩
    rw [hl]; rfl
  -- the stream works, so it has not failed
  | failed _ hfail =>
    rw [h.works.fail] at hfail
    cases hfail
  | @added kept map data f f' hl _ hread hroom =>
    obtain ⟨_, hread', hf, hfile⟩ := h.works.read_page hp hle (s.uninit s.heap.length)
    rw [hread] at hread'
    obtain ⟨rfl, rfl⟩ := Prod.mk.inj hread'
    obtain ⟨hworks, hsize, hpage⟩ := h.room_page hroom hf hfile
    refine ⟨_, _, rfl, ⟨hcached, hworks⟩, hsize, funext fun q => ?_, AList.lookup_insert _, rfl, ?_,
      Or.inr ?_,
      ⟨_, rfl, ?_⟩⟩
    -- an evicted page is read from the file from now on, and is the same there
    · by_cases hq : q = p
      · rw [hq, page_of_lookup (AList.lookup_insert _), page_of_none hl]
        exact congrArg CacheEntry.data (Heap.entry_new _)
      · cases hb : map.lookup q with
        | none =>
          rw [page_of_none ((AList.lookup_insert_ne hq).trans hb)]
          exact hpage q hb
        | some b =>
          obtain ⟨hbk, hbq⟩ := (hroom.lookup h.toCached q b).1 hb
          have hmem := hroom.sublist.subset hbk
          rw [page_of_lookup ((AList.lookup_insert_ne hq).trans hb),
            page_of_lookup ((h.lookup q b).2 ⟨hmem, hbq⟩)]
          exact congrArg CacheEntry.data (Heap.entry_append _ (h.lt b hmem).1)
    · rw [hl]; simp
    · rw [page_of_none hl]
    · cases hroom with
      | keep _ =>
        exact Or.inl (List.filter_eq_self.2 fun b hb => decide_eq_true (h.lt b hb).1.ne).symm
      | evict hlist hfull =>
        refine Or.inr ⟨hl, ?_, hfull, ?_⟩
        · rw [hlist]; simp
        · rw [hlist, List.dropLast_concat]

end Sound

namespace Wf

/-- A write through a pointer keeps the pager in order. -/
theorem setData (h : s.Wf) (a : Addr) (data : Page) : (s.setData a data).Wf :=
  ⟨h.toCached.setData a data, h.file⟩

/-- What `get_page` does, for a page of the file: `a` is the entry it returns. -/
structure Got (s : Pager) (p : ℕ) (a : Addr) (s' : Pager) : Prop extends Fetched s p a s' where
  wf : s'.Wf

/-- **Getting a page of the file.** -/
theorem getPage_spec (h : s.Wf) (hp : p < filePagesNum) :
    ∃ a s', s.getPage p = (.ok a, s') ∧ Got s p a s' := by
  obtain ⟨a, s', hget, hf⟩ := h.sound.getPage_spec hp (h.file.holds hp)
  exact ⟨a, s', hget, hf, hf.sound.toCached, hf.sound.works, h.file.size.trans hf.size⟩

end Wf

end Pager

end ToySQL
