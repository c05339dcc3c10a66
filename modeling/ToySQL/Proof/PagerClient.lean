import ToySQL.Lib.Recency
import ToySQL.Spec.PagerClient
import ToySQL.Proof.Flush

/-!
# What a client sees

* `Lru.gets`: the cache stays a bounded list in the order of the requests, over any file.
* `Gets.front`: the page returned is at the front of the list.
* `PagerClient.Sees.getPage`, `PagerClient.Sees.change`, `PagerClient.Sees.flushAll`: the client
  sees the pages as they were left, as far as the file holds them.
-/

namespace ToySQL

namespace Pager

variable {s s' : Pager} {p q : ℕ} {a b : Addr} {requests : List ℕ}

/-! ## The list of the cache -/

/-- The cached pages, in the order of the list. -/
def cachedPages (s : Pager) : List ℕ := s.cache.lruList.map fun a => (s.heap.entry a).pageNum

/-- The cache is bounded, and its list is in the order of the requests. -/
structure Lru (requests : List ℕ) (s : Pager) : Prop extends Cached s where
  size : s.cache.lruList.length ≤ max 1 s.cache.maxPages
  recency : Recency requests s.cachedPages

theorem Cached.mem_pages (h : s.Cached) :
    p ∈ s.cachedPages ↔ ∃ a, s.cache.pageMap.lookup p = some a := by
  unfold cachedPages
  rw [List.mem_map]
  exact exists_congr fun a => (h.lookup p a).symm

namespace Lru

/-- Only the cache and the page numbers of the entries matter. -/
theorem congr (h : Lru requests s) (hcached : s'.Cached) (hcache : s'.cache = s.cache)
    (hnum : ∀ b, (s'.heap.entry b).pageNum = (s.heap.entry b).pageNum) : Lru requests s' := by
  have hpages : s'.cachedPages = s.cachedPages := by
    unfold cachedPages
    rw [hcache]
    exact List.map_congr_left fun b _ => hnum b
  refine ⟨hcached, ?_, ?_⟩
  · rw [hcache]
    exact h.size
  · rw [hpages]
    exact h.recency

/-- **A request.** -/
theorem gets (h : Lru requests s) (hp : p < filePagesNum) {r : Except Fault Addr}
    (hg : Gets s p r s') :
    Lru (p :: requests) s' ∧ s'.cache.maxPages = s.cache.maxPages := by
  have hcached := hg.cached h.toCached hp
  cases hg with
  -- a hit moves the entry to the front
  | @hit a hl =>
    obtain ⟨ha, hpa⟩ := (h.lookup p a).1 hl
    have hperm : (a :: s.cache.lruList.filter (· ≠ a)).length = s.cache.lruList.length := by
      have hfilter : s.cache.lruList.filter (· ≠ a) = s.cache.lruList.erase a := by
        rw [h.nodup.erase_eq_filter]
        refine List.filter_congr fun b _ => ?_
        by_cases hba : b = a <;> simp [hba]
      rw [hfilter, List.length_cons, List.length_erase_of_mem ha]
      exact Nat.succ_pred_eq_of_pos (List.length_pos_of_mem ha)
    refine ⟨⟨hcached, ?_, ?_⟩, rfl⟩
    · show (a :: s.cache.lruList.filter (· ≠ a)).length ≤ _
      rw [hperm]
      exact h.size
    · show Recency (p :: requests) ((s.heap.entry a).pageNum ::
          (s.cache.lruList.filter (· ≠ a)).map _)
      rw [hpa]
      apply h.recency.front ((List.filter_sublist).map _)
      rintro hmem
      obtain ⟨b, hb, hbp⟩ := List.mem_map.1 hmem
      rw [List.mem_filter, decide_eq_true_iff] at hb
      exact hb.2 (h.injective hb.1 ha (hbp.trans hpa.symm))
  -- a failed read caches nothing
  | failed hl _ =>
    refine ⟨⟨hcached, h.size, h.recency.other ?_⟩, rfl⟩
    rw [h.mem_pages, hl]
    rintro ⟨a, ha⟩
    cases ha
  -- a miss puts a new entry in front of those kept
  | @added kept map data f f' hl _ _ hroom =>
    have hsub := hroom.sublist
    have hentry : ∀ b ∈ kept, (Heap.entry (s.heap ++ [⟨p, data, true⟩]) b).pageNum =
        (s.heap.entry b).pageNum :=
      fun b hb => by rw [Heap.entry_append _ (h.lt b (hsub.subset hb)).1]
    refine ⟨⟨hcached, ?_, ?_⟩, rfl⟩
    · exact hroom.length_lt h.size
    · show Recency (p :: requests)
          ((Heap.entry (s.heap ++ [⟨p, data, true⟩]) s.heap.length).pageNum ::
        kept.map fun b => (Heap.entry (s.heap ++ [⟨p, data, true⟩]) b).pageNum)
      rw [Heap.entry_new, List.map_congr_left hentry]
      apply h.recency.front (hsub.map _)
      intro hmem
      have hpages : p ∈ s.cachedPages := (hsub.map _).subset hmem
      rw [h.mem_pages, hl] at hpages
      obtain ⟨a, ha⟩ := hpages
      cases ha

/-- **What leaves the cache** on a request is the entry whose last request is the oldest;
the page asked for is not cached, and the cache is full. -/
theorem evicted (h : Lru requests s) {r : Except Fault Addr} (hg : Gets s p r s')
    (hb : b ∈ s.cache.lruList) (hout : b ∉ s'.cache.lruList) :
    s.cache.pageMap.lookup p = none ∧ s.cache.lruList.length = max 1 s.cache.maxPages ∧
      (∀ a ∈ s.cache.lruList, a ≠ b →
        requests.idxOf (s.heap.entry a).pageNum < requests.idxOf (s.heap.entry b).pageNum) ∧
      (s.heap.entry b).pageNum ≠ p ∧ r ≠ .ok b := by
  cases hg with
  -- only a miss evicts
  | @hit a hl =>
    refine absurd ?_ hout
    by_cases hba : b = a
    · exact List.mem_cons.2 (Or.inl hba)
    · exact List.mem_cons_of_mem a (List.mem_filter.2 ⟨hb, decide_eq_true hba⟩)
  | failed _ _ => exact absurd hb hout
  | added hl _ _ hroom =>
    obtain ⟨hlist, hfull⟩ := hroom.evicted h.size hb fun hin => hout (List.mem_cons_of_mem _ hin)
    have horder := h.recency
    unfold cachedPages at horder
    rw [hlist, List.map_append] at horder
    refine ⟨hl, hfull, fun a ha hab => ?_, ?_, ?_⟩
    · rw [hlist, List.mem_append, List.mem_singleton] at ha
      exact horder.oldest (List.mem_map_of_mem (ha.resolve_right hab))
    · intro hpb
      rw [(h.lookup p b).2 ⟨hb, hpb⟩] at hl
      cases hl
    · intro hr
      have hlt := (h.lt b hb).1
      rw [← Except.ok.inj hr] at hlt
      exact lt_irrefl _ hlt

end Lru

/-! ## What is behind the page returned -/

theorem behind_hit (hl : s.cache.pageMap.lookup p = some a) :
    s.behind p = s.cache.lruList.filter (· ≠ a) := by
  unfold behind
  rw [hl]

/-- The entries that stay when one more is added. -/
theorem Room.behind {f f' : FStream} {kept : List Addr} {map : AList fun _ : ℕ => Addr}
    (h : Room s f kept map f')
    (hl : s.cache.pageMap.lookup p = none) : s.behind p = kept := by
  unfold Pager.behind
  rw [hl]
  cases h with
  | keep hroom =>
    have hlt : s.cache.lruList.length < max 1 s.cache.maxPages := by
      rcases hroom with hnil | hlt
      · rw [hnil]
        exact lt_max_of_lt_left Nat.zero_lt_one
      · exact lt_max_of_lt_right hlt
    exact if_pos hlt
  | evict hlist hfull =>
    have hpos : 0 < s.cache.lruList.length := by
      rw [hlist, List.length_append]
      exact Nat.succ_pos _
    have hdrop : s.cache.lruList.dropLast = kept := by
      rw [hlist]
      exact List.dropLast_concat
    exact (if_neg (not_lt.2 (max_le hpos hfull))).trans hdrop

namespace Gets

/-- **The page returned** is at the front of the list, and the map has it. -/
theorem front (hg : Gets s p (.ok a) s') :
    s'.cache.pageMap.lookup p = some a ∧ s'.cache.lruList = a :: s.behind p := by
  cases hg with
  | hit hl =>
    rw [behind_hit hl]
    exact ⟨hl, rfl⟩
  | added hl _ _ hroom =>
    rw [hroom.behind hl]
    exact ⟨AList.lookup_insert _, rfl⟩

/-- A cached page is returned. -/
theorem eq_of_lookup {r : Except Fault Addr} (hg : Gets s p r s')
    (hl : s.cache.pageMap.lookup p = some a) :
    r = .ok a := by
  cases hg with
  | hit hl' => rw [Option.some.inj (hl'.symm.trans hl)]
  | failed hnone _ => cases hnone.symm.trans hl
  | added hnone _ _ _ => cases hnone.symm.trans hl

/-- The entries of the cache keep their pages. -/
theorem pageNum (hg : Gets s p r s') (h : s.Cached) (hb : b ∈ s.cache.lruList) :
    (s'.heap.entry b).pageNum = (s.heap.entry b).pageNum := by
  cases hg with
  | hit _ => rfl
  | failed _ _ => rfl
  | added _ _ _ _ => exact congrArg CacheEntry.pageNum (Heap.entry_append _ (h.lt b hb).1)

/-- What throws leaves the cache as it is. -/
theorem thrown {e : Fault} (hg : Gets s p (.error e) s') : s'.cache = s.cache := by
  cases hg with
  | failed _ _ => rfl

end Gets

theorem init_lru (file : File) (c : ℕ) (uninit : Addr → Page) : Lru [] (Pager.init file c uninit) :=
  ⟨init_cached file c uninit, Nat.zero_le _, Recency.nil⟩

end Pager

namespace PagerClient

variable {c c' : PagerClient} {m : Pages} {P : ℕ → Prop} {p : ℕ} {requests : List ℕ}

theorem getPage_pager : (c.getPage p).2.pager = (c.pager.getPage p).2 := by
  unfold getPage
  rcases c.pager.getPage p with ⟨_ | a, s⟩ <;> rfl

theorem change_file (c : PagerClient) (data : Page) :
    (c.change data).pager.file = c.pager.file := by
  unfold change
  split <;> rfl

/-- **A run** keeps the cache in order. -/
theorem lru_run : ∀ (steps : List PagerStep) {c : PagerClient} {requests : List ℕ},
    (∀ p, PagerStep.getPage p ∈ steps → p < filePagesNum) → c.pager.Lru requests →
      (run steps c).2.pager.Lru ((steps.filterMap PagerStep.request).reverse ++ requests) ∧
        (run steps c).2.pager.cache.maxPages = c.pager.cache.maxPages
  | [], c, requests, _, h => ⟨h, rfl⟩
  | .getPage p :: rest, c, requests, hp, h => by
    have hlt := hp p List.mem_cons_self
    have hg := h.toCached.gets hlt
    rw [← getPage_pager] at hg
    obtain ⟨hnext, hmax⟩ := h.gets hlt hg
    obtain ⟨hrun, hmax'⟩ := lru_run rest (fun q hq => hp q (List.mem_cons_of_mem _ hq)) hnext
    refine ⟨?_, hmax'.trans hmax⟩
    -- the request just made is the most recent one
    have hreverse : ((PagerStep.getPage p :: rest).filterMap PagerStep.request).reverse ++
        requests =
        (rest.filterMap PagerStep.request).reverse ++ p :: requests := by
      rw [List.filterMap_cons_some (show (PagerStep.getPage p).request = some p from rfl),
        List.reverse_cons,
        List.append_assoc]
      rfl
    rw [hreverse]
    exact hrun
  | .change data :: rest, c, requests, hp, h => by
    have hchange : (c.change data).pager.Lru requests ∧
        (c.change data).pager.cache.maxPages = c.pager.cache.maxPages := by
      unfold change
      split
      · exact ⟨h.congr (h.toCached.setData _ _) rfl fun b => Pager.setData_pageNum _ b _, rfl⟩
      · exact ⟨h, rfl⟩
    obtain ⟨hrun, hmax⟩ := lru_run rest (fun q hq => hp q (List.mem_cons_of_mem _ hq)) hchange.1
    exact ⟨hrun, hmax.trans hchange.2⟩
  | .flushAll :: rest, c, requests, hp, h => by
    obtain ⟨hcached, hcache, hnum⟩ := h.toCached.flushList (l := c.pager.cache.lruList) fun _ => id
    have hflush : c.flushAll.pager.Lru requests := h.congr hcached hcache hnum
    obtain ⟨hrun, hmax⟩ := lru_run rest (fun q hq => hp q (List.mem_cons_of_mem _ hq)) hflush
    refine ⟨hrun, hmax.trans ?_⟩
    exact congrArg PageCache.maxPages hcache

/-! ## The contents of the pages -/

/-- The client sees the pages of `P` as they are to be, and holds the entry of the last
page. -/
structure Sees (P : ℕ → Prop) (c : PagerClient) (m : Pages) : Prop where
  sound : c.pager.Sound
  page : ∀ p, P p → c.pager.page p = m.page p
  entry : c.entry = none ∧ m.last = none ∨
    ∃ a p, c.entry = some a ∧ m.last = some p ∧ P p ∧ c.pager.cache.pageMap.lookup p = some a

namespace Sees

theorem getPage (h : Sees P c m) (hP : P p) (hp : p < filePagesNum)
    (hle : p * pageSize + pageSize ≤ c.pager.file.file.size) :
    ∃ a s', c.getPage p = (.ok (m.page p), ⟨s', some a⟩) ∧ c.pager.Fetched p a s' ∧
      Sees P ⟨s', some a⟩ (m.getPage p) := by
  obtain ⟨a, s', hget, hf⟩ := h.sound.getPage_spec hp hle
  have hdata : (s'.heap.entry a).data = m.page p := by
    rw [← Pager.page_of_lookup hf.found, hf.page]
    exact h.page p hP
  refine ⟨a, s', ?_, hf, hf.sound, fun q hq => ?_, Or.inr ⟨a, p, rfl, rfl, hP, hf.found⟩⟩
  · unfold PagerClient.getPage
    rw [hget]
    simp only [hdata]
  · show s'.page q = m.page q
    rw [hf.page]
    exact h.page q hq

theorem change (h : Sees P c m) (data : Page) : Sees P (c.change data) (m.change data) := by
  unfold PagerClient.change Pages.change
  rcases h.entry with ⟨hc, hm⟩ | ⟨a, p, hc, hm, hP, hl⟩
  · rw [hc, hm]
    exact h
  · rw [hc, hm]
    refine ⟨⟨h.sound.toCached.setData a data, h.sound.works⟩, fun q hq => ?_,
      Or.inr ⟨a, p, rfl, rfl, hP, hl⟩⟩
    show (c.pager.setData a data).page q = Function.update m.page p data q
    rw [h.sound.setData_page hl]
    by_cases hqp : q = p
    · rw [hqp, Function.update_self, Function.update_self]
    · rw [Function.update_of_ne hqp, Function.update_of_ne hqp]
      exact h.page q hq

theorem flushAll (h : Sees P c m) : Sees P c.flushAll m := by
  obtain ⟨hsound, hpage⟩ := h.sound.flushAll
  have hcache : c.flushAll.pager.cache = c.pager.cache :=
    (h.sound.toCached.flushList (l := c.pager.cache.lruList) fun _ => id).2.1
  refine ⟨hsound, fun p hp => (congrFun hpage p).trans (h.page p hp), ?_⟩
  rcases h.entry with hnone | ⟨a, p, hc, hm, hP, hl⟩
  · exact Or.inl hnone
  · exact Or.inr ⟨a, p, hc, hm, hP, by rw [hcache]; exact hl⟩

end Sees

end PagerClient

end ToySQL
