import ToySQL.Proof.Cache

/-!
# Flushing and opening

`flush_all` changes the contents of no page (`Sound.flushAll`), and it brings every page
to the file if the clean entries are there (`Sound.flushAll_saves`). A file whose length is
0 as a `uint32_t` is overwritten with zeros when it is opened (`init_page`).
-/

namespace ToySQL

namespace Pager

variable {s : Pager} {p q : ℕ} {a b : Addr} {l : List Addr}

/-- One round of the loop of `flush_all`. -/
def flush (s : Pager) (a : Addr) : Pager :=
  if (s.heap.entry a).dirty then
    { s.writeBack (s.heap.entry a) with
      heap := s.heap.set a { s.heap.entry a with dirty := false } }
  else s

theorem flushList_cons : s.flushList (a :: l) = (s.flush a).flushList l := by
  unfold flush
  rw [flushList]
  split <;> rfl

theorem flush_cache : (s.flush a).cache = s.cache := by
  unfold flush
  split <;> rfl

/-- The entry `b` after the round of `a`. -/
theorem flush_entry (ha : a < s.heap.length) :
    (s.flush a).heap.entry b =
    { s.heap.entry b with dirty := decide (b ≠ a) && (s.heap.entry b).dirty } := by
  unfold flush
  by_cases hd : (s.heap.entry a).dirty = true
  · rw [if_pos hd]
    refine (Heap.entry_set _ ha).trans ?_
    by_cases hb : b = a
    · rw [if_pos hb, hb]
      simp
    · rw [if_neg hb]
      simp [hb]
  · rw [if_neg hd]
    by_cases hb : b = a
    · subst hb
      rw [Bool.not_eq_true] at hd
      rw [hd, Bool.and_false, ← hd]
    · simp [hb]

theorem flush_length : (s.flush a).heap.length = s.heap.length := by
  unfold flush
  split
  · exact List.length_set
  · rfl

namespace Cached

theorem flush (h : s.Cached) (ha : a < s.heap.length) : (s.flush a).Cached :=
  h.congr flush_cache flush_length fun b => by rw [flush_entry ha]

/-- Flushing entries of the list changes neither the cache nor a page number. -/
theorem flushList (hl : ∀ a ∈ l, a ∈ s.cache.lruList) (h : s.Cached) :
    (s.flushList l).Cached ∧ (s.flushList l).cache = s.cache ∧
      ∀ b, ((s.flushList l).heap.entry b).pageNum = (s.heap.entry b).pageNum := by
  induction l generalizing s with
  | nil => exact ⟨h, rfl, fun _ => rfl⟩
  | cons a l ih =>
    have ha := (h.lt a (hl a List.mem_cons_self)).1
    rw [flushList_cons]
    obtain ⟨hc, hcache, hnum⟩ := ih (s := s.flush a)
      (fun b hb => by rw [flush_cache]; exact hl b (List.mem_cons_of_mem a hb)) (h.flush ha)
    refine ⟨hc, hcache.trans flush_cache, fun b => ?_⟩
    rw [hnum, flush_entry ha]

end Cached

/-- The file has what the entry holds. -/
def InFile (s : Pager) (a : Addr) : Prop := s.file.page (s.heap.entry a).pageNum =
    (s.heap.entry a).data

namespace Sound

/-- A flushed entry is in the file if it was dirty, and the file does not shrink. -/
theorem flush_file (h : s.Sound) (ha : a ∈ s.cache.lruList) :
    (s.flush a).file.Works ∧ s.file.file.size ≤ (s.flush a).file.file.size ∧
      ∀ q, (s.flush a).file.page q =
        if (s.heap.entry a).dirty ∧ q = (s.heap.entry a).pageNum then
          (s.heap.entry a).data else s.file.page q := by
  unfold flush
  by_cases hd : (s.heap.entry a).dirty = true
  · obtain ⟨hworks, hsize, hpage⟩ := h.works.write_page (h.lt a ha).2 (s.heap.entry a).data
    rw [if_pos hd]
    refine ⟨hworks, hsize, fun q => (hpage q).trans ?_⟩
    simp only [hd, true_and]
  · rw [if_neg hd]
    refine ⟨h.works, le_rfl, fun q => ?_⟩
    rw [if_neg fun hq => hd hq.1]

/-- Flushing an entry keeps the pager in order. -/
theorem flush (h : s.Sound) (ha : a ∈ s.cache.lruList) : (s.flush a).Sound :=
  ⟨h.toCached.flush (h.lt a ha).1, (h.flush_file ha).1⟩

/-- One round changes the contents of no page. -/
theorem flush_page (h : s.Sound) (ha : a ∈ s.cache.lruList) : (s.flush a).page = s.page := by
  funext q
  cases hb : s.cache.pageMap.lookup q with
  | some b =>
    rw [page_of_lookup hb, page_of_lookup (by rw [flush_cache]; exact hb),
      flush_entry (h.lt a ha).1]
  | none =>
    rw [page_of_none hb, page_of_none (by rw [flush_cache]; exact hb),
      (h.flush_file ha).2.2, if_neg]
    rintro ⟨-, rfl⟩
    rw [(h.lookup _ a).2 ⟨ha, rfl⟩] at hb
    cases hb

/-- A flushed entry is in the file, and those that were there stay. -/
theorem flush_inFile (h : s.Sound) (ha : a ∈ s.cache.lruList) (hb : b ∈ s.cache.lruList)
    (hin : a = b ∧ (s.heap.entry b).dirty ∨ s.InFile b) : (s.flush a).InFile b := by
  unfold InFile at hin ⊢
  rw [(h.flush_file ha).2.2, flush_entry (h.lt a ha).1]
  rcases hin with ⟨rfl, hd⟩ | hin
  · rw [if_pos ⟨hd, rfl⟩]
  · by_cases hd : (s.heap.entry a).dirty ∧ (s.heap.entry b).pageNum = (s.heap.entry a).pageNum
    · rw [if_pos hd, h.injective hb ha hd.2]
    · rw [if_neg hd]
      exact hin

/-- **Flushing** keeps the contents of all pages. What was dirty is in the file then, and
what was in the file stays there. -/
theorem flushList (hl : ∀ a ∈ l, a ∈ s.cache.lruList) (h : s.Sound) :
    (s.flushList l).Sound ∧ s.file.file.size ≤ (s.flushList l).file.file.size ∧
      (s.flushList l).page = s.page ∧
      ∀ b ∈ s.cache.lruList, b ∈ l ∧ (s.heap.entry b).dirty ∨ s.InFile b →
        (s.flushList l).InFile b := by
  induction l generalizing s with
  | nil =>
    refine ⟨h, le_rfl, rfl, fun b _ hb => ?_⟩
    rcases hb with ⟨hb, -⟩ | hb
    · exact absurd hb List.not_mem_nil
    · exact hb
  | cons a l ih =>
    have ha := hl a List.mem_cons_self
    obtain ⟨hsound, hsize, hpage, hin⟩ := ih (s := s.flush a)
      (fun b hb => by rw [flush_cache]; exact hl b (List.mem_cons_of_mem a hb)) (h.flush ha)
    rw [flushList_cons]
    refine ⟨hsound, (h.flush_file ha).2.1.trans hsize, hpage.trans (h.flush_page ha),
      fun b hb hor => ?_⟩
    refine hin b (by rw [flush_cache]; exact hb) ?_
    rcases hor with ⟨hmem, hd⟩ | hb'
    · by_cases hab : a = b
      · exact Or.inr (h.flush_inFile ha hb (Or.inl ⟨hab, hd⟩))
      · refine Or.inl ⟨(List.mem_cons.1 hmem).resolve_left (Ne.symm hab), ?_⟩
        rw [flush_entry (h.lt a ha).1]
        simp [Ne.symm hab, hd]
    · exact Or.inr (h.flush_inFile ha hb (Or.inr hb'))

/-- `flush_all` changes no page as the pager sees it. -/
theorem flushAll (h : s.Sound) : s.flushAll.Sound ∧ s.flushAll.page = s.page :=
  have hf := h.flushList (l := s.cache.lruList) fun _ => id
  ⟨hf.1, hf.2.2.1⟩

/-- **Flushing** brings all pages to the file, if the entries that are clean are there. -/
theorem flushAll_saves (h : s.Sound)
    (hd : ∀ a ∈ s.cache.lruList, (s.heap.entry a).dirty = true ∨ s.InFile a) (p : ℕ) :
    s.flushAll.file.page p = s.page p := by
  obtain ⟨hsound, -, hpage, hin⟩ := h.flushList (l := s.cache.lruList) fun _ => id
  have hcache : s.flushAll.cache = s.cache := (h.toCached.flushList fun _ => id).2.1
  have hpage' : s.flushAll.page p = s.page p := congrFun hpage p
  rw [← hpage']
  cases hb : s.cache.pageMap.lookup p with
  | none => exact (page_of_none (by rw [hcache]; exact hb)).symm
  | some b =>
    have hb' : s.flushAll.cache.pageMap.lookup p = some b := by rw [hcache]; exact hb
    obtain ⟨hmem, -⟩ := (h.lookup p b).1 hb
    have hfile : s.flushAll.InFile b := hin b hmem ((hd b hmem).imp_left fun h => ⟨hmem, h⟩)
    have hnum : (s.flushAll.heap.entry b).pageNum = p := (hsound.lookup p b).1 hb' |>.2
    rw [page_of_lookup hb', ← hfile, hnum]

/-- Flushing dirty entries brings all pages to the file. -/
theorem flushAll_file (h : s.Sound) (hd : ∀ a ∈ s.cache.lruList, (s.heap.entry a).dirty = true)
    (p : ℕ) :
    s.flushAll.file.page p = s.page p :=
  h.flushAll_saves (fun a ha => Or.inl (hd a ha)) p

end Sound

/-! ## Opening a file -/

variable (file : File) (c : ℕ) (uninit : Addr → Page)

theorem init_cached : (Pager.init file c uninit).Cached := Cached.init rfl

/-- **Opening a file.** -/
theorem init_file_spec : (Pager.init file c uninit).file.Works ∧
    file.size ≤ (Pager.init file c uninit).file.file.size ∧ ∀ p < filePagesNum,
      (Pager.init file c uninit).file.page p =
        if u32 file.size = 0 then Bytes.zero pageSize else file.bytes (p * pageSize) pageSize := by
  have hworks : (FStream.mk file 0 false false).Works := ⟨rfl, rfl⟩
  unfold Pager.init
  by_cases h0 : u32 file.size = 0
  · simp only [if_pos h0]
    rw [hworks.seekp]
    unfold FStream.write
    simp only [Bool.or_false, Bool.false_eq_true, if_false]
    refine ⟨⟨rfl, rfl⟩, le_max_left _ _, fun p hp => ?_⟩
    refine (File.bytes_write_inside file (Bytes.zero (filePagesNum * pageSize)) (Nat.zero_le _)
      ?_).trans ?_
    · unfold filePagesNum at hp ⊢
      unfold pageSize
      omega
    · exact Bytes.slice_zero _ _ _
  · simp only [if_neg h0]
    exact ⟨⟨rfl, rfl⟩, le_rfl, fun p _ => rfl⟩

/-- A new pager is in order, whatever the file is. -/
theorem init_sound : (Pager.init file c uninit).Sound :=
  ⟨init_cached file c uninit, (init_file_spec file c uninit).1⟩

/-- The pages of a new pager are those of the file, or zero where the file is empty. -/
theorem init_page {p : ℕ} (hp : p < filePagesNum) : (Pager.init file c uninit).page p =
    if u32 file.size = 0 then Bytes.zero pageSize else file.bytes (p * pageSize) pageSize := by
  rw [page_of_none (AList.lookup_empty p)]
  exact (init_file_spec file c uninit).2.2 p hp

end Pager

end ToySQL
