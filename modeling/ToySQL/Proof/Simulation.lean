import ToySQL.Proof.Cache
import ToySQL.Proof.Memory
import ToySQL.Proof.Pairing

/-!
# The pager refines flat memory

`Sim` relates a pager to a flat memory with the same contents, the same counter and, up
to eviction, the same cached pages. The pages obtained since some point are the most
recent ones of the LRU list, so they stay cached as long as they fit.

* `Pager.handler_cases`: what one operation does to the pager.
* `Sim.step`: one operation. In flat memory only the pages `T` may be asked for; a run
  that needs others, or leaves a gap in the numbering of the pages, is lost when the
  cache is not large enough for all pages.
* `Sim.run`: whole runs of code that matches.
* `Sim.run_large`: with a cache for all pages nothing is lost.
-/

namespace ToySQL

open Program

/-! ## Conditions on single operations -/

namespace Pager

/-- The operation stays inside the pages, and accesses the keys of internal nodes at
indices in `K`. -/
def Allowed (K : ℕ → Prop) : PagerOp Addr → Pager → Prop
  | .getPage _, _ => True
  | .getUnusedPage, _ => True
  | .load a l, s => Mem.Access K (s.heap.entry a).data l
  | .store a l _, s => Mem.Access K (s.heap.entry a).data l
  | .memcpy _ dl _ sl n, _ => dl.offset + n ≤ pageSize ∧ sl.offset + n ≤ pageSize
  | .fill _ dl n _, _ => dl.offset + n ≤ pageSize

instance (K : ℕ → Prop) [DecidablePred K] : ∀ o s, Decidable (Allowed K o s)
  | .getPage _, _ => inferInstanceAs (Decidable True)
  | .getUnusedPage, _ => inferInstanceAs (Decidable True)
  | .load _ _, _ => inferInstanceAs (Decidable (Mem.Access K _ _))
  | .store _ _ _, _ => inferInstanceAs (Decidable (Mem.Access K _ _))
  | .memcpy _ _ _ _ _, _ => inferInstanceAs (Decidable (_ ∧ _))
  | .fill _ _ _ _, _ => inferInstanceAs (Decidable (_ ≤ _))

/-- The pager that refuses the other operations. -/
def strict (K : ℕ → Prop) [DecidablePred K] : Handler (pagerInterface Addr) Fault Pager :=
  Program.guard handler (Allowed K) .outOfPage

theorem strict_getPage (K : ℕ → Prop) [DecidablePred K] (n : ℕ) (s : Pager) :
    strict K (.getPage n) s = s.getPage n := by
  have h : Allowed K (.getPage n) s := trivial
  unfold strict Program.guard
  rw [if_pos h]
  rfl

/-- A page number past the file is refused and nothing changes. -/
theorem getPage_of_ge {n : ℕ} (h : n ≥ filePagesNum) (s : Pager) :
    s.getPage n = (.error (.outOfRange "Page number exceeding"), s) := if_pos h

/-- **What one operation does** to the pager: nothing, or it gets a page, or it gives an entry new
bytes. -/
theorem handler_cases (o : PagerOp Addr) (s : Pager) :
    (handler o s).2 = s ∨ (∃ p < filePagesNum, (handler o s).2 = (s.getPage p).2) ∨
      ∃ a data, (handler o s).2 = s.setData a data := by
  cases o with
  | getPage p =>
    by_cases hp : p < filePagesNum
    · exact Or.inr (Or.inl ⟨p, hp, rfl⟩)
    · exact Or.inl (congrArg Prod.snd (getPage_of_ge (not_lt.1 hp) s))
  | getUnusedPage => exact Or.inl rfl
  | load a l =>
    left
    simp only [handler]
    split <;> rfl
  | store _ _ _ | memcpy _ _ _ _ _ | fill _ _ _ _ =>
    simp only [handler]
    split
    · exact Or.inr (Or.inr ⟨_, _, rfl⟩)
    · exact Or.inl rfl

/-- With every page allowed the strict handler is the handler. -/
theorem strict_true : strict (fun _ => True) = handler := by
  refine guard_eq fun o s hn => ?_
  have haccess : ∀ (data : Page) (l : Loc), ¬ Mem.Access (fun _ => True) data l →
      ¬ l.offset + l.width ≤ pageSize :=
    fun data l hl hle => hl ⟨hle, fun _ _ _ => trivial⟩
  cases o with
  | getPage n => exact absurd trivial hn
  | getUnusedPage => exact absurd trivial hn
  | load a l => exact if_neg (haccess _ _ hn)
  | store a l v => exact if_neg (haccess _ _ hn)
  | memcpy dst dl src sl n => exact if_neg hn
  | fill dst dl n b => exact if_neg hn

end Pager

/-! ## The relation -/

/-- The pages that may be asked for are pages of the file, and fit in the cache, which
keeps one page at least. -/
structure Fits (T : ℕ → Prop) (c : ℕ) : Prop where
  lt : ∀ n, T n → n < filePagesNum
  card : ∃ t : Finset ℕ, (∀ n, T n → n ∈ t) ∧ t.card ≤ max 1 c

/-- All pages of the file fit a cache of that size. -/
theorem fits_all {c : ℕ} (h : filePagesNum ≤ c) : Fits (· < filePagesNum) c :=
  ⟨fun _ => id, Finset.range filePagesNum,
    fun _ => Finset.mem_range.2, by rw [Finset.card_range]; exact le_max_of_le_right h⟩

/-- A list of pages no longer than the cache fits it. -/
theorem fits_list {c : ℕ} {l : List ℕ} (h : ∀ q ∈ l, q < filePagesNum) (hc : l.length ≤ max 1 c) :
    Fits (· ∈ l) c :=
  ⟨h, l.toFinset, fun _ => List.mem_toFinset.2, (List.toFinset_card_le l).trans hc⟩

theorem fits_one {c q : ℕ} (hq : q < filePagesNum) : Fits (· ∈ [q]) c :=
  fits_list (fun p hp => by rw [List.mem_singleton.1 hp]; exact hq) (le_max_left _ _)

structure Sim (c : ℕ) (T : ℕ → Prop) (w : Links) (s : Pager) (m : Mem) : Prop where
  wf : s.Wf
  maxPages : s.cache.maxPages = c
  page : ∀ p < filePagesNum, s.page p = m.page p
  numPages : s.numPages = m.numPages
  cached : ∀ p a, s.cache.pageMap.lookup p = some a → m.cached p = true
  large : filePagesNum ≤ c → ∀ p, m.cached p = true → ∃ a, s.cache.pageMap.lookup p = some a
  small : c < filePagesNum → ∀ p, m.cached p = true → p < m.numPages
  linked : ∀ a p, (a, p) ∈ w → s.cache.pageMap.lookup p = some a
  recent : ∃ front rest, s.cache.lruList = front ++ rest ∧
    (∀ a ∈ front, T (s.heap.entry a).pageNum) ∧
    ∀ a p, (a, p) ∈ w → a ∈ front

/-- After this the flat run says nothing about the pager. -/
def lost (c : ℕ) (T : ℕ → Prop) (e : Option Fault) (m : Mem) : Prop :=
  ¬ (filePagesNum ≤ c ∧ ∀ n < filePagesNum, T n) ∧
    ((∃ what, e = some (.outOfRange what)) ∨ c < filePagesNum ∧ ∃ n, m.cached n = true ∧
      m.numPages ≤ n)

namespace Sim

variable {c : ℕ} {K T : ℕ → Prop} {w : Links} {s : Pager} {m : Mem} {a : Addr} {p n : ℕ}

theorem mem_lt (h : Sim c T w s m) (hl : (a, p) ∈ w) : p < filePagesNum := by
  obtain ⟨hmem, rfl⟩ := (h.wf.lookup p a).1 (h.linked a p hl)
  exact (h.wf.lt a hmem).2

theorem data (h : Sim c T w s m) (hl : (a, p) ∈ w) : (s.heap.entry a).data = m.page p := by
  rw [← Pager.page_of_lookup (h.linked a p hl)]
  exact h.page p (h.mem_lt hl)

/-- Writing through linked pointers. -/
theorem setData (h : Sim c T w s m) (hl : (a, p) ∈ w) (d : Page) :
    Sim c T w (s.setData a d) (m.set p d) := by
  have hlook := h.linked a p hl
  obtain ⟨front, rest, hlist, hT, hw⟩ := h.recent
  refine ⟨h.wf.setData a d, h.maxPages, fun q hq => ?_, h.numPages, h.cached, h.large, h.small,
    h.linked,
    ⟨front, rest, hlist, fun b hb => by rw [Pager.setData_pageNum]; exact hT b hb, hw⟩⟩
  rw [h.wf.setData_page hlook, Mem.page_set]
  by_cases hqp : q = p
  · rw [hqp, Function.update_self, Function.update_self]
  · rw [Function.update_of_ne hqp, Function.update_of_ne hqp]; exact h.page q hq

end Sim

namespace Pager.Wf.Got

variable {s s' : Pager} {p : ℕ} {a b : Addr}

/-- The entries that were there keep their pages. -/
theorem pageNum (h : Got s p a s') (hs : s.Wf) (hb : b ∈ s.cache.lruList) :
    (s'.heap.entry b).pageNum = (s.heap.entry b).pageNum := by
  rw [h.entry hs.toCached hb]

/-- A page cached afterwards is the one asked for or was cached. -/
theorem lookup_of (h : Got s p a s') (hs : s.Wf) {q : ℕ} (hb : s'.cache.pageMap.lookup q = some b) :
    q = p ∨ s.cache.pageMap.lookup q = some b := by
  obtain ⟨hmem, hq⟩ := (h.wf.lookup q b).1 hb
  rcases h.mem_list hmem with rfl | hmem
  · exact Or.inl (hq.symm.trans ((h.wf.lookup p b).1 h.found).2)
  · exact Or.inr ((hs.lookup q b).2 ⟨hmem, (h.pageNum hs hmem).symm.trans hq⟩)

/-- An entry that stays in the list stays the entry of its page. -/
theorem lookup_mono (h : Got s p a s') (hs : s.Wf) {q : ℕ} (hb : s.cache.pageMap.lookup q = some b)
    (hmem : b ∈ s'.cache.lruList) : s'.cache.pageMap.lookup q = some b := by
  obtain ⟨hold, hq⟩ := (hs.lookup q b).1 hb
  exact (h.wf.lookup q b).2 ⟨hmem, (h.pageNum hs hold).trans hq⟩

end Pager.Wf.Got

namespace Sim

variable {c : ℕ} {K T : ℕ → Prop} {w : Links} {s s' : Pager} {m : Mem} {a : Addr} {p n : ℕ}

open Pager.Wf

/-- The pages obtained so far stay at the front of the list. -/
theorem front_getPage (h : Sim c T w s m) (hf : Fits T c) (hn : T n) (hg : Got s n a s') :
    ∃ front rest, s'.cache.lruList = front ++ rest ∧ (∀ b ∈ front, T (s'.heap.entry b).pageNum) ∧
      a ∈ front ∧ ∀ b p, (b, p) ∈ w → b ∈ front := by
  obtain ⟨front, rest, hlist, hT, hw⟩ := h.recent
  obtain ⟨kept, hlist', hkept⟩ := hg.list
  have hfront : ∀ b ∈ front, b ∈ s.cache.lruList := fun b hb => by
    rw [hlist]; exact List.mem_append_left _ hb
  have ha : T (s'.heap.entry a).pageNum := by rw [((hg.wf.lookup n a).1 hg.found).2]; exact hn
  have hTb : ∀ b ∈ front, T (s'.heap.entry b).pageNum := fun b hb => by
    rw [hg.pageNum h.wf (hfront b hb)]; exact hT b hb
  -- a page that is cached, or fits, evicts none of those at the front
  rcases hkept with rfl | ⟨hnone, hne, hfull, rfl⟩
  · refine ⟨a :: front.filter (· ≠ a), rest.filter (· ≠ a), ?_, fun b hb => ?_,
      List.mem_cons_self ..,
      fun b p hb => ?_⟩
    · rw [hlist', hlist, List.filter_append, List.cons_append]
    · rcases List.mem_cons.1 hb with rfl | hb
      · exact ha
      · exact hTb b (List.mem_of_mem_filter hb)
    · by_cases hba : b = a
      · rw [hba]; exact List.mem_cons_self ..
      · exact List.mem_cons_of_mem _ (List.mem_filter.2 ⟨hw b p hb, decide_eq_true hba⟩)
  · -- the pages at the front and the new one fit in the cache, so the last entry is another one
    have hrest : rest ≠ [] := by
      rintro rfl
      rw [List.append_nil] at hlist
      obtain ⟨t, ht, hcard⟩ := hf.card
      have hsub : (s.cache.lruList.map fun b => (s.heap.entry b).pageNum).toFinset ⊆ t.erase n := by
        intro q hq
        rw [List.mem_toFinset, List.mem_map] at hq
        obtain ⟨b, hb, rfl⟩ := hq
        refine Finset.mem_erase.2 ⟨fun he => ?_, ht _ (hT b (hlist ▸ hb))⟩
        have := (h.wf.lookup n b).2 ⟨hb, he⟩
        rw [hnone] at this
        cases this
      have hnd : (s.cache.lruList.map fun b => (s.heap.entry b).pageNum).Nodup :=
        h.wf.nodup.map_on fun x hx y hy he => h.wf.injective hx hy he
      have hle := Finset.card_le_card hsub
      rw [List.toFinset_card_of_nodup hnd, List.length_map, Finset.card_erase_of_mem (ht n hn)]
        at hle
      have hpos : 0 < t.card := Finset.card_pos.2 ⟨n, ht n hn⟩
      rw [h.maxPages] at hfull
      have hlen := List.length_pos_of_ne_nil hne
      omega
    refine ⟨a :: front, rest.dropLast, ?_, fun b hb => ?_, List.mem_cons_self .., fun b p hb =>
      List.mem_cons_of_mem _ (hw b p hb)⟩
    · rw [hlist', hlist, List.dropLast_append_of_ne_nil hrest, List.cons_append]
    · rcases List.mem_cons.1 hb with rfl | hb
      · exact ha
      · exact hTb b hb

/-- With a cache for all pages nothing leaves it. -/
theorem large_getPage (h : Sim c T w s m) (hc : filePagesNum ≤ c) (hg : Got s n a s') {q : ℕ}
    {b : Addr}
    (hb : s.cache.pageMap.lookup q = some b) : b ∈ s'.cache.lruList := by
  obtain ⟨hmem, -⟩ := (h.wf.lookup q b).1 hb
  obtain ⟨kept, hlist', hkept⟩ := hg.list
  rw [hlist']
  rcases hkept with rfl | ⟨hnone, -, hfull, -⟩
  · by_cases hba : b = a
    · rw [hba]; exact List.mem_cons_self ..
    · exact List.mem_cons_of_mem _ (List.mem_filter.2 ⟨hmem, decide_eq_true hba⟩)
  · -- the cached pages are pages of the file, other than the new one
    have hn : n < filePagesNum := by
      obtain ⟨hmem', hpage⟩ := (hg.wf.lookup n a).1 hg.found
      rw [← hpage]
      exact (hg.wf.lt a hmem').2
    have hsub : (s.cache.lruList.map fun b => (s.heap.entry b).pageNum).toFinset ⊆
        (Finset.range filePagesNum).erase n := by
      intro q hq
      rw [List.mem_toFinset, List.mem_map] at hq
      obtain ⟨b, hb, rfl⟩ := hq
      refine Finset.mem_erase.2 ⟨fun he => ?_, Finset.mem_range.2 (h.wf.lt b hb).2⟩
      have := (h.wf.lookup n b).2 ⟨hb, he⟩
      rw [hnone] at this
      cases this
    have hnd : (s.cache.lruList.map fun b => (s.heap.entry b).pageNum).Nodup :=
      h.wf.nodup.map_on fun x hx y hy he => h.wf.injective hx hy he
    have hle := Finset.card_le_card hsub
    rw [List.toFinset_card_of_nodup hnd, List.length_map,
      Finset.card_erase_of_mem (Finset.mem_range.2 hn),
      Finset.card_range] at hle
    rw [h.maxPages] at hfull
    omega

/-- **Getting a page**, up to a gap in the numbering. -/
theorem getPage (h : Sim c T w s m) (hf : Fits T c) (hn : T n) :
    ∃ a s', s.getPage n = (.ok a, s') ∧
      (Sim c T (insert (a, n) w) s' (m.touch n) ∨ lost c T none (m.touch n)) := by
  have hlt := hf.lt n hn
  obtain ⟨a, s', hget, hg⟩ := h.wf.getPage_spec hlt
  refine ⟨a, s', hget, ?_⟩
  obtain ⟨front, rest, hlist, hT, ha, hw⟩ := h.front_getPage hf hn hg
  have hfl : ∀ b ∈ front, b ∈ s'.cache.lruList :=
    fun b hb => by rw [hlist]; exact List.mem_append_left _ hb
  have hcn : m.cached n = true ∨ m.cached n = false := by cases m.cached n <;> simp
  -- what holds however the counter moves
  have hsim : ∀ m' : Mem, m'.page = m.page → s'.numPages = m'.numPages →
      (∀ q, m'.cached q = true ↔ q = n ∨ m.cached q = true) →
      (c < filePagesNum → ∀ q, m'.cached q = true → q < m'.numPages) →
      Sim c T (insert (a, n) w) s' m' := by
    intro m' hpage hnum hcached hsmall
    refine ⟨hg.wf, hg.maxPages.trans h.maxPages, fun q hq => ?_, hnum, fun q b hb => ?_,
      fun hc q hq => ?_, hsmall,
      fun b q hbq => ?_, ⟨front, rest, hlist, hT, fun b q hbq => ?_⟩⟩
    · rw [hg.page, hpage]; exact h.page q hq
    · rw [hcached]
      exact (hg.lookup_of h.wf hb).imp id fun hb => h.cached q b hb
    · rcases (hcached q).1 hq with rfl | hq
      · exact ⟨a, hg.found⟩
      · obtain ⟨b, hb⟩ := h.large hc q hq
        exact ⟨b, hg.lookup_mono h.wf hb (h.large_getPage hc hg hb)⟩
    · rcases hbq with hbq | hbq
      · obtain ⟨rfl, rfl⟩ := Prod.mk.inj hbq; exact hg.found
      · exact hg.lookup_mono h.wf (h.linked b q hbq) (hfl b (hw b q hbq))
    · rcases hbq with hbq | hbq
      · obtain ⟨rfl, rfl⟩ := Prod.mk.inj hbq; exact ha
      · exact hw b q hbq
  rcases hcn with hcn | hcn
  · -- the page has been asked for before
    left
    rw [Mem.touch_of_cached hcn]
    refine hsim m rfl ?_ (fun q => ⟨Or.inr, fun hq => ?_⟩) h.small
    · rw [hg.numPages, ← h.numPages, if_neg]
      rintro ⟨hnone, hnp⟩
      rcases lt_or_ge c filePagesNum with hc | hc
      · have := h.small hc n hcn
        rw [← h.numPages] at this
        omega
      · obtain ⟨b, hb⟩ := h.large hc n hcn
        rw [hb] at hnone
        cases hnone
    · rcases hq with rfl | hq
      · exact hcn
      · exact hq
  · have hnone : s.cache.pageMap.lookup n = none := by
      cases hb : s.cache.pageMap.lookup n with
      | none => rfl
      | some b => rw [h.cached n b hb] at hcn; cases hcn
    have htouch : m.touch n = ⟨m.page, Function.update m.cached n true,
        if n = m.numPages then m.numPages + 1 else m.numPages⟩ := by
      unfold Mem.touch; rw [hcn]; rfl
    by_cases hgap : c < filePagesNum ∧ m.numPages < n
    · right
      refine ⟨fun he => by omega, Or.inr ⟨hgap.1, n, ?_, ?_⟩⟩
      · rw [htouch]; exact Function.update_self ..
      · rw [htouch]
        show (if n = m.numPages then _ else _) ≤ n
        rw [if_neg (by omega)]
        omega
    · left
      rw [htouch]
      refine hsim _ rfl ?_ (fun q => ?_) fun hc q hq => ?_
      · rw [hg.numPages, h.numPages, hnone]
        simp
      · show Function.update m.cached n true q = true ↔ _
        by_cases hqn : q = n
        · rw [hqn, Function.update_self]; simp
        · rw [Function.update_of_ne hqn]; simp [hqn]
      · have hq' : Function.update m.cached n true q = true := hq
        show q < if n = m.numPages then m.numPages + 1 else m.numPages
        by_cases hqn : q = n
        · split <;> omega
        · rw [Function.update_of_ne hqn] at hq'
          have := h.small hc q hq'
          split <;> omega

/-- **One operation.** -/
theorem step [DecidablePred K] [DecidablePred T] (hf : Fits T c) {o : PagerOp Addr} {o' : PagerOp ℕ}
    (h : Sim c T w s m) (ho : SameOp w o o') :
    Agree (fun w' r r' => pointers.res w o o' r r' w') (Sim c T) (Pager.strict K o s)
      (Mem.handler K T o' m) ∨
      Lost (lost c T) (Mem.handler K T o' m) := by
  have hsame : ∀ {o o'} {r : PagerOp.Res o} {r' : PagerOp.Res o'}, SameRes o o' r r' w →
      pointers.res w o o' r r' w := fun hr => ⟨le_rfl, hr⟩
  -- a refused access is refused on both sides
  have hrefuse : ∀ {o : PagerOp Addr} {o' : PagerOp ℕ}, ¬ Pager.Allowed K o s →
      Mem.handler K T o' m = (.error .outOfPage, m) →
      Agree (fun w' r r' => pointers.res w o o' r r' w') (Sim c T) (Pager.strict K o s)
        (Mem.handler K T o' m) := by
    intro o o' hn hm
    rw [hm, show Pager.strict K o s = _ from if_neg hn]
    exact ⟨rfl, w, h⟩
  cases ho with
  | getPage n =>
    by_cases hn : T n
    · obtain ⟨a, s', hget, hs⟩ := h.getPage hf hn
      have h1 : Pager.strict K (.getPage n) s = (.ok a, s') :=
        (Pager.strict_getPage K n s).trans hget
      have h2 : Mem.handler K T (.getPage n) m = (.ok n, m.touch n) := if_pos hn
      rw [h1, h2]
      refine hs.imp (fun hs => ?_) id
      exact ⟨_, ⟨Set.subset_insert _ _, Set.mem_insert _ _⟩, hs⟩
    · have h2 : Mem.handler K T (.getPage n) m =
          (.error (.outOfRange "Page number exceeding"), m) := if_neg hn
      rw [h2]
      by_cases hall : filePagesNum ≤ c ∧ ∀ n < filePagesNum, T n
      · left
        have hge : n ≥ filePagesNum := by
          by_contra hlt
          exact hn (hall.2 n (not_le.1 hlt))
        have h1 :
            Pager.strict K (.getPage n) s = (.error (.outOfRange "Page number exceeding"), s) :=
          (Pager.strict_getPage K n s).trans (Pager.getPage_of_ge hge s)
        rw [h1]
        exact ⟨rfl, w, h⟩
      · exact Or.inr ⟨hall, Or.inl ⟨_, rfl⟩⟩
  | getUnusedPage =>
    left
    exact ⟨w, hsame h.numPages, h⟩
  | @load a p l hl =>
    left
    have hd := h.data hl
    by_cases hacc : Mem.Access K (m.page p) l
    · have hacc' : Mem.Access K (s.heap.entry a).data l := by rw [hd]; exact hacc
      have h1 : Pager.strict K (.load a l) s = (.ok ((s.heap.entry a).data.load l), s) :=
        (if_pos hacc').trans (if_pos hacc'.1)
      have h2 : Mem.handler K T (.load p l) m = (.ok ((m.page p).load l), m) := if_pos hacc
      rw [h1, h2, hd]
      exact ⟨w, hsame rfl, h⟩
    · refine hrefuse (fun hacc' => hacc ?_) (if_neg hacc)
      have : Mem.Access K (s.heap.entry a).data l := hacc'
      rwa [hd] at this
  | @store a p l v hl =>
    left
    have hd := h.data hl
    by_cases hacc : Mem.Access K (m.page p) l
    · have hacc' : Mem.Access K (s.heap.entry a).data l := by rw [hd]; exact hacc
      have h1 : Pager.strict K (.store a l v) s =
          (.ok (), s.setData a ((s.heap.entry a).data.store l v)) :=
        (if_pos hacc').trans (if_pos hacc'.1)
      have h2 : Mem.handler K T (.store p l v) m = (.ok (), m.set p ((m.page p).store l v)) :=
        if_pos hacc
      rw [h1, h2, hd]
      exact ⟨w, hsame trivial, h.setData hl _⟩
    · refine hrefuse (fun hacc' => hacc ?_) (if_neg hacc)
      have : Mem.Access K (s.heap.entry a).data l := hacc'
      rwa [hd] at this
  | @memcpy a p b q dl sl n hl hl' =>
    left
    by_cases hacc : dl.offset + n ≤ pageSize ∧ sl.offset + n ≤ pageSize
    · have h1 : Pager.strict K (.memcpy a dl b sl n) s = (.ok (), s.setData a
          ((s.heap.entry a).data.splice dl.offset ((s.heap.entry b).data.slice sl.offset n))) :=
        (if_pos hacc).trans (if_pos hacc)
      have h2 : Mem.handler K T (.memcpy p dl q sl n) m = (.ok (), m.set p
          ((m.page p).splice dl.offset ((m.page q).slice sl.offset n))) := if_pos hacc
      rw [h1, h2, h.data hl, h.data hl']
      exact ⟨w, hsame trivial, h.setData hl _⟩
    · exact hrefuse hacc (if_neg hacc)
  | @fill a p dl n buffer hl =>
    left
    by_cases hacc : dl.offset + n ≤ pageSize
    · have h1 : Pager.strict K (.fill a dl n buffer) s = (.ok (), s.setData a
          ((s.heap.entry a).data.splice dl.offset buffer)) := (if_pos hacc).trans (if_pos hacc)
      have h2 : Mem.handler K T (.fill p dl n buffer) m = (.ok (), m.set p
          ((m.page p).splice dl.offset buffer)) := if_pos hacc
      rw [h1, h2, h.data hl]
      exact ⟨w, hsame trivial, h.setData hl _⟩
    · exact hrefuse hacc (if_neg hacc)

/-- What is lost stays lost. -/
theorem lost_step [DecidablePred K] [DecidablePred T] (o : PagerOp ℕ) (m : Mem)
    (h : lost c T none m) :
    Lost (lost c T) (Mem.handler K T o m) := by
  obtain ⟨hall, ⟨_, he⟩ | ⟨hc, n, hcn, hn⟩⟩ := h
  · cases he
  -- the counter cannot pass a page that is cached already
  have hgap : ∀ (e : Option Fault) (m' : Mem), m'.cached n = true → m'.numPages ≤ n →
      lost c T e m' :=
    fun e m' h1 h2 => ⟨hall, Or.inr ⟨hc, n, h1, h2⟩⟩
  have hif : ∀ {α : Type} {C : Prop} [Decidable C] (x : Except Fault α × Mem),
      (C → Lost (lost c T) x) → Lost (lost c T) (if C then x else (.error .outOfPage, m)) := by
    intro α C _ x hx
    split
    · exact hx ‹_›
    · exact hgap _ m hcn hn
  cases o with
  | getPage q =>
    show Lost (lost c T) (if T q then _ else _)
    split
    · refine hgap _ _ ?_ ?_
      · unfold Mem.touch
        split
        · exact hcn
        · show Function.update m.cached q true n = true
          by_cases hqn : n = q
          · rw [hqn, Function.update_self]
          · rw [Function.update_of_ne hqn]; exact hcn
      · unfold Mem.touch
        split
        · exact hn
        · rename_i hq
          show (if q = m.numPages then m.numPages + 1 else m.numPages) ≤ n
          have : q ≠ n := fun he => hq (he ▸ hcn)
          split <;> omega
    · exact ⟨hall, Or.inl ⟨_, rfl⟩⟩
  | getUnusedPage => exact hgap none m hcn hn
  | load p l => exact hif _ fun _ => hgap none m hcn hn
  | store p l v => exact hif _ fun _ => hgap none _ hcn hn
  | memcpy dst dl src sl k => exact hif _ fun _ => hgap none _ hcn hn
  | fill dst dl k b => exact hif _ fun _ => hgap none _ hcn hn

/-- Without links the simulation holds for any set of pages. -/
theorem forget (h : Sim c T w s m) {T' : ℕ → Prop} : Sim c T' ∅ s m :=
  ⟨h.wf, h.maxPages, h.page, h.numPages, h.cached, h.large, h.small,
    fun _ _ hl => absurd hl (Set.notMem_empty _),
    ⟨[], s.cache.lruList, rfl, fun _ hb => absurd hb List.not_mem_nil,
      fun _ _ hl => absurd hl (Set.notMem_empty _)⟩⟩

/-- **Whole runs.** -/
theorem run [DecidablePred K] [DecidablePred T] {α : Type} {f : Prog Addr α} {f' : Prog ℕ α}
    (hf : Fits T c)
    (h : Sim c T ∅ s m) (hm : ∀ w, Match Eq' w f f') :
    (∃ r s' m', f.run (Pager.strict K) s = (r, s') ∧ f'.run (Mem.handler K T) m = (r, m') ∧
      Sim c T ∅ s' m') ∨
      Lost (lost c T) (f'.run (Mem.handler K T) m) := by
  refine (Matches.run (S := Sim c T) lost_step (fun e m hl => ?_)
    (fun w s m o o' hs ho => hs.step hf ho)
    (hm ∅) s m h).imp (fun hagree => ?_) id
  · obtain ⟨hall, ⟨_, he⟩ | hgap⟩ := hl
    · cases he
    · exact ⟨hall, Or.inr hgap⟩
  · revert hagree
    rcases f.run (Pager.strict K) s with ⟨e | a, s'⟩ <;> rcases f'.run (Mem.handler K T) m
      with ⟨e' | a', m'⟩
    · rintro ⟨rfl, w, hw⟩; exact ⟨_, _, _, rfl, rfl, hw.forget⟩
    · exact False.elim
    · exact False.elim
    · rintro ⟨w, rfl, hw⟩; exact ⟨_, _, _, rfl, rfl, hw.forget⟩

/-- **With a cache for all pages** the pager and flat memory agree. -/
theorem run_large [DecidablePred K] {α : Type} {f : Prog Addr α} {g : Prog ℕ α}
    (hc : filePagesNum ≤ c)
    (h : Sim c (· < filePagesNum) ∅ s m) (hm : ∀ w, Match Eq' w f g) :
    ∃ r s' m', f.run (Pager.strict K) s = (r, s') ∧
      g.run (Mem.handler K (· < filePagesNum)) m = (r, m') ∧
      Sim c (· < filePagesNum) ∅ s' m' := by
  rcases h.run (K := K) (fits_all hc) hm with h | h
  · exact h
  · have hlost : ∀ e m', ¬ lost c (· < filePagesNum) e m' := fun e m' hl => hl.1 ⟨hc, fun _ => id⟩
    revert h
    rcases g.run (Mem.handler K (· < filePagesNum)) m with ⟨e' | a', m'⟩
    · exact fun h => absurd h (hlost _ _)
    · exact fun h => absurd h (hlost _ _)

end Sim

/-! ## A new file -/

/-- A stream after zeros are written to its empty file. -/
theorem FStream.write_zeros (n : ℕ) : ∃ f : FStream,
    ((FStream.mk File.empty 0 false false).seekp 0).write (Bytes.zero n) = f ∧ f.eof = false ∧
      f.fail = false ∧
      n ≤ f.file.size ∧ f.file.content = 0 := by
  have h : (Bytes.zero n).toNat = 0 := rfl
  refine ⟨_, rfl, rfl, rfl, le_max_of_le_right (Nat.le_add_left _ _), ?_⟩
  show (File.empty.write 0 (Bytes.zero n)).content = 0
  unfold File.write File.empty
  rw [h]
  simp

/-- The pager over no file makes an empty one and opens it. -/
theorem Pager.init_file (c : ℕ) (uninit : Addr → Page) : ∃ f : FStream,
    Pager.init File.empty c uninit = ⟨f, .init c, 0, [], uninit⟩ ∧ f.Open ∧ f.file.content = 0 := by
  obtain ⟨f, hf, heof, hfail, hsize, hcontent⟩ := FStream.write_zeros (filePagesNum * pageSize)
  refine ⟨f, ?_, ⟨⟨heof, hfail⟩, hsize⟩, hcontent⟩
  rw [← hf]
  rfl

/-- **The pager over a new file** is an empty flat memory. -/
theorem sim_init (c : ℕ) (uninit : Addr → Page) (T : ℕ → Prop) :
    Sim c T ∅ (Pager.init File.empty c uninit) Mem.empty := by
  obtain ⟨f, hinit, hopen, hcontent⟩ := Pager.init_file c uninit
  rw [hinit]
  have hnone : ∀ p, (PageCache.init c).pageMap.lookup p = none := fun p => AList.lookup_empty p
  refine ⟨⟨Pager.Cached.init rfl, hopen⟩, rfl, fun p _ => ?_, rfl,
    fun p a ha => ?_, fun _ p hp => absurd hp Bool.false_ne_true, fun _ p hp =>
      absurd hp Bool.false_ne_true,
    fun _ _ hl => absurd hl (Set.notMem_empty _),
    ⟨[], [], rfl, fun _ ha => absurd ha List.not_mem_nil,
      fun _ _ hl => absurd hl (Set.notMem_empty _)⟩⟩
  · rw [Pager.page_of_none (hnone p)]
    show f.file.bytes (p * pageSize) pageSize = Bytes.zero pageSize
    unfold File.bytes
    rw [hcontent, Nat.zero_shiftRight]
    rfl
  · have ha' : (PageCache.init c).pageMap.lookup p = some a := ha
    rw [hnone] at ha'
    cases ha'

end ToySQL
