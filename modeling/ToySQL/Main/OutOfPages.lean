import ToySQL.Main.LeafInsert
import ToySQL.Proof.Aside
import ToySQL.Proof.Lookup
import ToySQL.Proof.NoPage
import ToySQL.Proof.Reach
import ToySQL.Proof.Root

/-!
# An insertion for which there is no page

* `Pager.Wf.locates`: on a tree, pagers with the same pages find the same.
* `Pager.unchanged`: a full leaf for which no page is left is not split, and nothing has changed.
* `Pager.OneSession.changed`: where there was a page for its upper half, the leaf has lost it.
* `Pager.unchanged_iff`: the two together.
-/

namespace ToySQL

open Program

namespace Pager

variable {s s' : Pager} {page : ℕ → Page} {fuel key : ℕ}

theorem pageAt (s : Pager) (a : Addr) : PageAt handler s a (s.heap.entry a).data := by
  intro l hl
  simp only [handler, if_pos hl]

/-- A pager in order can be read, whatever the size of its cache. -/
theorem readable (page : ℕ → Page) :
    Readable handler (fun s => s.Wf ∧ s.page = page) filePagesNum page := by
  rintro s p ⟨hs, rfl⟩ hp
  obtain ⟨a, s', hget, hgot⟩ := hs.getPage_spec hp
  have hpg := s'.pageAt a
  rw [hgot.data] at hpg
  exact ⟨a, s', hget, ⟨hgot.wf, hgot.page⟩, hpg⟩

/-- The lookup in a well-formed tree ends as the tree says and changes no page. -/
theorem Wf.run_tableFind (h : s.Wf) (hb : BTree s.page filePagesNum rootPageNum) (fuel key : ℕ) :
    ∃ r s₁, (tableFind fuel key).run handler s = (r, s₁) ∧
      Lookup s.page filePagesNum key rootPageNum r ∧ s₁.Wf ∧
      s₁.page = s.page := by
  obtain ⟨r, hlook, hends⟩ := hb.run_tableFind (readable s.page) le_rfl fuel key
  obtain ⟨s₁, hrun, hs₁⟩ := hends s ⟨h, rfl⟩
  exact ⟨r, s₁, hrun, hlook, hs₁⟩

/-- **The same pages**, the same lookups. -/
theorem Wf.locates (h : s.Wf) (h' : s'.Wf) (hpage : s'.page = s.page)
    (hb : BTree s.page filePagesNum rootPageNum) {cursor : Cursor} :
    s.Locates fuel key cursor → s'.Locates fuel key cursor := by
  rintro ⟨s₁, hrun⟩
  obtain ⟨r, -, hends⟩ := hb.run_tableFind (readable s.page) le_rfl fuel key
  obtain ⟨s₂, hrun₂, -⟩ := hends s ⟨h, rfl⟩
  obtain ⟨s₃, hrun₃, -⟩ := hends s' ⟨h', hpage⟩
  rw [hrun₂] at hrun
  obtain ⟨rfl, -⟩ := Prod.mk.inj hrun
  exact ⟨s₃, hrun₃⟩

/-! ## No page left -/

/-- Whatever the code does, the counter does not go back. -/
theorem Wf.numPages_le {α : Type} (h : s.Wf) (f : Prog Addr α) :
    s.numPages ≤ (f.run handler s).2.numPages := by
  have hset : ∀ {C : Prop} [Decidable C] {t : Pager} (a : Addr) (d : Page)
      {r r' : Except Fault Unit}, t.Wf ∧ s.numPages ≤ t.numPages →
      (if C then (r, t.setData a d) else (r', t)).2.Wf ∧
        s.numPages ≤ (if C then (r, t.setData a d) else (r', t)).2.numPages := by
    intro C _ t a d r r' ht
    split
    · exact ⟨ht.1.setData a d, ht.2⟩
    · exact ht
  refine (run_invariant (C := fun t => t.Wf ∧ s.numPages ≤ t.numPages) (fun o t ht => ?_) f s
    ⟨h, le_rfl⟩).2
  cases o with
  | getPage p =>
    rcases lt_or_ge p filePagesNum with hp | hp
    · obtain ⟨a, t', hget, hgot⟩ := ht.1.getPage_spec hp
      rw [show handler (.getPage p) t = (.ok a, t') from hget]
      refine ⟨hgot.wf, ht.2.trans ?_⟩
      -- only a page got for the first time is counted
      rw [hgot.numPages]
      split <;> omega
    · rw [show handler (.getPage p) t = _ from getPage_of_ge hp t]
      exact ht
  | getUnusedPage => exact ht
  | load a l =>
    simp only [handler]
    split_ifs <;> exact ht
  | store a l v => exact hset _ _ ht
  | memcpy dst dl src sl n => exact hset _ _ ht
  | fill dst dl n buffer => exact hset _ _ ht

/-- A leaf with room takes no page, and a full one asks for its page before it is written. -/
theorem Wf.leafNodeInsert_outOfRange {q : ℕ} {row : Row} {what : String} (h : s.Wf)
    (hq : q < filePagesNum)
    (hleaf : (s.page q).isLeaf = true) (hcells : (s.page q).numCells ≤ leafNodeMaxCells)
    (hkey : key < 2 ^ 32)
    (hn : filePagesNum ≤ s.numPages)
    (hrun : (leafNodeInsert fuel (makeCursor q ((s.page q).findCell key)) key row).run handler s =
      (.error (.outOfRange what), s')) :
    s'.Wf ∧ s'.page = s.page := by
  rcases hcells.lt_or_eq with hroom | hfull
  · obtain ⟨s₂, a, hok, -⟩ :=
      @leafNodeInsert_room s q ((s.page q).findCell key) fuel key false row h hq hroom
      (Page.findCell_le _ key) hkey
    rw [show makeCursor q ((s.page q).findCell key) = ⟨q, (s.page q).findCell key, false⟩ from rfl,
      hok] at hrun
    cases hrun
  · exact wp_error (F := fun _ s' => s'.Wf ∧ s'.page = s.page)
      (wp_leafNodeInsert_outOfRange (Q := fun _ _ => True) h
      (hq.trans_le hn) hq hleaf hfull hn fun _ _ hwf hpage => ⟨hwf, hpage⟩) hrun

/-- **Without a page for the upper half**, an insertion that runs out of pages has changed nothing.
-/
theorem unchanged {op : Insertion} {what : String} (h : s.Wf)
    (hb : BTree s.page filePagesNum rootPageNum)
    (hn : s.NoPageLeft fuel op.key.toNat)
    (hrun : (insertRow fuel op).run handler s = (.error (.outOfRange what), s')) :
    s.Unchanged s' := by
  obtain ⟨r, s₁, hfind, hlook, hs₁, hpage₁⟩ := h.run_tableFind hb fuel op.key.toNat
  unfold insertRow at hrun
  rw [run_bind, hfind] at hrun
  have hsame : s'.Wf ∧ s'.page = s.page := by
    cases hlook with
    | deep => cases hrun
    | leaf _ hq hleaf hcells =>
      rw [← hpage₁] at hleaf hcells hrun ⊢
      exact hs₁.leafNodeInsert_outOfRange hq hleaf hcells op.key.toNat_lt (hn _ s₁ hfind) hrun
  exact ⟨fun p _ => congrFun hsame.2 p, fun _ _ _ => h.locates hsame.1 hsame.2 hb⟩

end Pager

/-! ## A page left -/

namespace Mem

open Page

variable {m : Mem} {q fuel key : ℕ}

/-- In flat memory nothing moves when a page that is counted is got. -/
theorem readable (hm : m.Tight) (hT : m.numPages ≤ filePagesNum) :
    Readable (handler (fun _ => True) OfFile) (· = m) m.numPages m.page := by
  intro s p hs hp
  rw [hs]
  refine ⟨p, m, ?_, rfl, fun l hl => handler_load ⟨hl, fun _ _ _ => trivial⟩⟩
  simp only [handler, if_pos (show OfFile p from hp.trans_le hT), hm.touch_of_lt hp]

/-- After the work on the leaf, its upper half is gone. -/
theorem aside_halves {c new : ℕ} {x : ℕ × Bytes rowSize} {l l' r : Page} (hm : m.Tight)
    (hq : q < m.numPages)
    (hq0 : q ≠ rootPageNum) (hparent : ∀ p < filePagesNum, (m.page p).parent ≠ q)
    (hlt : q < filePagesNum)
    (hh : Halves (m.page q) new c x l r) (hl : l'.SameHeader l []) :
    Aside q ((m.alloc.set q l').set m.numPages r) := by
  have hne : q ≠ m.numPages := hq.ne
  refine ⟨hq0, ?_, ?_, fun p hp => ?_⟩
  · show q < m.alloc.numPages
    rw [hm.numPages_alloc]
    omega
  · rw [page_set_ne _ _ hne, page_set_self, hl.numCells (by simp)]
    exact hh.numCells
  · rw [page_set, Function.update_apply]
    split
    · rw [hh.newParent]
      exact hparent q hlt
    · rw [page_set, Function.update_apply]
      split
      · rw [hl.parent (by simp), hh.header.parent (by simp)]
        exact hparent q hlt
      · rw [page_alloc]
        exact hparent p hp

/-- **With a page for the upper half** a full leaf has lost it when the pages run out. -/
theorem wp_leafNodeInsert_halved {c : ℕ} {e : Bool} {row : Row} (hm : m.Tight) (hq : q < m.numPages)
    (hn : m.numPages < filePagesNum) (hleaf : (m.page q).isLeaf = true)
    (hfull : (m.page q).numCells = leafNodeMaxCells)
    (hroot : (m.page rootPageNum).isRoot = true)
    (hparent : q ≠ rootPageNum → ∀ p < filePagesNum, (m.page p).parent ≠ q)
    (hc : c ≤ 15) (hkey : key < 2 ^ 32) :
    wp (handler (fun _ => True) OfFile) (leafNodeInsert fuel ⟨q, c, e⟩ key row) (fun _ _ => True)
      (fun f m' => (∃ what, f = .outOfRange what) → (m'.page q).numCells =
        leafNodeLeftSplitCount) m := by
  have hT : ∀ n, OfFile n → n < filePagesNum := fun _ => id
  have hqn : q ≠ m.numPages := hq.ne
  -- what goes on above the leaf keeps its count, whether it faults or not
  have haside : ∀ {α : Type} {f : Prog ℕ α} {m' : Mem},
      wp (handler (fun _ => True) OfFile) f (fun _ _ => True) (fun _ => Aside q) m' →
      wp (handler (fun _ => True) OfFile) f (fun _ _ => True)
        (fun f m' => (∃ what, f = .outOfRange what) → (m'.page q).numCells =
          leafNodeLeftSplitCount) m' :=
    fun hf => wp_mono hf (fun _ _ => id) fun _ _ h _ => h.numCells
  refine wp_leafNodeInsert_full hm hq (hq.trans hn) (hn.trans (by decide)) hleaf hfull hc hkey
    (fun hout => absurd hn hout)
    (fun _ _ l r hh => ?_) fun _ hinner l r hh => ?_
  · by_cases hq0 : q = rootPageNum
    · -- the leaf is the root: there may be no page for its copy
      subst hq0
      have ht : ((m.alloc.set rootPageNum l).set m.numPages r).Tight := hm.alloc
      have hnum : ((m.alloc.set rootPageNum l).set m.numPages r).numPages = m.numPages + 1 :=
        hm.numPages_alloc
      have hpage : ((m.alloc.set rootPageNum l).set m.numPages r).page rootPageNum = l := by
        rw [page_set_ne _ _ hqn, page_set_self]
      have hcells : l.numCells ≤ 15 := by rw [hh.numCells]; decide
      have hl : l.isLeaf = true := (hh.header.isLeaf (by simp)).trans hleaf
      have hT0 : OfFile rootPageNum ∧ OfFile m.numPages := ⟨hq.trans hn, hn⟩
      generalize (m.alloc.set rootPageNum l).set m.numPages r = m₂ at ht hnum hpage
      by_cases hleft : OfFile m₂.numPages
      · refine wp_createNewRoot_leaf ht (by omega) (by omega) hqn.symm hT0 (hpage ▸ hl)
          (hpage ▸ hcells)
          trivial (fun _ e m' => ?_) (fun hout => absurd hleft hout) fun _ => trivial
        rintro ⟨what, hwhat⟩
        cases hwhat
      · unfold createNewRoot
        rw [wp_bind, wp_getPage hT0.1, wp_bind, wp_getPage hT0.2,
          ht.touch_of_lt (show rootPageNum < _ by omega),
          ht.touch_of_lt (by omega), wp_bind, wp_getUnusedPage, wp_bind, wp_getPage_of_not hleft]
        intro _
        rw [hpage]
        exact hh.numCells
    · refine haside
        (wp_mono (Keeps.createNewRoot hT hqn.symm _ ?_) (fun _ _ _ => trivial) fun _ _ => id)
      exact aside_halves hm hq hq0 (hparent hq0) (hq.trans hn) hh (.refl _ _)
  -- the leaf is below the root: the insertion above it may run out of pages
  · have hq0 : q ≠ rootPageNum := by
      rintro rfl
      rw [hroot] at hinner
      cases hinner
    refine haside (wp_mono (Keeps.internalNodeInsert hT fuel _ _ (hparent hq0 q (hq.trans hn)) _ ?_)
      (fun _ _ _ => trivial) fun _ _ => id)
    exact aside_halves hm hq hq0 (hparent hq0) (hq.trans hn) hh (.stray _ _)

end Mem

namespace Pager

variable {s s' : Pager} {fuel : ℕ} {op : Insertion} {what : String}

/-- What a run of the insertion leaves of the pages is what it leaves of them in flat memory. -/
theorem OneSession.run_flat (h : s.OneSession) (hs : s.Wf)
    (hrun : (insertRow fuel op).run handler s = (.error (.outOfRange what), s')) :
    ∃ m', (insertRow fuel op).run (Mem.handler (fun _ => True) OfFile) s.flat =
      (.error (.outOfRange what), m') ∧
      ∀ p < filePagesNum, s'.page p = m'.page p := by
  have hcounted : s.Counted := ⟨hs, h.counted⟩
  obtain ⟨m₀, hsim, hm₀⟩ := hcounted.flat.sim (T := OfFile) s.flat_tight
  obtain ⟨r, s₁, m₁, hrun₁, hflat, hsim₁⟩ := hsim.run_large (K := fun _ => True) h.large fun _ =>
    match_insertRow fuel op
  rw [strict_true, hrun] at hrun₁
  obtain ⟨rfl, rfl⟩ := Prod.mk.inj hrun₁
  obtain ⟨hres, hstate⟩ := Mem.counted_run (K := fun _ => True) (T := OfFile) (insertRow fuel op) m₀
  rw [hflat, hm₀] at hres hstate
  refine ⟨m₁.counted, ?_, hsim₁.page⟩
  rw [← Prod.mk.eta (p := (insertRow fuel op).run _ s.flat), ← hres, ← hstate]

/-- **With a page for the upper half**, the leaf has lost it. -/
theorem OneSession.changed (h : s.OneSession) (hs : s.Wf) (hn : s.numPages < filePagesNum)
    (hrun : (insertRow fuel op).run handler s = (.error (.outOfRange what), s')) :
    ∃ p, s.Reachable p ∧ s'.page p ≠ s.page p := by
  obtain ⟨m', hflat, hpage⟩ := h.run_flat hs hrun
  have hm : s.flat.Tight := s.flat_tight
  obtain ⟨r, hlook, hends⟩ := h.tree.run_tableFind (Mem.readable hm hn.le) hn.le fuel op.key.toNat
  obtain ⟨m₁, hfind, rfl⟩ := hends s.flat rfl
  unfold insertRow at hflat
  rw [run_bind, hfind] at hflat
  cases hlook with
  | deep => cases hflat
  | @leaf q hpath hq hleaf hcells =>
    have hc := Page.findCell_le (s.page q) op.key.toNat
    have hcursor : makeCursor q ((s.flat.page q).findCell op.key.toNat) =
        ⟨q, (s.page q).findCell op.key.toNat, false⟩ := rfl
    simp only [hcursor] at hflat
    generalize (s.page q).findCell op.key.toNat = c at hc hflat
    -- with room nothing faults; a full leaf is halved before the fault
    rcases hcells.lt_or_eq with hroom | hfull
    · have hwp :
          wp (Mem.handler (fun _ => True) OfFile)
            (leafNodeInsert fuel ⟨q, c, false⟩ op.key.toNat op.row) (fun _ _ => True)
          (fun _ _ => False) s.flat :=
        Mem.wp_leafNodeInsert_room (hq.trans hn) hroom hc op.key.toNat_lt fun _ _ => trivial
      exact (wp_error hwp hflat).elim
    · have hwp :
          wp (Mem.handler (fun _ => True) OfFile)
            (leafNodeInsert fuel ⟨q, c, false⟩ op.key.toNat op.row) (fun _ _ => True)
          (fun f m' => (∃ what, f = .outOfRange what) → (m'.page q).numCells =
            leafNodeLeftSplitCount) s.flat :=
        Mem.wp_leafNodeInsert_halved hm hq hn hleaf hfull h.isRoot (fun hq0 => h.parent q hq0 hleaf)
          (hc.trans hfull.le)
          op.key.toNat_lt
      have hhalf := wp_error hwp hflat ⟨what, rfl⟩
      refine ⟨q, hpath, fun heq => ?_⟩
      rw [← hpage q (hq.trans hn), heq] at hhalf
      rw [show (s.flat.page q).numCells = (s.page q).numCells from rfl, hhalf] at hfull
      exact absurd hfull (by decide)

/-- **Running out of pages** changes nothing if there was no page for the upper half of the leaf,
and otherwise, in a table whose cache takes all pages, it has changed a page. -/
theorem unchanged_iff (hs : s.Wf) (hb : BTree s.page filePagesNum rootPageNum)
    (hrun : (insertRow fuel op).run handler s = (.error (.outOfRange what), s')) :
    (s.NoPageLeft fuel op.key.toNat → s.Unchanged s') ∧
      (s.OneSession → (s.Unchanged s' ↔ filePagesNum ≤ s.numPages)) := by
  refine ⟨fun hn => unchanged hs hb hn hrun, fun h => ⟨fun hsame => ?_, fun hn => ?_⟩⟩
  · by_contra hn
    obtain ⟨p, hp, hne⟩ := h.changed hs (not_le.1 hn) hrun
    exact hne (hsame.page p hp)
  · refine unchanged hs hb (fun cursor s₁ hfind => hn.trans ?_) hrun
    have hle := hs.numPages_le (tableFind fuel op.key.toNat)
    rwa [hfind] at hle

end Pager

/-- A root leaf with the keys 0 to 14. -/
def fullLeaf : Page :=
  (List.range leafNodeMaxCells).foldl (fun pg i => pg.store (.leafKey i) i)
    (((Page.initLeaf (Bytes.zero pageSize)).store .isRoot 1).store .numCells leafNodeMaxCells)

/-- A file with this leaf, and a counter. -/
def fullTable (n : ℕ) : Pager := { stored [fullLeaf] with numPages := n }

theorem fullTable_page (n p : ℕ) : (fullTable n).page p = if p = 0 then
    fullLeaf else Bytes.zero pageSize := stored_page fullLeaf p

theorem fullTable_wf (n : ℕ) : (fullTable n).Wf := by
  have h := (stored_counted [fullLeaf]).wf
  exact ⟨h.toCached.congr rfl rfl fun _ => rfl, h.file⟩

theorem fullLeaf_spec : fullLeaf.isLeaf = true ∧ fullLeaf.numCells = leafNodeMaxCells ∧
    fullLeaf.isRoot = true ∧ fullLeaf.parent = 0 ∧
    (Page.parent (Bytes.zero pageSize) = 0 ∧ Page.isLeaf (Bytes.zero pageSize) = false) := by
  decide +kernel

theorem fullTable_bTree {n k : ℕ} (hk : 0 < k) : BTree (fullTable n).page k rootPageNum := by
  have hroot : (fullTable n).page rootPageNum = fullLeaf := (fullTable_page n _).trans (if_pos rfl)
  refine .leaf hk ?_ ?_
  · rw [hroot]
    exact fullLeaf_spec.1
  · rw [hroot]
    exact fullLeaf_spec.2.1.le

theorem fullTable_oneSession {n : ℕ} (hn : 0 < n) : (fullTable n).OneSession := by
  have hroot : (fullTable n).page rootPageNum = fullLeaf := (fullTable_page n _).trans (if_pos rfl)
  refine ⟨le_rfl, fun p a ha => ?_, fullTable_bTree hn, ?_, fun p hp hl => ?_⟩
  · have hnone : (fullTable n).cache.pageMap.lookup p = none := AList.lookup_empty p
    rw [hnone] at ha
    cases ha
  · rw [hroot]
    exact fullLeaf_spec.2.2.1
  · rw [fullTable_page, if_neg (show ¬ p = 0 from hp), fullLeaf_spec.2.2.2.2.2] at hl
    cases hl

/-- The insertion of the key 20. -/
def outOfPages (n : ℕ) : Except Fault Unit × Pager :=
  (insertRow 0 (plain 20)).run Pager.handler (fullTable n)

/-- In a file without pages left the insertion ends in `out_of_range`. -/
theorem outOfPages_run {n : ℕ}
    (h : faultOf (outOfPages n).1 = some (.outOfRange "Page number exceeding")) :
    (insertRow 0 (plain 20)).run Pager.handler (fullTable n) =
      (.error (.outOfRange "Page number exceeding"), (outOfPages n).2) := by
  obtain ⟨s', hrun⟩ := run_of_fault h
  rw [outOfPages, hrun]

/-- Without a page nothing changes, and with one page the leaf is halved. -/
theorem unchanged_iff_fullTable :
    (fullTable filePagesNum).Unchanged (outOfPages filePagesNum).2 ∧
      ¬ (fullTable (filePagesNum - 1)).Unchanged (outOfPages (filePagesNum - 1)).2 := by
  have hiff : ∀ {n : ℕ}, 0 < n → faultOf (outOfPages n).1 =
      some (.outOfRange "Page number exceeding") →
      ((fullTable n).Unchanged (outOfPages n).2 ↔ filePagesNum ≤ n) := fun hn h =>
    (Pager.unchanged_iff (fullTable_wf _) (fullTable_bTree (by decide)) (outOfPages_run h)).2
      (fullTable_oneSession hn)
  refine ⟨(hiff (by decide) (by decide +kernel)).2 le_rfl, fun h => ?_⟩
  exact absurd ((hiff (by decide) (by decide +kernel)).1 h) (by decide)

/-- **One page left**: the root leaf has lost its upper half. -/
theorem not_unchanged : (fullTable (filePagesNum - 1)).Wf ∧
    BTree (fullTable (filePagesNum - 1)).page filePagesNum rootPageNum ∧
    ∃ s' what, (insertRow 0 (plain 20)).run Pager.handler (fullTable (filePagesNum - 1)) =
      (.error (.outOfRange what), s') ∧
      ¬ (fullTable (filePagesNum - 1)).Unchanged s' := by
  refine ⟨fullTable_wf _, fullTable_bTree (by decide), _, _, outOfPages_run (by decide +kernel),
    fun h => ?_⟩
  have hpage := congrArg Page.numCells (h.page rootPageNum .refl)
  revert hpage
  decide +kernel

end ToySQL
