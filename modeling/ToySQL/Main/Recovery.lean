import ToySQL.Main.Crash
import ToySQL.Main.LeafInsert
import ToySQL.Main.OutOfPages

/-!
# The rows a killed process leaves

* `killed_rows`: in a session whose insertions find room, what is left has all the rows that the
  file had when it was opened or first flushed, and no other rows than were inserted. Its inner
  nodes are the same.
-/

namespace ToySQL

open Program

variable {fuel key : ℕ} {page : ℕ → Page} {s t : Pager} {p q : ℕ}

/-! ## Where a lookup ends -/

/-- The pager is in order and has the pages. -/
def HasPages (page : ℕ → Page) (t : Pager) : Prop := t.Wf ∧ t.page = page

/-- A read changes no page. -/
theorem IsRead.step (o : PagerOp Addr) (t : Pager) (ho : IsRead o) (ht : HasPages page t) :
    HasPages page (Pager.handler o t).2 := by
  cases o with
  | getPage n =>
    by_cases hn : n < filePagesNum
    · obtain ⟨a, t', hget, hgot⟩ := ht.1.getPage_spec hn
      simp only [Pager.handler, hget]
      exact ⟨hgot.wf, hgot.page.trans ht.2⟩
    · simp only [Pager.handler, Pager.getPage_of_ge (not_lt.1 hn)]
      exact ht
  | load a l =>
    simp only [Pager.handler]
    split_ifs
    · exact ht
    · exact ht
  | getUnusedPage | store | memcpy | fill => exact ho.elim

/-- Whatever reading code comes to, the pages are the same. -/
theorem wp_reads {α : Type} {f : Prog Addr α} (hf : Only IsRead f) (ht : HasPages page t) :
    wp Pager.handler f (fun _ => HasPages page) (fun _ _ => True) t :=
  hf.wp IsRead.step (fun _ _ h => h) (fun _ _ _ => trivial) ht

/-- The cursor is on a leaf, and behind its cells at most. -/
structure OnLeaf (page : ℕ → Page) (cursor : Cursor) : Prop where
  lt : cursor.pageNum < filePagesNum
  isLeaf : (page cursor.pageNum).isLeaf = true
  cell : (page cursor.pageNum).numCells ≤ leafNodeMaxCells →
    cursor.cellNum ≤ (page cursor.pageNum).numCells

/-- What a lookup comes to, if it does not fault. -/
abbrev EndsOnLeaf (page : ℕ → Page) (f : Prog Addr Cursor) (t : Pager) : Prop :=
  wp Pager.handler f (fun cursor u => HasPages page u ∧ OnLeaf page cursor) (fun _ _ => True) t

theorem wp_getPage_data {α : Type} {f : Addr → Prog Addr α} {Q : α → Pager → Prop}
    (ht : HasPages page t) (q : ℕ)
    (hf : q < filePagesNum → ∀ a u, HasPages page u → (u.heap.entry a).data = page q →
      wp Pager.handler (f a) Q (fun _ _ => True) u) :
    wp Pager.handler (getPage q >>= f) Q (fun _ _ => True) t := by
  rw [wp_bind]
  by_cases hq : q < filePagesNum
  · apply Pager.wp_getPage ht.1 hq
    intro a u hgot
    apply hf hq a u ⟨hgot.wf, hgot.page.trans ht.2⟩
    rw [hgot.data, ht.2]
  · exact Pager.wp_getPage_of_ge (not_lt.1 hq) trivial

/-- After code that only reads the pages are as before. -/
theorem wp_reads_then {α β : Type} {f : Prog Addr α} {g : α → Prog Addr β} {Q : β → Pager → Prop}
    (hf : Only IsRead f)
    (ht : HasPages page t)
    (hg : ∀ x u, HasPages page u → wp Pager.handler (g x) Q (fun _ _ => True) u) :
    wp Pager.handler (f >>= g) Q (fun _ _ => True) t := by
  rw [wp_bind]
  exact wp_mono (wp_reads hf ht) hg fun _ _ _ => trivial

/-- The branch that is taken for the type of a node. -/
theorem wp_getNodeType_data {α : Type} {a : Addr} {g : NodeType → Prog Addr α}
    {Q : α → Pager → Prop}
    (hdata : (t.heap.entry a).data = page q)
    (hg : wp Pager.handler (g (page q).type) Q (fun _ _ => True) t) :
    wp Pager.handler (getNodeType a >>= g) Q (fun _ _ => True) t := by
  unfold getNodeType
  rw [wp_bind, wp_bind, Pager.wp_load (by decide), hdata]
  exact hg

theorem endsOnLeaf_leafNodeFind (ht : HasPages page t) (hleaf : (page q).isLeaf = true) :
    EndsOnLeaf page (leafNodeFind q key) t := by
  by_cases hn : q < filePagesNum ∧ (page q).numCells ≤ leafNodeMaxCells
  · have hends : EndsIn Pager.handler (HasPages page) (leafNodeFind q key)
        (.ok (makeCursor q ((page q).findCell key))) :=
      (Pager.readable page).leafNodeFind hn.1 hn.2
    obtain ⟨u, hrun, hu⟩ := hends t ht
    unfold EndsOnLeaf wp
    rw [hrun]
    exact ⟨hu, hn.1, hleaf, fun _ => Page.findCell_le _ _⟩
  · unfold leafNodeFind
    apply wp_getPage_data ht
    intro hq a u hu hdata
    have hmany : ¬ (page q).numCells ≤ leafNodeMaxCells := fun h => hn ⟨hq, h⟩
    -- the page is broken; all that is known of the cursor is its page
    have hcursor : ∀ n, OnLeaf page (makeCursor q n) :=
      fun n => ⟨hq, hleaf, fun h => absurd h hmany⟩
    rw [wp_bind, Pager.wp_load (by decide)]
    split
    · exact ⟨hu, hcursor 0⟩
    · apply wp_reads_then (latest_leafNodeFindLoop (p := q) key _ _ _ _).reads hu
      intro n v hv
      exact ⟨hv, hcursor n⟩

/-- One level of the descent ends on a leaf if the levels below do. -/
theorem endsOnLeaf_internalNodeFindStep {next : ℕ → Prog Addr Cursor}
    (hnext : ∀ q t, HasPages page t → EndsOnLeaf page (next q) t)
    (ht : HasPages page t) (p : ℕ) : EndsOnLeaf page (internalNodeFindStep next p key) t := by
  unfold internalNodeFindStep
  apply wp_getPage_data ht
  intro _ a u hu _
  apply wp_reads_then (latest_internalNodeFindChild (p := p) key).reads hu
  intro index u₁ hu₁
  apply wp_reads_then (latest_internalNodeChild (p := p) index).reads hu₁
  intro l u₂ hu₂
  apply wp_reads_then (latest_load (p := p) l).reads hu₂
  intro childNum u₃ hu₃
  apply wp_getPage_data hu₃
  intro _ b u₄ hu₄ hdata
  apply wp_getNodeType_data hdata
  -- any page may be named as the child, but the search ends on a leaf only
  rcases htype : (page childNum).type with _ | _ | v
  · exact hnext childNum _ hu₄
  · exact endsOnLeaf_leafNodeFind hu₄ (decide_eq_true htype)
  · trivial

/-- The descent ends on a leaf. By induction on the bound. -/
theorem endsOnLeaf_internalNodeFind :
    ∀ fuel p t, HasPages page t → EndsOnLeaf page (internalNodeFind fuel p key) t := by
  intro fuel
  induction fuel with
  | zero =>
    intro p t ht
    have hdeep : ∀ (_ : ℕ) t, HasPages page t → EndsOnLeaf page (fault .noReturn) t :=
      fun _ _ _ => trivial
    exact endsOnLeaf_internalNodeFindStep hdeep ht p
  | succ fuel ih => exact fun p t ht => endsOnLeaf_internalNodeFindStep ih ht p

/-- **A lookup** ends on a leaf, whatever the file has. -/
theorem endsOnLeaf_tableFind (ht : HasPages page t) : EndsOnLeaf page (tableFind fuel key) t := by
  unfold tableFind
  apply wp_getPage_data ht
  intro _ a u hu hdata
  apply wp_getNodeType_data hdata
  rcases htype : (page rootPageNum).type with _ | _ | v
  · exact endsOnLeaf_internalNodeFind fuel rootPageNum _ hu
  · exact endsOnLeaf_leafNodeFind hu (decide_eq_true htype)
  · trivial

/-! ## What a session does to a page -/

namespace Page.Gains

variable {a b c : Page}

theorem refl (a : Page) : a.Gains a := ⟨fun h => ⟨h, List.Sublist.refl _⟩, fun _ => rfl⟩

theorem trans (h : a.Gains b) (h' : b.Gains c) : a.Gains c := by
  constructor
  · intro ha
    obtain ⟨hb, hab⟩ := h.leaf ha
    obtain ⟨hc, hbc⟩ := h'.leaf hb
    exact ⟨hc, hab.trans hbc⟩
  · intro ha
    obtain rfl := h.other ha
    exact h'.other ha

/-- An insertion adds a row and drops none. -/
theorem inserted {i : ℕ} {x : ℕ × Bytes rowSize} (h : Mem.Inserted a i x b) (ha : a.isLeaf = true) :
    a.Gains b := by
  refine ⟨fun _ => ⟨(h.header.isLeaf (by simp)).trans ha, ?_⟩, fun hother => ?_⟩
  · rw [h.rows]
    exact List.sublist_insertIdx a.rows i x
  · rw [ha] at hother
    cases hother

end Page.Gains

/-- An insertion with room adds to one leaf. -/
theorem gains_insertRow {op : Insertion} (h : s.Wf) (hroom : s.HasRoom fuel (.insert op))
    (hp : p < filePagesNum) :
    (s.page p).Gains (((insertRow fuel op).run Pager.handler s).2.page p) := by
  have hfind : EndsOnLeaf s.page (tableFind fuel op.key.toNat) s := endsOnLeaf_tableFind ⟨h, rfl⟩
  have hkept := (latest_tableFind fuel op.key.toNat (w := none)).moments h _ (run_mem_moments _ s)
  unfold insertRow
  rw [run_bind]
  rcases hrun : (tableFind fuel op.key.toNat).run Pager.handler s with ⟨e | cursor, t⟩
  · -- the lookup faults, and has changed no page
    rw [hrun] at hkept
    rw [hkept.page]
    exact .refl _
  · obtain ⟨ht, hleaf⟩ := wp_ok hfind hrun
    have hcells : (s.page cursor.pageNum).numCells < leafNodeMaxCells := by
      rw [← ht.2]
      apply hroom
      unfold Pager.cellsFor
      rw [hrun]
      rfl
    obtain ⟨q, i, e⟩ := cursor
    have hpage := ht.2
    obtain ⟨t', a, hinsert, -, ha, hpages⟩ :
        ∃ t' a, (leafNodeInsert fuel ⟨q, i, e⟩ op.key.toNat op.row).run Pager.handler t =
        (.ok (), t') ∧ t'.Wf ∧ Mem.Inserted (t.page q) i (op.key.toNat, op.row.serialize) a ∧
          ∀ p < filePagesNum, t'.page p = Function.update t.page q a p := by
      apply ht.1.leafNodeInsert_room hleaf.lt
      · rw [hpage]
        exact hcells
      · rw [hpage]
        exact hleaf.cell hcells.le
      · exact op.key.toNat_lt
    rw [hpage] at ha hpages
    simp only [hinsert]
    rw [hpages p hp]
    -- only the leaf of the lookup is written
    by_cases hpq : p = q
    · rw [hpq, Function.update_self]
      exact .inserted ha hleaf.isLeaf
    · rw [Function.update_of_ne hpq]
      exact .refl _

/-- A request drops no row of a page. -/
theorem gains_work {w : Work} (h : s.Wf) (hroom : s.FindsRoom fuel w) (hw : w ≠ .newTable)
    (hp : p < filePagesNum) :
    (s.page p).Gains ((s.work fuel w).page p) := by
  have hsame : ∀ {t : Pager}, t.page = s.page → (s.page p).Gains (t.page p) := by
    intro t ht
    rw [ht]
    exact .refl _
  cases w with
  | newTable => exact absurd rfl hw
  | insert op => exact gains_insertRow h hroom hp
  | find key => exact hsame (moments_find h key _ (work_mem_moments s fuel (.find key))).page
  | scan steps => exact hsame (moments_scan h steps _ (work_mem_moments s fuel (.scan steps))).page
  | flushAll => exact hsame h.sound.flushAll.2

/-- A list of requests drops no row of a page. By induction on the list. -/
theorem gains_works {ws : List Work} (h : s.Wf) (hroom : Pager.FindRoom fuel ws s)
    (hnew : .newTable ∉ ws) (hp : p < filePagesNum) :
    (s.page p).Gains ((s.works fuel ws).page p) := by
  induction ws generalizing s with
  | nil => exact .refl _
  | cons w ws ih =>
    have hw : w ≠ .newTable := fun hw => hnew (hw ▸ List.mem_cons_self)
    apply (gains_work h hroom.1 hw hp).trans
    exact ih (h.work fuel w) hroom.2 fun hmem => hnew (List.mem_cons_of_mem w hmem)

/-- **The rows a killed process leaves.** From when the file is opened, or flushed for the first
time, its leaves only get rows, and never a row that was not inserted; the inner nodes stay. -/
theorem killed_rows (file : File)
    (hfile : u32 file.size = 0 ∨ filePagesNum * pageSize ≤ file.size) (c : ℕ)
    (uninit : Addr → Page) (fuel : ℕ) (first rest : List Work) (w : Work)
    (hfirst : first = [] ∨ ∃ pre, first = pre ++ [.flushAll] ∧ .flushAll ∉ pre)
    (hnew : .newTable ∉ rest)
    (hroom : Pager.FindRoom fuel ((first ++ rest) ++ [w]) (Pager.init file c uninit)) :
    ∀ t ∈ ((Pager.init file c uninit).works fuel (first ++ rest)).moments fuel w,
      ∀ p < filePagesNum,
      (((Pager.init file c uninit).works fuel first).page p).Gains (t.file.page p) ∧
        (t.file.page p).Gains (((Pager.init file c uninit).works fuel (first ++ rest)).page p) := by
  intro t ht p hp
  have hdirty := allDirty_init hfile c uninit
  obtain ⟨i, hi, hversion, hflushed⟩ := hdirty.killed Pager.init_file_page hroom ht p
  -- the page in the file is from the time after `first`
  have hle : first.length ≤ i := by
    rcases hfirst with rfl | ⟨pre, rfl, hpre⟩
    · exact Nat.zero_le i
    · rw [List.length_append, List.length_singleton]
      apply hflushed pre rest _ hpre
      rw [List.append_assoc]
      rfl
  have htake : (first ++ rest).take i = first ++ rest.take (i - first.length) := by
    rw [List.take_append, List.take_of_length_le hle]
  have hworks : ∀ ws ws', (Pager.init file c uninit).works fuel (ws ++ ws') =
      ((Pager.init file c uninit).works fuel ws).works fuel ws' :=
    fun _ _ => List.foldl_append
  -- the works after the start, cut where the page was as it is in the file
  obtain ⟨j, hj⟩ : ∃ j, j = i - first.length := ⟨_, rfl⟩
  rw [htake, ← hj] at hversion
  have hcut : rest.take j ++ rest.drop j = rest := List.take_append_drop j rest
  obtain ⟨-, hrest⟩ := findRoom_append.1 (findRoom_append.1 hroom).1
  rw [← hcut, findRoom_append] at hrest
  have hwf : ((Pager.init file c uninit).works fuel first).Wf := hdirty.toWf.works first
  rw [hversion]
  constructor
  · rw [hworks]
    exact gains_works hwf hrest.1 (fun hmem => hnew (List.mem_of_mem_take hmem)) hp
  · have hend : (Pager.init file c uninit).works fuel (first ++ rest) =
        ((Pager.init file c uninit).works fuel (first ++ rest.take j)).works fuel
        (rest.drop j) := by
      rw [← hworks, List.append_assoc, hcut]
    rw [hend]
    apply gains_works (hdirty.toWf.works _) _ (fun hmem => hnew (List.mem_of_mem_drop hmem)) hp
    rw [hworks]
    exact hrest.2

/-- One row that is flushed. -/
def flushedRow : List Work := [.newTable, .insert (plain 1), .flushAll]

/-- Another row, and a lookup. -/
def laterRow : List Work := [.insert (plain 2), .find 1]

/-- The process is killed while it inserts a third row. -/
theorem killed_rows_three :
    Pager.FindRoom 1 ((flushedRow ++ laterRow) ++ [.insert (plain 3)])
      (Pager.init File.empty 1 fun _ => Bytes.zero pageSize) ∧
      ∀ t ∈ ((Pager.init File.empty 1 fun _ => Bytes.zero pageSize).works 1
        (flushedRow ++ laterRow)).moments 1 (.insert (plain 3)),
        ∀ p < filePagesNum,
          (((Pager.init File.empty 1 fun _ => Bytes.zero pageSize).works 1 flushedRow).page p).Gains
            (t.file.page p) ∧
            (t.file.page p).Gains
              (((Pager.init File.empty 1 fun _ => Bytes.zero pageSize).works 1
                (flushedRow ++ laterRow)).page p) := by
  have hroom : Pager.FindRoom 1 ((flushedRow ++ laterRow) ++ [.insert (plain 3)])
      (Pager.init File.empty 1 fun _ => Bytes.zero pageSize) := by
    rw [Pager.init_eq_new]
    decide +kernel
  have hfirst : flushedRow = [] ∨ ∃ pre, flushedRow = pre ++ [.flushAll] ∧ .flushAll ∉ pre :=
    Or.inr ⟨[.newTable, .insert (plain 1)], rfl, by decide⟩
  exact ⟨hroom, killed_rows File.empty (Or.inl rfl) 1 (fun _ => Bytes.zero pageSize) 1 flushedRow
    laterRow (.insert (plain 3)) hfirst
    (by decide) hroom⟩

end ToySQL
