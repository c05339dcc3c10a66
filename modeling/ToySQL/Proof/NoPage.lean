import ToySQL.Proof.Counted
import ToySQL.Proof.Nodes

/-!
# No page left

What the code does on a pager whose pages are all in use, where the flat memory says
nothing: the allocation of a page ends the operation in `std::out_of_range`.

* `Crowded`: one page is left at most. Every operation keeps it.
* `wp_leafNodeInsert_outOfRange`, `wp_leafNodeSplitAndInsert_noPage`, `wp_split_noPage`: without
  the pages it needs, no node is split.
-/

namespace ToySQL

open Program

namespace Pager

variable {s s' s'' : Pager} {p : ℕ} {a : Addr} {F : Fault → Pager → Prop}

/-- The pager has the same pages, and the pointers into it are still good. -/
structure Same (s s' : Pager) : Prop where
  wf : s'.Wf
  page : s'.page = s.page
  entry : ∀ a < s.heap.length, s'.heap.entry a = s.heap.entry a

/-- Getting a page of the file changes no page. -/
theorem Wf.Got.same (hg : Wf.Got s p a s') : Same s s' := by
  refine ⟨hg.wf, hg.page, fun b hb => ?_⟩
  rcases hg.heap with hh | hh
  · rw [hh]
  · rw [hh]
    exact Heap.entry_append _ hb

/-- The entry that is given back holds the page. -/
theorem Wf.Got.data (h : Wf.Got s p a s') : (s'.heap.entry a).data = s.page p := by
  rw [← h.page, page_of_lookup h.found]

/-- The entry that is given back is on the heap. -/
theorem Wf.Got.lt (h : Wf.Got s p a s') : a < s'.heap.length :=
  (h.wf.lt a ((h.wf.lookup p a).1 h.found).1).1

/-! ## Weakest preconditions -/

theorem wp_getPage {Q : Addr → Pager → Prop} (h : s.Wf) (hp : p < filePagesNum)
    (hQ : ∀ a s', Wf.Got s p a s' → Q a s') : Program.wp handler (ToySQL.getPage p) Q F s := by
  obtain ⟨a, s', hget, hgot⟩ := h.getPage_spec hp
  refine wp_perform.2 ?_
  rw [show handler (.getPage p) s = (.ok a, s') from hget]
  exact hQ a s' hgot

theorem wp_getPage_of_ge {Q : Addr → Pager → Prop} (hp : filePagesNum ≤ p)
    (hF : F (.outOfRange "Page number exceeding") s) :
    Program.wp handler (ToySQL.getPage p) Q F s := by
  refine wp_perform.2 ?_
  rw [show handler (.getPage p) s = _ from getPage_of_ge hp s]
  exact hF

theorem wp_getUnusedPage {Q : ℕ → Pager → Prop} :
    Program.wp handler (ToySQL.getUnusedPage : Prog Addr ℕ) Q F s ↔
    Q s.numPages s := Iff.rfl

theorem wp_load {Q : ℕ → Pager → Prop} {l : Loc} (hl : l.offset + l.width ≤ pageSize) :
    Program.wp handler (load a l) Q F s ↔ Q ((s.heap.entry a).data.load l) s := by
  refine wp_perform.trans ?_
  rw [show handler (.load a l) s = (.ok ((s.heap.entry a).data.load l), s) from if_pos hl]

theorem wp_isNodeRoot {Q : Bool → Pager → Prop} :
    Program.wp handler (isNodeRoot a) Q F s ↔ Q (s.heap.entry a).data.isRoot s := by
  unfold isNodeRoot
  rw [wp_bind, wp_load (by decide)]
  rfl

/-- One step of `get_node_max_key`, by the kind of the node. -/
theorem wp_getNodeMaxKeyStep {Q : ℕ → Pager → Prop} {next : Addr → Prog Addr ℕ} {d : Page}
    (hd : (s.heap.entry a).data = d) :
    Program.wp handler (getNodeMaxKeyStep next a) Q F s ↔
      if d.isLeaf then
        if d.numCells = 0 then
          Q 0 s else Program.wp handler (load a (.leafKey (d.numCells - 1))) Q F s
      else
        if d.numKeys = 0 then Program.wp handler (do next (← ToySQL.getPage d.rightChild)) Q F s
        else Program.wp handler (load a (.internalKey (d.numKeys - 1))) Q F s := by
  have hheader : ∀ {l : Loc} {R : ℕ → Pager → Prop}, l.Header →
      (Program.wp handler (load a l) R F s ↔ R (d.load l) s) := by
    intro l R hl
    rw [wp_load (le_trans hl.end_le (by decide)), hd]
  unfold getNodeMaxKeyStep getNodeType
  simp only [wp_bind, hheader .nodeType, pure_eq, wp_ret]
  by_cases hl : d.isLeaf = true
  · have ht : d.type = .leaf := of_decide_eq_true hl
    rw [if_pos (show NodeType.ofByte (d.load .nodeType) = .leaf from ht), if_pos hl, wp_bind,
      hheader .numCells, wp_ite]
    exact Iff.rfl
  · have ht : ¬ d.type = .leaf := fun he => hl (decide_eq_true he)
    rw [if_neg (show ¬ NodeType.ofByte (d.load .nodeType) = .leaf from ht), if_neg hl, wp_bind,
      hheader .numKeys, wp_ite]
    simp only [wp_bind, hheader .rightChild]
    exact Iff.rfl

theorem wp_getNodeMaxKey {Q : ℕ → Pager → Prop} (fuel : ℕ)
    (h : Mem.MaxOk (fun _ => True) (s.heap.entry a).data) :
    Program.wp handler (getNodeMaxKey fuel a) Q F s ↔ Q (s.heap.entry a).data.maxKey s := by
  have hstep : ∀ next : Addr → Prog Addr ℕ, Program.wp handler (getNodeMaxKeyStep next a) Q F s ↔
      Q (s.heap.entry a).data.maxKey s := by
    intro next
    revert h
    generalize hd : (s.heap.entry a).data = d
    intro h
    rw [wp_getNodeMaxKeyStep hd]
    unfold Page.maxKey
    -- in both cases the cell read is in the page, and no page is asked for
    by_cases hl : d.isLeaf = true
    · have hn := h.leaf hl
      rw [if_pos hl, if_pos hl]
      by_cases h0 : d.numCells = 0
      · rw [if_pos h0, if_pos h0]
      · have hlt : d.numCells - 1 < 15 := by omega
        have haccess : Mem.Access (fun _ => True) d (.leafKey (d.numCells - 1)) :=
          Mem.access_leafKey hlt
        rw [if_neg h0, if_neg h0, wp_load haccess.1, hd]
        exact Iff.rfl
    · obtain ⟨h0, h3, -⟩ := h.internal hl
      have hlt : d.numKeys - 1 < 500 := by omega
      have haccess : Mem.Access (fun _ => True) d (.internalKey (d.numKeys - 1)) :=
        Mem.access_internalKey hlt trivial
      rw [if_neg hl, if_neg hl, if_neg h0, wp_load haccess.1, hd]
      exact Iff.rfl
  cases fuel with
  | zero => exact hstep _
  | succ fuel => exact hstep _

/-! ## The pages in use -/

/-- One page is left at most. -/
structure Crowded (s : Pager) : Prop extends s.Counted where
  crowded : filePagesNum ≤ s.numPages + 1

/-- Getting a page leaves no page free. -/
theorem Crowded.got (h : s.Crowded) (hp : p < filePagesNum) (hg : Wf.Got s p a s') :
    s'.Crowded := by
  have hcrowded := h.crowded
  have hle : s.numPages ≤ s'.numPages := by
    rw [hg.numPages]
    split <;> omega
  refine ⟨⟨hg.wf, fun q b hb => ?_⟩, by omega⟩
  rcases hg.lookup_of h.wf hb with rfl | hold
  · -- the page asked for is counted, or is counted now
    rw [hg.numPages]
    by_cases hq : q = s.numPages
    · have hnone : (s.cache.pageMap.lookup q).isNone = true := by
        rw [Option.isNone_iff_eq_none, Option.eq_none_iff_forall_ne_some]
        intro b hb
        exact absurd (h.counted q b hb) (by omega)
      rw [if_pos ⟨hnone, hq⟩]
      omega
    · rw [if_neg fun hc => hq hc.2]
      omega
  · exact (h.counted q b hold).trans_le hle

/-- No operation makes a page free. -/
theorem Crowded.step (o : PagerOp Addr) (h : s.Crowded) : (handler o s).2.Crowded := by
  have hset : ∀ {C : Prop} [Decidable C] (a : Addr) (d : Page) {r r' : Except Fault Unit},
      (if C then (r, s.setData a d) else (r', s)).2.Crowded := by
    intro C _ a d r r'
    split
    · exact ⟨⟨h.wf.setData a d, h.counted⟩, h.crowded⟩
    · exact h
  cases o with
  | getPage p =>
    rcases lt_or_ge p filePagesNum with hp | hp
    · obtain ⟨a, s', hget, hgot⟩ := h.wf.getPage_spec hp
      rw [show handler (.getPage p) s = (.ok a, s') from hget]
      exact h.got hp hgot
    · rw [show handler (.getPage p) s = _ from getPage_of_ge hp s]
      exact h
  | getUnusedPage => exact h
  | load a l =>
    show (if _ then _ else _ : Except Fault ℕ × Pager).2.Crowded
    split <;> exact h
  | store a l v => exact hset _ _
  | memcpy dst dl src sl n => exact hset _ _
  | fill dst dl n buffer => exact hset _ _

/-- Whatever the code does, one page is left at most. -/
theorem Crowded.wp {α : Type} {f : Prog Addr α} {Q : α → Pager → Prop} (h : s.Crowded)
    (hQ : ∀ a s', s'.Crowded → Q a s') (hF : ∀ e s', F e s') : Program.wp handler f Q F s :=
  (only_true f).wp (fun o _ _ hs => hs.step o) hQ (fun e s' _ => hF e s') h

/-- **Without a page for the upper half** a full leaf is not split: the insertion ends in
`std::out_of_range`. -/
theorem wp_leafNodeInsert_outOfRange {c key fuel : ℕ} {e : Bool} {row : Row}
    {Q : Unit → Pager → Prop}
    (h : s.Wf) (hp : p < s.numPages) (hlt : p < filePagesNum) (hleaf : (s.page p).isLeaf = true)
    (hcells : (s.page p).numCells = leafNodeMaxCells) (hn : filePagesNum ≤ s.numPages)
    (hF : ∀ what s', s'.Wf → s'.page = s.page → F (.outOfRange what) s') :
    Program.wp handler (leafNodeInsert fuel ⟨p, c, e⟩ key row) Q F s := by
  have hcount : ∀ {s s' : Pager} {a : Addr}, p < s.numPages → Wf.Got s p a s' →
      s'.numPages = s.numPages := by
    intro s s' a hp hg
    rw [hg.numPages, if_neg fun hc => absurd hc.2 hp.ne]
  unfold leafNodeInsert
  rw [wp_bind]
  refine wp_getPage h hlt fun a s₁ hg => ?_
  have hcells₁ : ((s₁.heap.entry a).data).load .numCells ≥ leafNodeMaxCells := by
    rw [hg.data]
    exact hcells.ge
  rw [wp_bind, wp_load (by decide), if_pos hcells₁]
  unfold leafNodeSplitAndInsert
  rw [wp_bind]
  refine wp_getPage hg.wf hlt fun b s₂ hg₂ => ?_
  have hdata : (s₂.heap.entry b).data = s.page p := by rw [hg₂.data, hg.page]
  have hnum : s₂.numPages = s.numPages := by
    rw [hcount ((hcount hp hg).symm ▸ hp) hg₂, hcount hp hg]
  have hmax : Mem.MaxOk (fun _ => True) (s₂.heap.entry b).data := by
    rw [hdata]
    exact ⟨fun _ => hcells.le, fun hn => absurd hleaf hn⟩
  rw [wp_bind, wp_getNodeMaxKey fuel hmax, wp_bind, wp_getUnusedPage, wp_bind]
  exact wp_getPage_of_ge (by rw [hnum]; exact hn) (hF _ _ hg₂.wf (hg₂.page.trans hg.page))

/-! ## The split of a root leaf -/

section RootLeaf

/-- What the code does that writes to no flag of the entry at `a`. -/
def SparesFlags (a : Addr) : PagerOp Addr → Prop
  | .store b l _ => b = a → 2 ≤ l.offset
  | .memcpy dst dl _ _ _ => dst = a → 2 ≤ dl.offset
  | .fill dst dl _ _ => dst = a → 2 ≤ dl.offset
  | _ => True

/-- The entry at `a` is that of a root. -/
structure RootAt (a : Addr) (s : Pager) : Prop extends s.Crowded where
  lt : a < s.heap.length
  root : (s.heap.entry a).data.isRoot = true

/-- Operations that spare its flag leave the root the root. -/
theorem RootAt.step (o : PagerOp Addr) (s : Pager) (ho : SparesFlags a o) (h : RootAt a s) :
    RootAt a (handler o s).2 := by
  have hset : ∀ {C : Prop} [Decidable C] (b : Addr) (off : ℕ) {n : ℕ} (v : Bytes n)
      {r r' : Except Fault Unit},
      (b = a → 2 ≤ off) →
      RootAt a (if C then (r, s.setData b ((s.heap.entry b).data.splice off v))
        else (r', s)).2 := by
    intro C _ b off n v r r' hoff
    split
    · refine ⟨⟨⟨h.wf.setData b _, h.counted⟩, h.crowded⟩, h.lt.trans_eq List.length_set.symm, ?_⟩
      show (Heap.entry (s.heap.set b _) a).data.isRoot = true
      rcases lt_or_ge b s.heap.length with hb | hb
      · rw [Heap.entry_set _ hb]
        split
        · rename_i hab
          -- the flag is in front of what is written
          show Page.isRoot (Bytes.splice _ _ _) = true
          have hflag := h.root
          unfold Page.isRoot Page.load at hflag ⊢
          rw [Bytes.slice_splice_disjoint _ _ (Or.inl (hoff hab.symm)), ← hab]
          exact hflag
        · exact h.root
      · rw [List.set_eq_of_length_le hb]
        exact h.root
    · exact h
  cases o with
  | getPage p =>
    rcases lt_or_ge p filePagesNum with hp | hp
    · obtain ⟨b, s', hget, hgot⟩ := h.wf.getPage_spec hp
      rw [show handler (.getPage p) s = (.ok b, s') from hget]
      refine ⟨h.toCrowded.got hp hgot, ?_, ?_⟩
      · rcases hgot.heap with hh | hh
        · rw [hh]
          exact h.lt
        · rw [hh, List.length_append]
          exact h.lt.trans_le (Nat.le_add_right _ _)
      · rw [hgot.same.entry a h.lt]
        exact h.root
    · rw [show handler (.getPage p) s = _ from getPage_of_ge hp s]
      exact h
  | getUnusedPage => exact h
  | load b l =>
    show RootAt a (if _ then _ else _ : Except Fault ℕ × Pager).2
    split <;> exact h
  | store b l v => exact hset b _ _ ho
  | memcpy dst dl src sl n => exact hset dst _ _ ho
  | fill dst dl n buffer => exact hset dst _ _ ho

/-- Initializing another page spares the flag. -/
theorem only_initializeLeafNode {b : Addr} (hba : b ≠ a) :
    Only (SparesFlags a) (initializeLeafNode b) := by
  refine ⟨fun h => absurd h hba,
    fun _ => ⟨fun h => absurd h hba, fun _ => ⟨fun h => absurd h hba, fun _ => ?_⟩⟩⟩
  exact ⟨fun h => absurd h hba, fun _ => trivial⟩

theorem only_splitLeafCells (old new : Addr) (c key : ℕ) (row : Row) (count : ℕ) :
    Only (SparesFlags a) (splitLeafCells old new c key row count) := by
  have hcell : ∀ i, 2 ≤ (Loc.leafCell i).offset :=
    fun i => (show 2 ≤ leafNodeHeaderSize by decide).trans (Nat.le_add_right _ _)
  induction count with
  | zero => trivial
  | succ i ih =>
    unfold splitLeafCells
    refine Only.bind ?_ fun _ => ih
    unfold splitLeafCell
    refine Only.ite ?_ (Only.ite ?_ ?_)
    · refine ⟨fun _ => (hcell _).trans (Nat.le_add_right _ _),
        fun _ => ⟨fun _ => hcell _, fun _ => trivial⟩⟩
    · exact ⟨fun _ => hcell _, fun _ => trivial⟩
    · exact ⟨fun _ => hcell _, fun _ => trivial⟩

end RootLeaf

/-! ## The split of an internal node -/

section Split

variable {x child fuel n : ℕ} {Q : Unit → Pager → Prop}

/-- Without a free page `create_new_root` throws. -/
theorem Crowded.wp_createNewRoot (h : s.Crowded) (hn : filePagesNum ≤ n + 1) (hF : ∀ e s', F e s') :
    Program.wp handler (createNewRoot fuel n) Q F s := by
  unfold createNewRoot
  rw [wp_bind]
  refine h.wp (fun root s₁ h₁ => ?_) hF
  rw [wp_bind]
  rcases lt_or_ge n filePagesNum with hlt | hge
  · refine wp_getPage h₁.wf hlt fun right s₂ hg => ?_
    have h₂ := h₁.got hlt hg
    -- the page for the right child was the last one
    have hcount := h₂.counted n right hg.found
    rw [wp_bind, wp_getUnusedPage, wp_bind]
    exact wp_getPage_of_ge (by omega) (hF _ _)
  · exact wp_getPage_of_ge hge (hF _ _)

/-- **Without two pages** a full root leaf is not split. -/
theorem wp_leafNodeSplitAndInsert_noPage {c key : ℕ} {e : Bool} {row : Row} (h : s.Crowded)
    (hlt : p < filePagesNum) (hleaf : (s.page p).isLeaf = true)
    (hcells : (s.page p).numCells ≤ leafNodeMaxCells)
    (hroot : (s.page p).isRoot = true) (hF : ∀ e s', F e s') :
    Program.wp handler (leafNodeSplitAndInsert fuel ⟨p, c, e⟩ key row) Q F s := by
  unfold leafNodeSplitAndInsert
  rw [wp_bind]
  refine wp_getPage h.wf hlt fun a s₁ hg => ?_
  have h₁ := h.got hlt hg
  have hmax : Mem.MaxOk (fun _ => True) (s₁.heap.entry a).data := by
    rw [hg.data]
    exact ⟨fun _ => hcells, fun hn => absurd hleaf hn⟩
  rw [wp_bind, wp_getNodeMaxKey fuel hmax, wp_bind, wp_getUnusedPage, wp_bind]
  have hcounted := h₁.counted p a hg.found
  rcases lt_or_ge s₁.numPages filePagesNum with hn | hn
  · refine wp_getPage h₁.wf hn fun b s₂ hg₂ => ?_
    have hroot₂ : RootAt a s₂ := by
      refine ⟨h₁.got hn hg₂, ?_, ?_⟩
      · rcases hg₂.heap with hh | hh
        · rw [hh]
          exact hg.lt
        · rw [hh, List.length_append]
          exact hg.lt.trans_le (Nat.le_add_right _ _)
      · rw [hg₂.same.entry a hg.lt, hg.data]
        exact hroot
    -- the entry of the new page is another one
    have hba : b ≠ a := by
      rintro rfl
      have hpage := ((hg₂.wf.lookup _ b).1 hg₂.found).2
      rw [hg₂.same.entry b hg.lt, ((hg.wf.lookup p b).1 hg.found).2] at hpage
      exact absurd hpage hcounted.ne
    have hskip : ∀ {α : Type} {f : Prog Addr α} {R : α → Pager → Prop} {s' : Pager},
        Only (SparesFlags a) f → RootAt a s' →
        (∀ v s'', RootAt a s'' → R v s'') → Program.wp handler f R F s' :=
      fun hf hs hR => hf.wp (fun o s' => RootAt.step o s') hR (fun e s' _ => hF e s') hs
    rw [wp_bind]
    refine hskip (only_initializeLeafNode hba) hroot₂ fun _ s₃ h₃ => ?_
    rw [wp_bind]
    refine hskip ⟨trivial, fun _ => trivial⟩ h₃ fun parent s₄ h₄ => ?_
    rw [wp_bind]
    refine hskip ⟨fun hb => absurd hb hba, fun _ => trivial⟩ h₄ fun _ s₅ h₅ => ?_
    rw [wp_bind]
    refine hskip ⟨trivial, fun _ => trivial⟩ h₅ fun next s₆ h₆ => ?_
    rw [wp_bind]
    refine hskip ⟨fun hb => absurd hb hba, fun _ => trivial⟩ h₆ fun _ s₇ h₇ => ?_
    rw [wp_bind]
    refine hskip ⟨fun _ => by decide, fun _ => trivial⟩ h₇ fun _ s₈ h₈ => ?_
    rw [wp_bind]
    refine hskip (only_splitLeafCells a b c key row _) h₈ fun _ s₉ h₉ => ?_
    rw [wp_bind]
    refine hskip ⟨fun _ => by decide, fun _ => trivial⟩ h₉ fun _ s₁₀ h₁₀ => ?_
    rw [wp_bind]
    refine hskip ⟨fun hb => absurd hb hba, fun _ => trivial⟩ h₁₀ fun _ s₁₁ h₁₁ => ?_
    rw [wp_bind, wp_isNodeRoot, if_pos h₁₁.root]
    have hcrowded := h₁.crowded
    exact h₁₁.toCrowded.wp_createNewRoot (by omega) hF
  · exact wp_getPage_of_ge hn (hF _ _)

end Split

end Pager

end ToySQL
