import ToySQL.Proof.Internal
import ToySQL.Proof.NoPage
import ToySQL.Spec.Subtree

/-!
# What `get_node_max_key` returns

* `MaxPath`: the pages the recursion of `get_node_max_key` gets below a node, and the result.
* `Pager.maxKey_iff_path`: `get_node_max_key` of a page is the end of such a path.
-/

namespace ToySQL

open Program

/-- The pages `get_node_max_key` goes on with below the node `q`, and the key it finds: the
last one of a leaf or of a node with keys. -/
inductive MaxPath (page : ℕ → Page) : ℕ → List ℕ → ℕ → Prop where
  | empty {q} : (page q).isLeaf = true → (page q).numCells = 0 → MaxPath page q [] 0
  | leaf {q} : (page q).isLeaf = true → (page q).numCells ≠ 0 →
      (Loc.leafKey ((page q).numCells - 1)).offset + 4 ≤ pageSize →
        MaxPath page q [] ((page q).key ((page q).numCells - 1))
  | keys {q} : (page q).isLeaf = false → (page q).numKeys ≠ 0 →
      (Loc.internalKey ((page q).numKeys - 1)).offset + 4 ≤ pageSize →
        MaxPath page q [] ((page q).sep ((page q).numKeys - 1))
  | right {q l k} : (page q).isLeaf = false → (page q).numKeys = 0 →
    (page q).rightChild < filePagesNum →
      MaxPath page (page q).rightChild l k → MaxPath page q ((page q).rightChild :: l) k

namespace MaxPath

variable {page : ℕ → Page} {q k k' : ℕ} {l l' : List ℕ}

/-- The pages on the way are in the file. -/
theorem lt (h : MaxPath page q l k) : ∀ p ∈ l, p < filePagesNum := by
  induction h with
  | empty _ _ => intro p hp; cases hp
  | leaf _ _ _ => intro p hp; cases hp
  | keys _ _ _ => intro p hp; cases hp
  | right _ _ hlt _ ih =>
    intro p hp
    rcases List.mem_cons.1 hp with rfl | hp
    · exact hlt
    · exact ih p hp

/-- There is one path from a page. -/
theorem unique (h : MaxPath page q l k) (h' : MaxPath page q l' k') : l = l' ∧ k = k' := by
  -- type and count of the page decide the step, so both ways take the same
  induction h generalizing l' k' with
  | empty hl h0 =>
    cases h' with
    | empty _ _ => exact ⟨rfl, rfl⟩
    | leaf _ h0' _ => exact absurd h0 h0'
    | keys hl' _ _ => rw [hl] at hl'; cases hl'
    | right hl' _ _ _ => rw [hl] at hl'; cases hl'
  | leaf hl h0 _ =>
    cases h' with
    | empty _ h0' => exact absurd h0' h0
    | leaf _ _ _ => exact ⟨rfl, rfl⟩
    | keys hl' _ _ => rw [hl] at hl'; cases hl'
    | right hl' _ _ _ => rw [hl] at hl'; cases hl'
  | keys hl h0 _ =>
    cases h' with
    | empty hl' _ => rw [hl] at hl'; cases hl'
    | leaf hl' _ _ => rw [hl] at hl'; cases hl'
    | keys _ _ _ => exact ⟨rfl, rfl⟩
    | right _ h0' _ _ => exact absurd h0' h0
  | right hl h0 _ _ ih =>
    cases h' with
    | empty hl' _ => rw [hl] at hl'; cases hl'
    | leaf hl' _ _ => rw [hl] at hl'; cases hl'
    | keys _ h0' _ => exact absurd h0 h0'
    | right _ _ _ h' =>
      obtain ⟨rfl, rfl⟩ := ih h'
      exact ⟨rfl, rfl⟩

/-- Only the pages of the path matter. -/
theorem congr {page' : ℕ → Page} (h : MaxPath page q l k) (hpage : ∀ p ∈ q :: l, page' p = page p) :
    MaxPath page' q l k := by
  induction h with
  | empty hl h0 =>
    have hq := hpage _ (List.mem_cons_self ..)
    exact .empty (by rw [hq]; exact hl) (by rw [hq]; exact h0)
  | @leaf q hl h0 hle =>
    have hq := hpage _ (List.mem_cons_self ..)
    rw [← hq] at hl h0 hle ⊢
    exact .leaf hl h0 hle
  | @keys q hl h0 hle =>
    have hq := hpage _ (List.mem_cons_self ..)
    rw [← hq] at hl h0 hle ⊢
    exact .keys hl h0 hle
  | @right q l k hl h0 hlt _ ih =>
    have hq := hpage _ (List.mem_cons_self ..)
    have hrest := ih fun p hp => hpage p (List.mem_cons_of_mem _ hp)
    rw [← hq] at hl h0 hlt hrest ⊢
    exact .right hl h0 hlt hrest

/-- The pages `get_node_max_key` reads are those on the way. -/
theorem visits (h : MaxPath page q l k) : MaxVisits page q (q :: l) := by
  induction h with
  | empty hl _ => exact .last (Or.inl hl)
  | leaf hl _ _ => exact .last (Or.inl hl)
  | keys _ h0 _ => exact .last (Or.inr h0)
  | right hl h0 _ _ ih => exact .right hl h0 ih

theorem key_lt (h : MaxPath page q l k) : k < 2 ^ 32 := by
  induction h with
  | empty _ _ => decide
  | leaf _ _ _ => exact Page.key_lt _ _
  | keys _ _ _ => exact Page.sep_lt _ _
  | right _ _ _ _ ih => exact ih

/-- A path through a node with keys ends there, and one through a node without keys goes on to
its right child. -/
theorem of_mem (h : MaxPath page q l k) {p : ℕ} (hp : p ∈ q :: l) (hl : (page p).isLeaf = false) :
    ((page p).numKeys ≠ 0 → k = (page p).sep ((page p).numKeys - 1)) ∧
      ((page p).numKeys = 0 → ∃ l', MaxPath page (page p).rightChild l' k ∧
        l'.length < l.length) := by
  induction h with
  | empty hl' _ =>
    rw [List.mem_singleton.1 hp, hl'] at hl
    cases hl
  | leaf hl' _ _ =>
    rw [List.mem_singleton.1 hp, hl'] at hl
    cases hl
  | keys _ h0 _ =>
    rw [List.mem_singleton.1 hp]
    exact ⟨fun _ => rfl, fun h => absurd h h0⟩
  | @right q l k _ h0 _ hrest ih =>
    rcases List.mem_cons.1 hp with rfl | hp
    · exact ⟨fun h => absurd h0 h, fun _ => ⟨l, hrest, Nat.lt_succ_self _⟩⟩
    · obtain ⟨h1, h2⟩ := ih hp
      refine ⟨h1, fun h => ?_⟩
      obtain ⟨l', hl', hlt⟩ := h2 h
      exact ⟨l', hl', hlt.trans (Nat.lt_succ_self _)⟩

end MaxPath

/-- The way is determined by the pages. -/
theorem MaxVisits.unique {page : ℕ → Page} {q : ℕ} {l l' : List ℕ} (h : MaxVisits page q l)
    (h' : MaxVisits page q l') :
    l = l' := by
  have hnot : ∀ {q}, (page q).isLeaf = true ∨ (page q).numKeys ≠ 0 → (page q).isLeaf = false →
      (page q).numKeys = 0 → False := by
    rintro q (hl | hn) hl' h0
    · rw [hl] at hl'
      cases hl'
    · exact hn h0
  induction h generalizing l' with
  | last hend =>
    cases h' with
    | last _ => rfl
    | right hl h0 _ => exact (hnot hend hl h0).elim
  | right hl h0 _ ih =>
    cases h' with
    | last hend => exact (hnot hend hl h0).elim
    | right _ _ hrest => rw [ih hrest]

namespace Mem

variable {T : ℕ → Prop} [DecidablePred T] {m : Mem} {q k : ℕ} {l : List ℕ} {Q : ℕ → Mem → Prop}
    {F : Fault → Mem → Prop}

/-- One step of `get_node_max_key`, by the kind of the node. -/
theorem wp_getNodeMaxKeyStep_iff {next : ℕ → Prog ℕ ℕ} :
    wp (handler (fun _ => True) T) (getNodeMaxKeyStep next q) Q F m ↔
      if (m.page q).isLeaf then
        if (m.page q).numCells = 0 then Q 0 m
        else wp (handler (fun _ => True) T) (load q (.leafKey ((m.page q).numCells - 1))) Q F m
      else
        if (m.page q).numKeys = 0 then
          wp (handler (fun _ => True) T) (do next (← getPage (m.page q).rightChild)) Q F m
        else wp (handler (fun _ => True) T) (load q (.internalKey ((m.page q).numKeys - 1))) Q
          F m := by
  unfold getNodeMaxKeyStep
  rw [wp_bind, wp_getNodeType]
  by_cases hl : (m.page q).isLeaf = true
  · rw [if_pos (of_decide_eq_true hl), if_pos hl, wp_bind,
      wp_load (access_header .numCells), wp_ite]
    exact Iff.rfl
  · rw [if_neg fun ht => hl (decide_eq_true ht), if_neg hl, wp_bind,
      wp_load (access_header .numKeys), wp_ite]
    simp only [wp_bind, wp_load (access_header .rightChild)]
    exact Iff.rfl

/-- **In flat memory** the recursion gets the pages of the path. -/
theorem wp_getNodeMaxKey_path (h : MaxPath m.page q l k) (hT : ∀ p ∈ l, T p)
    (hcached : ∀ p ∈ l, m.cached p = true)
    (hQ : Q k m) :
    ∀ fuel ≥ l.length, wp (handler (fun _ => True) T) (getNodeMaxKey fuel q) Q F m := by
  have hload : ∀ {q : ℕ} {lc : Loc}, lc.width = 4 → lc.offset + 4 ≤ pageSize →
      Q ((m.page q).load lc) m →
      wp (handler (fun _ => True) T) (load q lc) Q F m := by
    intro q lc hw hle hQ
    exact (wp_load ⟨hw.symm ▸ hle, fun _ _ _ => trivial⟩).2 hQ
  -- along the way down; only a step to the right child uses up the bound
  induction h with
  | empty hl h0 =>
    intro fuel _
    cases fuel
    all_goals
      refine wp_getNodeMaxKeyStep_iff.2 ?_
      rw [if_pos hl, if_pos h0]
      exact hQ
  | leaf hl h0 hle =>
    intro fuel _
    cases fuel
    all_goals
      refine wp_getNodeMaxKeyStep_iff.2 ?_
      rw [if_pos hl, if_neg h0]
      exact hload rfl hle hQ
  | keys hl h0 hle =>
    intro fuel _
    cases fuel
    all_goals
      refine wp_getNodeMaxKeyStep_iff.2 ?_
      rw [if_neg (by rw [hl]; exact Bool.false_ne_true), if_neg h0]
      exact hload rfl hle hQ
  | right hl h0 hlt _ ih =>
    intro fuel hfuel
    obtain ⟨fuel, rfl⟩ := Nat.exists_eq_succ_of_ne_zero ((Nat.succ_pos _).trans_le hfuel).ne'
    refine wp_getNodeMaxKeyStep_iff.2 ?_
    rw [if_neg (by rw [hl]; exact Bool.false_ne_true), if_pos h0, wp_bind,
      wp_getPage (hT _ (List.mem_cons_self ..)),
      touch_of_cached (hcached _ (List.mem_cons_self ..))]
    exact ih (fun p hp => hT p (List.mem_cons_of_mem _ hp))
      (fun p hp => hcached p (List.mem_cons_of_mem _ hp)) hQ fuel
      (Nat.le_of_succ_le_succ hfuel)

end Mem

namespace Pager

variable {s : Pager} {page : ℕ → Page} {q k : ℕ} {l : List ℕ} {a : Addr}

/-- **Along its path** the recursion ends with the key, and changes no page. -/
theorem wp_getNodeMaxKey_path (h : MaxPath page q l k) :
    ∀ fuel (s : Pager) (a : Addr), s.Wf → s.page = page →
    (s.heap.entry a).data = page q → l.length ≤ fuel →
    Program.wp handler (getNodeMaxKey fuel a) (fun k' s' => k' = k ∧ s'.Wf ∧
      s'.page = page) (fun _ _ => False) s := by
  -- along the way down; getting the right child may evict the page above it
  induction h with
  | empty hl h0 =>
    intro fuel s a hs hpage hdata _
    cases fuel
    all_goals
      refine (wp_getNodeMaxKeyStep hdata).2 ?_
      rw [if_pos hl, if_pos h0]
      exact ⟨rfl, hs, hpage⟩
  | leaf hl h0 hle =>
    intro fuel s a hs hpage hdata _
    cases fuel
    all_goals
      refine (wp_getNodeMaxKeyStep hdata).2 ?_
      rw [if_pos hl, if_neg h0, wp_load hle, hdata]
      exact ⟨rfl, hs, hpage⟩
  | keys hl h0 hle =>
    intro fuel s a hs hpage hdata _
    cases fuel
    all_goals
      refine (wp_getNodeMaxKeyStep hdata).2 ?_
      rw [if_neg (by rw [hl]; exact Bool.false_ne_true), if_neg h0, wp_load hle, hdata]
      exact ⟨rfl, hs, hpage⟩
  | right hl h0 hlt _ ih =>
    intro fuel s a hs hpage hdata hfuel
    obtain ⟨fuel, rfl⟩ := Nat.exists_eq_succ_of_ne_zero ((Nat.succ_pos _).trans_le hfuel).ne'
    refine (wp_getNodeMaxKeyStep hdata).2 ?_
    rw [if_neg (by rw [hl]; exact Bool.false_ne_true), if_pos h0, wp_bind]
    refine wp_getPage hs hlt fun b s' hg =>
      ih fuel s' b hg.wf (hg.page.trans hpage) ?_ (Nat.le_of_succ_le_succ hfuel)
    rw [hg.data, hpage]

/-- **A result is the end of a path.** -/
theorem path_of_getNodeMaxKey :
    ∀ fuel (s : Pager) (q : ℕ) (a : Addr), s.Wf → (s.heap.entry a).data = s.page q →
    Program.wp handler (getNodeMaxKey fuel a) (fun k _ => ∃ l, MaxPath s.page q l k)
      (fun _ _ => True) s := by
  -- the recursion may go on below the right child
  have hstep : ∀ (next : Addr → Prog Addr ℕ) (s : Pager) (q : ℕ) (a : Addr), s.Wf →
      (s.heap.entry a).data = s.page q →
      (∀ (s' : Pager) b, s'.Wf → s'.page = s.page → (s'.heap.entry b).data =
        s'.page (s.page q).rightChild →
        Program.wp handler (next b) (fun k _ => ∃ l, MaxPath s'.page (s.page q).rightChild l k)
          (fun _ _ => True) s') →
      Program.wp handler (getNodeMaxKeyStep next a) (fun k _ => ∃ l, MaxPath s.page q l k)
        (fun _ _ => True) s := by
    intro next s q a hs hdata hnext
    have hload : ∀ {l : Loc}, l.width = 4 →
        (l.offset + 4 ≤ pageSize → ∃ p, MaxPath s.page q p ((s.page q).load l)) →
        Program.wp handler (load a l) (fun k _ => ∃ p, MaxPath s.page q p k)
          (fun _ _ => True) s := by
      intro l hw h
      by_cases hle : l.offset + l.width ≤ pageSize
      · rw [wp_load hle, hdata]
        exact h (hw ▸ hle)
      · refine wp_perform.2 ?_
        rw [show handler (.load a l) s = (.error .outOfPage, s) from if_neg hle]
        trivial
    refine (wp_getNodeMaxKeyStep hdata).2 ?_
    by_cases hl : (s.page q).isLeaf = true
    · rw [if_pos hl]
      by_cases h0 : (s.page q).numCells = 0
      · rw [if_pos h0]
        exact ⟨[], .empty hl h0⟩
      · rw [if_neg h0]
        exact hload rfl fun hle => ⟨[], .leaf hl h0 hle⟩
    · have hl' : (s.page q).isLeaf = false := Bool.eq_false_iff.2 hl
      rw [if_neg hl]
      by_cases h0 : (s.page q).numKeys = 0
      · rw [if_pos h0, wp_bind]
        rcases lt_or_ge (s.page q).rightChild filePagesNum with hlt | hge
        · refine wp_getPage hs hlt fun b s' hg => ?_
          refine wp_mono (hnext s' b hg.wf hg.page (by rw [hg.data, hg.page])) (fun k s'' hk => ?_)
            fun _ _ => id
          obtain ⟨l, hk⟩ := hk
          rw [hg.page] at hk
          exact ⟨_, .right hl' h0 hlt hk⟩
        · exact wp_getPage_of_ge hge trivial
      · rw [if_neg h0]
        exact hload rfl fun hle => ⟨[], .keys hl' h0 hle⟩
  intro fuel
  induction fuel with
  | zero => exact fun s q a hs hdata => hstep _ s q a hs hdata fun _ _ _ _ _ => trivial
  | succ fuel ih =>
    exact fun s q a hs hdata => hstep _ s q a hs hdata fun s' b hs' _ hd =>
      ih s' _ b hs' hd

/-- **`get_node_max_key` of a page** is the end of the path from it. -/
theorem maxKey_iff_path (hs : s.Wf) :
    s.MaxKey q k ↔ q < filePagesNum ∧ ∃ l, MaxPath s.page q l k := by
  constructor
  · rintro ⟨bound, hrun⟩
    obtain ⟨s', hrun⟩ := hrun bound le_rfl
    rcases lt_or_ge q filePagesNum with hq | hq
    · refine ⟨hq, wp_ok (Q := fun k _ => ∃ l, MaxPath s.page q l k) (F := fun _ _ => True) ?_ hrun⟩
      rw [wp_bind]
      refine wp_getPage hs hq fun a s₁ hg => ?_
      have h := path_of_getNodeMaxKey bound s₁ q a hg.wf (by rw [hg.data, hg.page])
      rwa [hg.page] at h
    · refine (wp_ok (Q := fun _ _ => False) (F := fun _ _ => True) ?_ hrun).elim
      rw [wp_bind]
      exact wp_getPage_of_ge hq trivial
  · rintro ⟨hq, l, h⟩
    refine ⟨l.length, fun fuel hfuel => ?_⟩
    obtain ⟨_, s', hrun, rfl, -⟩ := wp_total
      (p := do getNodeMaxKey fuel (← ToySQL.getPage q)) (h := handler) (s := s)
      (Q := fun k' s' => k' = k ∧ s'.Wf ∧ s'.page = s.page) <| by
        rw [wp_bind]
        exact wp_getPage hs hq fun a s₁ hg =>
          wp_getNodeMaxKey_path h fuel s₁ a hg.wf hg.page hg.data hfuel
    exact ⟨s', hrun⟩

end Pager

end ToySQL
