import ToySQL.Proof.Parents

/-!
# The children of a node as a list

* `AddChild.holds`: `internal_node_insert` into a node with room puts the child in its
  place in the order of the separators.
* `Mem.wp_splitHalves`: the two halves of a node that is split, child by child.
-/

namespace ToySQL

open Program

namespace Page

/-- The children of the node and their last keys. What goes with the right child is not
in the page. -/
structure Holds (a : Page) (L : List (ℕ × ℕ)) : Prop where
  length : L.length = a.numKeys + 1
  cell : ∀ i < a.numKeys, L[i]? = some (a.slot i)
  right : ∃ last, L[a.numKeys]? = some (a.rightChild, last)

variable {a a' : Page} {c cmax rmax : ℕ} {L : List (ℕ × ℕ)}

/-- An entry of the list is a slot of the page. -/
theorem Holds.getElem? (h : Holds a L) {i : ℕ} {e : ℕ × ℕ} (he : L[i]? = some e) :
    i ≤ a.numKeys ∧ e.1 = a.childAt i ∧ (i < a.numKeys → e.2 = a.sep i) := by
  obtain ⟨hlt, -⟩ := List.getElem?_eq_some_iff.1 he
  rw [h.length] at hlt
  rcases Nat.lt_succ_iff_lt_or_eq.1 hlt with hi | rfl
  · rw [h.cell i hi] at he
    obtain rfl := Option.some.inj he
    exact ⟨hi.le, (childAt_of_lt hi).symm, fun _ => rfl⟩
  · obtain ⟨last, hlast⟩ := h.right
    rw [hlast] at he
    obtain rfl := Option.some.inj he
    exact ⟨le_rfl, childAt_numKeys.symm, fun hlt => absurd hlt (lt_irrefl _)⟩

theorem Holds.children (h : Holds a L) : a.children = L.map Prod.fst := by
  apply List.ext_getElem?
  intro i
  rw [List.getElem?_map]
  cases he : L[i]? with
  | none =>
    rw [List.getElem?_eq_none_iff, h.length] at he
    rw [Option.map_none, List.getElem?_eq_none_iff, children_eq, List.length_map, List.length_range]
    exact he
  | some e =>
    obtain ⟨hi, hc, -⟩ := h.getElem? he
    rw [Option.map_some, getElem?_children]
    exact ⟨hi, hc.symm⟩

theorem rel_of_getElem? {α : Type} {R : α → α → Prop} {l : List α} (hs : l.Pairwise R) {i j : ℕ}
    {e e' : α}
    (hi : l[i]? = some e) (hj : l[j]? = some e') (hij : i < j) : R e e' := by
  obtain ⟨hilt, rfl⟩ := List.getElem?_eq_some_iff.1 hi
  obtain ⟨hjlt, rfl⟩ := List.getElem?_eq_some_iff.1 hj
  exact List.pairwise_iff_getElem.1 hs i j hilt hjlt hij

/-- The separators are in order. -/
theorem Holds.sep_le (h : Holds a L) (hs : L.Pairwise fun e e' => e.2 < e'.2) {i j : ℕ}
    (hij : i ≤ j)
    (hj : j < a.numKeys) : a.sep i ≤ a.sep j := by
  rcases hij.lt_or_eq with hij | rfl
  · have hlt := rel_of_getElem? hs (h.cell i (hij.trans hj)) (h.cell j hj) hij
    exact le_of_lt hlt
  · exact le_rfl

/-- **A child is put in its place.** -/
theorem AddChild.holds (ha : AddChild a c cmax rmax a') (h : Holds a L)
    (hr : a.rightChild ≠ invalidPageNum)
    (hroom : a.numKeys < 3) (hlast : L[a.numKeys]? = some (a.rightChild, rmax))
    (hs : L.Pairwise fun e e' => e.2 < e'.2) (hne : ∀ e ∈ L, e.2 ≠ cmax) :
    ∃ L', Holds a' L' ∧ L'.Perm ((c, cmax) :: L) ∧ L'.Pairwise fun e e' => e.2 < e'.2 := by
  have hlen := h.length
  cases ha with
  | first he => exact absurd he hr
  | append a' _ hlt _ hk hright hslot =>
    refine ⟨L ++ [(c, cmax)], ⟨by rw [List.length_append, hlen, hk]; rfl, fun i hi => ?_, cmax, ?_⟩,
      List.perm_append_singleton _ _, ?_⟩
    · rw [hk] at hi
      rw [List.getElem?_append_left (by omega), hslot i (by omega)]
      split
      · rename_i heq
        rw [heq]
        exact hlast
      · exact h.cell i (by omega)
    · rw [hk, hright, List.getElem?_append_right (by omega), hlen, Nat.sub_self]
      rfl
    · -- the new child is behind the right child, and the others are before that one
      refine List.pairwise_append.2 ⟨hs, List.pairwise_singleton _ _, fun e he e' he' => ?_⟩
      rw [List.mem_singleton.1 he']
      obtain ⟨i, hi⟩ := List.getElem?_of_mem he
      obtain ⟨hin, -, -⟩ := h.getElem? hi
      rcases hin.lt_or_eq with hin | rfl
      · have hord := rel_of_getElem? hs hi hlast hin
        exact hord.trans hlt
      · rw [hlast] at hi
        rw [← Option.some.inj hi]
        exact hlt
  | place a' _ hle hhead hk hslot =>
    obtain ⟨hbelow, habove⟩ := findChild_spec (fun i j hij hj => h.sep_le hs hij hj) cmax
    have hidx := findChild_le a cmax
    set k := a.findChild cmax with hkdef
    have hk' : k ≤ L.length := by omega
    refine ⟨L.insertIdx k (c, cmax), ⟨?_, fun i hi => ?_, rmax, ?_⟩,
      List.perm_insertIdx _ _ hk', ?_⟩
    · rw [List.length_insertIdx_of_le_length hk', hlen, hk]
    · rw [hk] at hi
      rw [hslot i (by omega), if_pos (by omega), insertAt, List.getElem?_insertIdx]
      rcases lt_trichotomy i k with hik | rfl | hik
      · rw [if_pos hik, if_pos hik]
        exact h.cell i (by omega)
      · rw [if_neg (lt_irrefl _), if_pos rfl, if_neg (lt_irrefl _), if_pos rfl, if_pos (by omega)]
      · rw [if_neg (by omega), if_neg (by omega), if_neg (by omega), if_neg (by omega)]
        exact h.cell (i - 1) (by omega)
    · rw [hk, List.getElem?_insertIdx, if_neg (by omega), if_neg (by omega), Nat.add_sub_cancel,
        hhead.rightChild (by simp)]
      exact hlast
    -- the entries below the place have smaller keys, those from it on larger ones
    · refine pairwise_insertIdx hs hk' (fun e he => ?_) fun e he => ?_
      · obtain ⟨i, hi⟩ := List.getElem?_of_mem he
        rw [List.getElem?_take] at hi
        split at hi
        · rename_i hik
          obtain ⟨-, -, hsep⟩ := h.getElem? hi
          rw [hsep (by omega)]
          exact hbelow i hik
        · cases hi
      · obtain ⟨i, hi⟩ := List.getElem?_of_mem he
        rw [List.getElem?_drop] at hi
        have hne' := (hne e (List.mem_of_mem_drop he)).symm
        obtain ⟨hin, -, hsep⟩ := h.getElem? hi
        refine lt_of_le_of_ne ?_ hne'
        rcases hin.lt_or_eq with hin | heq
        · show cmax ≤ e.2
          rw [hsep hin]
          exact habove _ (by omega) hin
        · rw [heq, hlast] at hi
          rw [← Option.some.inj hi]
          exact hle

end Page

namespace Page

variable {a a' : Page} {c cmax rmax r : ℕ}

/-- The second child of a node that has only a right child. -/
theorem AddChild.second (h : AddChild a c cmax rmax a') (hk : a.numKeys = 0) (hr : a.rightChild = r)
    (hv : r ≠ invalidPageNum) :
    a'.numKeys = 1 ∧ a'.slot 1 = a.slot 1 ∧
      (a'.rightChild = c ∧ a'.child 0 = r ∨ a'.rightChild = r ∧ a'.child 0 = c) := by
  have hle := findChild_le a cmax
  rw [hk] at hle
  cases h with
  | first he => exact absurd (hr.symm.trans he) hv
  | append a' _ _ _ hk' hright hslot =>
    rw [hk] at hk' hslot
    refine ⟨hk', by rw [hslot 1 (by omega), if_neg (by omega)], Or.inl ⟨hright, ?_⟩⟩
    have h0 := hslot 0 (by omega)
    rw [if_pos rfl] at h0
    exact (congrArg Prod.fst h0).trans hr
  | place a' _ _ hh hk' hslot =>
    rw [hk] at hk' hslot
    refine ⟨hk', by rw [hslot 1 (by omega), if_neg (by omega)],
      Or.inr ⟨(hh.rightChild (by simp)).trans hr, ?_⟩⟩
    have h0 := hslot 0 (by omega)
    rw [if_pos le_rfl, insertAt, if_neg (by omega), if_pos (by omega)] at h0
    exact congrArg Prod.fst h0

end Page

namespace Mem

open Page

/-- The memory is ready for the split of `x`: `new` is an empty node, and `child` the page
that is to be inserted. -/
structure Splits (K T : ℕ → Prop) (m : Mem) (x new child : ℕ) : Prop where
  node : (m.page x).Node
  full : (m.page x).numKeys = 3
  newKeys : (m.page new).numKeys = 0
  newRight : (m.page new).rightChild = invalidPageNum
  newLeaf : (m.page new).isLeaf = false
  nodup : (x :: new :: child :: (m.page x).children).Nodup
  pages : ∀ q ∈ x :: new :: child :: (m.page x).children.tail,
    T q ∧ m.cached q = true ∧ q < 2 ^ 32 ∧ q ≠ invalidPageNum
  max : ∀ q ∈ child :: (m.page x).children.tail, MaxOk K (m.page q)

theorem children_full {a : Page} (h : a.numKeys = 3) :
    a.children = [a.child 0, a.child 1, a.child 2, a.rightChild] := by
  unfold children
  rw [h]
  rfl

/-- The child has been inserted into the half `d`. -/
def placed (m : Mem) (d child : ℕ) (a' : Page) : Mem :=
  (m.set d a').set child ((m.page child).store .parent d)

variable {K T : ℕ → Prop} [DecidablePred K] [DecidablePred T] {m : Mem} {F : Fault → Mem → Prop}
  {Q : Unit → Mem → Prop} {x new child : ℕ}

/-- How the children of `x` and the child `child` are shared out: `x'` and `n'` are the
halves, and `a'` the half `d` with the child. -/
structure Halved (m : Mem) (x new child : ℕ) (n' x' : Page) (d : ℕ) (a' : Page) : Prop where
  first : (m.page new).child 0 ≠ invalidPageNum
  upper : AddChild ((m.page new).store .rightChild (m.page x).rightChild) ((m.page x).child 2)
    (m.page ((m.page x).child 2)).maxKey (m.page (m.page x).rightChild).maxKey n'
  lower : LowerHalf (m.page x) x'
  dest : d = if (m.page child).maxKey < (m.page x).sep 0 then x else new
  placed : AddChild (if d = x then x' else n') child (m.page child).maxKey
    (m.page (if d = x then x' else n').rightChild).maxKey a'
  slot : d = new → ((m.page n'.rightChild).maxKey < (m.page child).maxKey ∨
    n'.findChild (m.page child).maxKey = 1) → (m.page new).child 1 ≠ invalidPageNum

/-- What is left of a node ends with its first separator. -/
theorem LowerHalf.maxKey {a a' : Page} (h : LowerHalf a a') (hi : a.isInternal = true) :
    a'.maxKey = a.sep 0 := by
  have hl : a'.isLeaf = false := (h.header.isLeaf (by simp)).trans (not_isLeaf_of_isInternal hi)
  rw [Page.maxKey, hl, h.numKeys, if_neg Bool.false_ne_true]
  exact congrArg Prod.snd (h.slot 0 (by omega))

/-- The pages when the child has been inserted. -/
theorem placed_page {M : Mem} {d q : ℕ} {a' : Page} : (M.placed d child a').page q =
    if q = child then (M.page child).store .parent d else if q = d then a' else M.page q := by
  unfold placed
  simp only [page_set, Function.update_apply]

/-- Pages that are not part of the split stay as they are. -/
theorem placed_moved_page {n' x' a' : Page} {d q : ℕ} (hd : d = x ∨ d = new) (hx : q ≠ x)
    (hn : q ≠ new) (hc : q ≠ child)
    (hq : q ∉ (m.page x).children) (h3 : (m.page x).numKeys = 3) :
    ((m.moved x new n' x').placed d child a').page q = m.page q := by
  rw [children_full h3] at hq
  simp only [List.mem_cons, List.not_mem_nil, or_false, not_or] at hq
  have hqd : q ≠ d := by
    rintro rfl
    rcases hd with hd | hd
    · exact hx hd
    · exact hn hd
  rw [placed_page, if_neg hc, if_neg hqd, moved_page, if_neg hx, if_neg hn, if_neg hq.2.2.1,
    if_neg hq.2.2.2]

/-- The new node with its two children. -/
structure UpperHalf (m : Mem) (x new : ℕ) (n' : Page) : Prop where
  isLeaf : n'.isLeaf = false
  numKeys : n'.numKeys = 1
  child : n'.child 1 = (m.page new).child 1
  children : n'.rightChild = (m.page x).child 2 ∧ n'.child 0 = (m.page x).rightChild ∨
    n'.rightChild = (m.page x).rightChild ∧ n'.child 0 = (m.page x).child 2

omit [DecidablePred K] in
/-- A node with one to three keys has a last separator. -/
theorem MaxOk.of_inner {a : Page} (hl : a.isLeaf = false) (h1 : 1 ≤ a.numKeys) (h3 : a.numKeys ≤ 3)
    (hK : ∀ i < 3, K i) : MaxOk K a :=
  ⟨fun he => absurd (hl.symm.trans he) Bool.false_ne_true, fun _ => ⟨by omega, h3, hK _ (by omega)⟩⟩

namespace Splits

section

omit [DecidablePred K] [DecidablePred T]

/-- The pages of the split are pairwise different. -/
theorem distinct (h : Splits K T m x new child) :
    [x, new, child, (m.page x).child 1, (m.page x).child 2, (m.page x).rightChild].Nodup := by
  have hnodup := h.nodup
  rw [children_full h.full] at hnodup
  exact hnodup.sublist (by simp)

/-- The pages the code gets. -/
theorem page_spec (h : Splits K T m x new child) {q : ℕ}
    (hq : q ∈ [x, new, child, (m.page x).child 1, (m.page x).child 2, (m.page x).rightChild]) :
    T q ∧ m.cached q = true ∧ q < 2 ^ 32 ∧ q ≠ invalidPageNum := by
  have hpages := h.pages
  rw [children_full h.full] at hpages
  exact hpages q hq

/-- The pages whose last key the code asks for. -/
theorem maxOk (h : Splits K T m x new child) {q : ℕ}
    (hq : q ∈ [child, (m.page x).child 1, (m.page x).child 2, (m.page x).rightChild]) :
    MaxOk K (m.page q) := by
  have hmax := h.max
  rw [children_full h.full] at hmax
  exact hmax q hq

theorem moves (h : Splits K T m x new child) :
    Moves K T m x new ((m.page x).child 2) (m.page x).rightChild where
  node := h.node
  full := h.full
  child := rfl
  right := rfl
  newKeys := h.newKeys
  newRight := h.newRight
  newValid := (h.page_spec (by simp)).2.2.2
  nodup := h.distinct.sublist (by simp)
  pages q hq := by
    have hsub : [new, (m.page x).child 2, (m.page x).rightChild] ⊆
        [x, new, child, (m.page x).child 1, (m.page x).child 2, (m.page x).rightChild] := by simp
    obtain ⟨hT, hcached, -⟩ := h.page_spec (hsub hq)
    exact ⟨hT, hcached⟩
  children q hq := by
    have hsub : [(m.page x).child 2, (m.page x).rightChild] ⊆
        [child, (m.page x).child 1, (m.page x).child 2, (m.page x).rightChild] := by simp
    have hsub' : [child, (m.page x).child 1, (m.page x).child 2, (m.page x).rightChild] ⊆
        [x, new, child, (m.page x).child 1, (m.page x).child 2, (m.page x).rightChild] := by simp
    exact ⟨(h.page_spec (hsub' (hsub hq))).2.2.1, h.maxOk (hsub hq)⟩

/-- What `new` is when the upper half has moved. -/
theorem upper (h : Splits K T m x new child) {n' : Page}
    (hn' : AddChild ((m.page new).store .rightChild (m.page x).rightChild) ((m.page x).child 2)
      (m.page ((m.page x).child 2)).maxKey (m.page (m.page x).rightChild).maxKey n') :
        UpperHalf m x new n' := by
  obtain ⟨-, -, hr32, hrv⟩ := h.page_spec (q := (m.page x).rightChild) (by simp)
  have hhead :
      ((m.page new).store .rightChild (m.page x).rightChild).SameHeader (m.page new) [10] :=
    SameHeader.store_header .rightChild _
  obtain ⟨hkeys, hslot, hchildren⟩ :=
    hn'.second ((hhead.numKeys (by simp)).trans h.newKeys) (rightChild_store hr32) hrv
  refine ⟨(hn'.isLeaf.trans (hhead.isLeaf (by simp))).trans h.newLeaf, hkeys, ?_, hchildren⟩
  exact (congrArg Prod.fst hslot).trans (load_body_store_header _ .rightChild (.internalCell 1))

/-- What `x` is when the upper half has moved. -/
theorem lower (h : Splits K T m x new child) {x' : Page} (hx' : LowerHalf (m.page x) x') :
    x'.isLeaf = false ∧ x'.numKeys = 1 ∧ x'.rightChild = (m.page x).child 1 :=
  ⟨(hx'.header.isLeaf (by simp)).trans h.node.not_isLeaf, hx'.numKeys, hx'.right⟩

/-- Pages other than the two nodes keep their keys. -/
theorem moved_maxKey (n' x' : Page) {q : ℕ} (hx : q ≠ x) (hn : q ≠ new) :
    ((m.moved x new n' x').page q).maxKey = (m.page q).maxKey ∧
      (MaxOk K (m.page q) → MaxOk K ((m.moved x new n' x').page q)) := by
  rw [moved_page, if_neg hx, if_neg hn]
  split_ifs
  · exact ⟨maxKey_store_parent _ _, fun hq => hq.store_parent new⟩
  · exact ⟨maxKey_store_parent _ _, fun hq => hq.store_parent new⟩
  · exact ⟨rfl, id⟩

end

end Splits

omit [DecidablePred K] [DecidablePred T] in
/-- The halves are nodes with one or two keys. -/
theorem Halved.node {n' x' a' : Page} {d : ℕ} (h : Halved m x new child n' x' d a')
    (hs : Splits K T m x new child) {q : ℕ}
    (hq : q = x ∨ q = new) : (((m.moved x new n' x').placed d child a').page q).isLeaf = false ∧
      1 ≤ (((m.moved x new n' x').placed d child a').page q).numKeys ∧
      (((m.moved x new n' x').placed d child a').page q).numKeys ≤ 2 := by
  have hnodup := hs.distinct
  simp only [List.nodup_cons, List.mem_cons, List.not_mem_nil, or_false, not_or] at hnodup
  obtain ⟨⟨hxn, hxchild, -⟩, ⟨hnchild, -⟩, -⟩ := hnodup
  obtain ⟨-, -, -, hv1⟩ := hs.page_spec (q := (m.page x).child 1) (by simp)
  obtain ⟨-, -, -, hv2⟩ := hs.page_spec (q := (m.page x).child 2) (by simp)
  obtain ⟨-, -, -, hvr⟩ := hs.page_spec (q := (m.page x).rightChild) (by simp)
  have hn := hs.upper h.upper
  obtain ⟨hxl, hxk, hxr⟩ := hs.lower h.lower
  have hnr : n'.rightChild ≠ invalidPageNum := by
    rcases hn.children with ⟨hr, -⟩ | ⟨hr, -⟩
    · rw [hr]; exact hv2
    · rw [hr]; exact hvr
  -- the half that took the new child has two keys, the other one or two
  have ha : a'.isLeaf = false ∧ a'.numKeys = 2 := by
    have hplaced := h.placed
    split at hplaced
    · exact ⟨hplaced.isLeaf.trans hxl, by rw [hplaced.numKeys (by rw [hxr]; exact hv1), hxk]⟩
    · exact ⟨hplaced.isLeaf.trans hn.isLeaf, by rw [hplaced.numKeys hnr, hn.numKeys]⟩
  have hqc : q ≠ child := by
    rcases hq with rfl | rfl
    · exact hxchild
    · exact hnchild
  rw [placed_page, if_neg hqc]
  split
  · exact ⟨ha.1, by omega, by omega⟩
  · rw [moved_page]
    rcases hq with rfl | rfl
    · rw [if_pos rfl]
      exact ⟨hxl, by omega, by omega⟩
    · have hk := hn.numKeys
      rw [if_neg (Ne.symm hxn), if_pos rfl]
      exact ⟨hn.isLeaf, by omega, by omega⟩

theorem Halved.dest_or {n' x' a' : Page} {d : ℕ} (h : Halved m x new child n' x' d a') :
    d = x ∨ d = new := by
  rw [h.dest]
  split
  · exact Or.inl rfl
  · exact Or.inr rfl

omit [DecidablePred K] [DecidablePred T] in
/-- The halves keep the header of the old node but for its children. -/
theorem Halved.parent {n' x' a' : Page} {d : ℕ} (h : Halved m x new child n' x' d a')
    (hs : Splits K T m x new child) :
    (((m.moved x new n' x').placed d child a').page x).parent = (m.page x).parent := by
  have hxc : x ≠ child := by
    have hnodup := hs.nodup
    simp only [List.nodup_cons, List.mem_cons, not_or] at hnodup
    exact hnodup.1.2.1
  have hplaced := h.placed
  rw [placed_page, if_neg hxc]
  split
  · rename_i hxd
    rw [if_pos hxd.symm] at hplaced
    rw [hplaced.header.parent (by simp), h.lower.header.parent (by simp)]
  · rw [moved_page, if_pos rfl, h.lower.header.parent (by simp)]

/-- The half `b`, at `d`, that gets the child, before it does. Its last child is `R`. -/
structure Dest (K T : ℕ → Prop) (m M : Mem) (x new child d R : ℕ) (b : Page) : Prop where
  page : M.page d = b
  got : T d ∧ m.cached d = true
  ne : d ≠ child
  numKeys : b.numKeys = 1
  cell : b.child 0 ≠ invalidPageNum
  right : b.rightChild = R
  last : R = (m.page x).child 1 ∨ R = (m.page x).child 2 ∨ R = (m.page x).rightChild
  lastNe : R ≠ x ∧ R ≠ new ∧ R ≠ d

omit [DecidablePred K] [DecidablePred T] in
/-- The half that gets the child is a node with one key, and its last child another page. -/
theorem Splits.dest (h : Splits K T m x new child) {n' x' : Page} {d : ℕ}
    (hn' : AddChild ((m.page new).store .rightChild (m.page x).rightChild) ((m.page x).child 2)
      (m.page ((m.page x).child 2)).maxKey (m.page (m.page x).rightChild).maxKey n')
    (hx' : LowerHalf (m.page x) x') (hd : d = x ∨ d = new) :
    Dest K T m (m.moved x new n' x') x new child d (if d = x then x' else n').rightChild (if d =
      x then x' else n') := by
  have hnodup := h.distinct
  simp only [List.nodup_cons, List.mem_cons, List.not_mem_nil, or_false, not_or] at hnodup
  obtain ⟨⟨hxn, hxchild, hx1, hx2, hxr⟩, ⟨hnchild, hn1, hn2, hnr⟩, -⟩ := hnodup
  have hn := h.upper hn'
  obtain ⟨-, hxk, hxright⟩ := h.lower hx'
  -- neither half is one of the children
  have hlast : ∀ R, R = (m.page x).child 1 ∨ R = (m.page x).child 2 ∨ R = (m.page x).rightChild →
      R ≠ x ∧ R ≠ new := by
    rintro R (rfl | rfl | rfl)
    · exact ⟨Ne.symm hx1, Ne.symm hn1⟩
    · exact ⟨Ne.symm hx2, Ne.symm hn2⟩
    · exact ⟨Ne.symm hxr, Ne.symm hnr⟩
  rcases hd with rfl | rfl
  · obtain ⟨hT, hcached, -⟩ := h.page_spec (q := d) (by simp)
    rw [if_pos rfl]
    have hmem := Or.inl (b := x'.rightChild = (m.page d).child 2 ∨
      x'.rightChild = (m.page d).rightChild) hxright
    obtain ⟨hRx, hRn⟩ := hlast _ hmem
    refine ⟨by rw [moved_page, if_pos rfl], ⟨hT, hcached⟩, hxchild, hxk, ?_, rfl, hmem, hRx,
      hRn, hRx⟩
    rw [child_of_slot (hx'.slot 0 (by omega))]
    exact h.node.cell 0 (by rw [h.full]; omega)
  · obtain ⟨hT, hcached, -⟩ := h.page_spec (q := d) (by simp)
    rw [if_neg (Ne.symm hxn)]
    have hmem : n'.rightChild = (m.page x).child 1 ∨ n'.rightChild = (m.page x).child 2 ∨
        n'.rightChild = (m.page x).rightChild := Or.inr (hn.children.imp And.left And.left)
    obtain ⟨hRx, hRn⟩ := hlast _ hmem
    refine ⟨by rw [moved_page, if_neg (Ne.symm hxn), if_pos rfl], ⟨hT, hcached⟩, hnchild,
      hn.numKeys, ?_, rfl, hmem,
      hRx, hRn, hRn⟩
    rcases hn.children with ⟨-, h0⟩ | ⟨-, h0⟩
    · rw [h0]
      exact (h.page_spec (by simp)).2.2.2
    · rw [h0]
      exact (h.page_spec (by simp)).2.2.2

/-- The child goes to one of the halves. -/
theorem Splits.wp_place {fuel d : ℕ} {n' x' : Page} (h : Splits K T m x new child)
    (hK : ∀ i < 3, K i)
    (hslot0 : (m.page new).child 0 ≠ invalidPageNum)
    (hn' : AddChild ((m.page new).store .rightChild (m.page x).rightChild) ((m.page x).child 2)
      (m.page ((m.page x).child 2)).maxKey (m.page (m.page x).rightChild).maxKey n')
    (hx' : LowerHalf (m.page x) x')
    (hd : d = if (m.page child).maxKey < (m.page x).sep 0 then x else new)
    (hexit : ¬ (m.page child).maxKey < (m.page x).sep 0 →
      ((m.page n'.rightChild).maxKey < (m.page child).maxKey ∨
        n'.findChild (m.page child).maxKey = 1) →
      (m.page new).child 1 = invalidPageNum → ∀ e m', F (.exit e) m')
    (hQ : ∀ a', Halved m x new child n' x' d a' → Q () ((m.moved x new n' x').set d a')) :
    wp (handler K T) (internalNodeInsert fuel d child) Q F (m.moved x new n' x') := by
  obtain ⟨split, k', hins⟩ := internalNodeInsert_eq fuel
  -- the key decides between the two halves
  have hdcases : d = x ∧ (m.page child).maxKey < (m.page x).sep 0 ∨
      d = new ∧ ¬ (m.page child).maxKey < (m.page x).sep 0 := by
    split at hd
    · exact Or.inl ⟨hd, ‹_›⟩
    · exact Or.inr ⟨hd, ‹_›⟩
  have hdest := h.dest hn' hx' (hdcases.imp And.left And.left)
  have hnodup := h.distinct
  simp only [List.nodup_cons, List.mem_cons, List.not_mem_nil, or_false, not_or] at hnodup
  obtain ⟨⟨hxn, hxchild, -⟩, ⟨hnchild, -⟩, -⟩ := hnodup
  obtain ⟨b, hb⟩ : ∃ b, (if d = x then x' else n') = b := ⟨_, rfl⟩
  obtain ⟨R, hR⟩ : ∃ R, b.rightChild = R := ⟨_, rfl⟩
  rw [hb, hR] at hdest
  obtain ⟨hMd, ⟨hTd, hcd⟩, -, hbKeys, hb0, -, hRmem, hRx, hRn, hRd⟩ := hdest
  -- the right child of either half is one of the old children
  obtain ⟨hTR, hcR, -, hRv⟩ := h.page_spec (q := R) (by rcases hRmem with rfl | rfl | rfl <;> simp)
  have hRok := h.maxOk (q := R) (by rcases hRmem with rfl | rfl | rfl <;> simp)
  obtain ⟨hTc, hcc, hc32, -⟩ := h.page_spec (q := child) (by simp)
  obtain ⟨hMR, hMRok⟩ := moved_maxKey (K := K) (m := m) n' x' hRx hRn
  obtain ⟨hMchild, hMchildOk⟩ :=
    moved_maxKey (K := K) (m := m) n' x' (Ne.symm hxchild) (Ne.symm hnchild)
  rw [hins]
  refine wp_internalNodeInsertStep_room (by rw [hMd, hbKeys]; omega)
    (by rw [hMd, hR]; exact hRd) hTd hTc
    (fun _ => by rw [hMd, hR]; exact hTR) hcd hcc (fun _ => by rw [hMd, hR]; exact hcR)
    (hMchildOk (h.maxOk (by simp))) (fun _ => by rw [hMd, hR]; exact hMRok hRok)
    hc32 hK (fun _ hplace hv => ?_) (fun i hi => ?_) fun a' ha' hslot => ?_
  · rw [hMd, hR, hMR, hMchild, hbKeys] at hplace
    rw [hMd, hbKeys] at hv
    rcases hdcases with ⟨rfl, -⟩ | ⟨rfl, hge⟩
    · -- the cell behind that of the lower half is the one that has become its right child
      rw [if_pos rfl] at hb
      rw [← hb, child_of_slot (hx'.slot 1 (by omega))] at hv
      exact absurd hv (h.node.cell 1 (by rw [h.full]; omega))
    · rw [if_neg (Ne.symm hxn)] at hb
      subst hb
      rw [(h.upper hn').child] at hv
      exact hexit hge (by rw [hR]; exact hplace) hv
  · rw [hMd, hbKeys] at hi
    rw [hMd, show i = 0 by omega]
    exact hb0
  · rw [hMd, hR, hMR, hMchild] at ha'
    rw [hMd, hR, hMR, hMchild, hbKeys] at hslot
    refine hQ a' ⟨hslot0, hn', hx', hd, by rw [hb, hR]; exact ha', fun hdn hplace => ?_⟩
    rw [hdn, if_neg (Ne.symm hxn)] at hb
    subst hb
    rw [hR] at hplace
    have hne := hslot hRv hplace
    rwa [(h.upper hn').child] at hne

/-- **The two halves**, child by child. -/
theorem wp_splitHalves {fuel k g oldMax : ℕ} (h : Splits K T m x new child) (hK : ∀ i < 3, K i)
    (hexit0 : (m.page new).child 0 = invalidPageNum → ∀ e m', F (.exit e) m')
    (hexit1 : ∀ n', AddChild ((m.page new).store .rightChild (m.page x).rightChild)
      ((m.page x).child 2)
        (m.page ((m.page x).child 2)).maxKey (m.page (m.page x).rightChild).maxKey n' →
      ¬ (m.page child).maxKey < (m.page x).sep 0 →
      ((m.page n'.rightChild).maxKey < (m.page child).maxKey ∨
        n'.findChild (m.page child).maxKey = 1) →
      (m.page new).child 1 = invalidPageNum → ∀ e m', F (.exit e) m')
    (hQ : ∀ n' x' d a', Halved m x new child n' x' d a' →
      wp (handler K T)
      (updateInternalNodeKey g oldMax (((m.moved x new n' x').placed d child a').page x).maxKey) Q F
        ((m.moved x new n' x').placed d child a')) :
    wp (handler K T)
      (splitHalves (internalNodeInsert fuel) k x g child x new child oldMax (m.page child).maxKey) Q
        F m := by
  unfold splitHalves
  rw [wp_bind]
  refine wp_moveUpperHalf h.moves hK hexit0 fun n' x' hn' hx' hslot0 => ?_
  -- the last key of what is left of the node says where the child goes
  have hMx : (m.moved x new n' x').page x = x' := by rw [moved_page, if_pos rfl]
  obtain ⟨hxl, hxk, -⟩ := h.lower hx'
  have hxOk : MaxOk K x' := MaxOk.of_inner hxl (by omega) (by omega) hK
  rw [wp_bind, wp_getNodeMaxKey _ (by rw [hMx]; exact hxOk), hMx,
    LowerHalf.maxKey hx' h.node.internal, wp_bind]
  refine h.wp_place hK hslot0 hn' hx' rfl (hexit1 n' hn') fun a' hh => ?_
  generalize (if (m.page child).maxKey < (m.page x).sep 0 then x else new) = d at hh
  have hdchild := (h.dest hn' hx' hh.dest_or).ne
  have hplaced : ((m.moved x new n' x').set d a').set child
      ((((m.moved x new n' x').set d a').page child).store .parent d) =
        (m.moved x new n' x').placed d child a' := by
    rw [page_set_ne _ _ (Ne.symm hdchild)]
    rfl
  obtain ⟨hl, hk1, hk2⟩ := hh.node h (Or.inl rfl)
  simp only [wp_bind, wp_store (access_header .parent)]
  rw [hplaced, wp_getNodeMaxKey _ (MaxOk.of_inner hl hk1 (by omega) hK)]
  exact hQ n' x' d a' hh

end Mem

namespace LeafParent

open Page Mem

variable {m : Mem} {T : ℕ → Prop} [DecidablePred T] {x child : ℕ} {F : Fault → Mem → Prop}
    {Q : Unit → Mem → Prop}

theorem children_lt (h : LeafParent m.page m.numPages x) {q : ℕ} (hq : q ∈ (m.page x).children) :
    q < m.numPages ∧ q ≠ x ∧ (m.page q).isLeaf = true ∧ (m.page q).numCells ≤ 15 := by
  obtain ⟨i, hi⟩ := List.getElem?_of_mem hq
  obtain ⟨hle, rfl⟩ := getElem?_children.1 hi
  exact ⟨h.childLt i hle, h.childAt_ne hle, h.leaf i hle, h.numCells i hle⟩

theorem node (h : LeafParent m.page m.numPages x) (h3 : (m.page x).numKeys = 3) :
    (m.page x).Node where
  internal := h.internal
  pos := by omega
  le := by omega
  right := h.ne_invalid (childAt_numKeys (a := m.page x) ▸ h.childLt _ le_rfl)
  cell i hi := by
    rw [← childAt_of_lt hi]
    exact h.ne_invalid (h.childLt i hi.le)

/-- The children are pairwise different, since all but the last have keys. -/
theorem nodup_children (h : LeafParent m.page m.numPages x) : (m.page x).children.Nodup := by
  rw [children_eq, List.nodup_map_iff_inj_on List.nodup_range]
  intro i hi j hj heq
  rw [List.mem_range, Nat.lt_succ_iff] at hi hj
  rcases hi.lt_or_eq with hlt | rfl
  · exact h.eq_of_childAt hlt hj heq
  · rcases hj.lt_or_eq with hlt | rfl
    · exact (h.eq_of_childAt hlt le_rfl heq.symm).symm
    · rfl

/-- The new leaf is none of the children. -/
theorem not_mem_children (hc : NewLeaf m.page m.numPages x child) :
    child ∉ (m.page x).children := by
  intro hmem
  obtain ⟨i, hi⟩ := List.getElem?_of_mem hmem
  obtain ⟨hi, heq⟩ := getElem?_children.1 hi
  obtain ⟨k, hk⟩ := List.exists_mem_of_ne_nil _ hc.ne_nil
  have hk' : k ∈ (below m.page x i).keys := by rw [below, heq]; exact hk
  rcases hc.apart i hi with hlt | hlt
  · exact lt_irrefl k (hlt k hk k hk')
  · exact lt_irrefl k (hlt k hk k hk')

/-- The memory before the upper half moves. The node is at `y`: where it was, or where
`create_new_root` has put it. -/
theorem splits {K T : ℕ → Prop} {m₀ : Mem} {y : ℕ} (h : LeafParent m.page m.numPages x)
    (hc : NewLeaf m.page m.numPages x child) (hnode : (m₀.page y).Node)
    (h3 : (m₀.page y).numKeys = 3)
    (hchildren : (m₀.page y).children = (m.page x).children)
    (hy : y ∉ m.numPages :: child :: (m.page x).children)
    (hnew : (m₀.page m.numPages).numKeys = 0 ∧ (m₀.page m.numPages).rightChild = invalidPageNum ∧
      (m₀.page m.numPages).isLeaf = false)
    (hpage : ∀ q ∈ child :: (m.page x).children.tail, (m₀.page q).erase = (m.page q).erase)
    (hpages : ∀ q ∈ y :: m.numPages :: child :: (m.page x).children.tail,
      T q ∧ m₀.cached q = true ∧ q < filePagesNum) : Splits K T m₀ y m.numPages child := by
  have hchild := not_mem_children hc
  have htail : ∀ q ∈ (m.page x).children.tail, q ∈ (m.page x).children :=
    fun q => List.mem_of_mem_tail
  -- the page just allocated is none of the children
  have hnot : m.numPages ∉ (m.page x).children :=
    fun hmem => absurd (h.children_lt hmem).1 (lt_irrefl _)
  refine ⟨hnode, h3, hnew.1, hnew.2.1, hnew.2.2, ?_, ?_, ?_⟩
  · rw [hchildren]
    refine List.nodup_cons.2
      ⟨hy, List.nodup_cons.2 ⟨?_, List.nodup_cons.2 ⟨hchild, h.nodup_children⟩⟩⟩
    rw [List.mem_cons, not_or]
    exact ⟨hc.lt.ne', hnot⟩
  · rw [hchildren]
    intro q hq
    obtain ⟨hTq, hcq, hlt⟩ := hpages q hq
    unfold filePagesNum at hlt
    exact ⟨hTq, hcq, by omega, by unfold invalidPageNum; omega⟩
  · rw [hchildren]
    intro q hq
    have hleaf : (m.page q).isLeaf = true ∧ (m.page q).numCells ≤ 15 := by
      rcases List.mem_cons.1 hq with rfl | hmem
      · exact ⟨hc.leaf, hc.numCells⟩
      · exact (h.children_lt (htail q hmem)).2.2
    refine ⟨fun _ => ?_, fun hn => absurd ?_ hn⟩
    · rw [numCells_of_erase (hpage q hq)]
      exact hleaf.2
    · rw [isLeaf_of_erase (hpage q hq)]
      exact hleaf.1

/-- A full node ends with its last separator. -/
theorem maxKey_full {a : Page} (hi : a.isInternal = true) (h3 : a.numKeys = 3) :
    a.maxKey = a.sep 2 := by
  rw [maxKey, not_isLeaf_of_isInternal hi, if_neg Bool.false_ne_true, h3]

/-- The unused page is an empty node. -/
def emptyNode (m : Mem) : Mem := m.alloc.set m.numPages (m.page m.numPages).initInternal

theorem emptyNode_page {q : ℕ} (hq : q < m.numPages) : (emptyNode m).page q = m.page q := by
  rw [emptyNode, page_set_ne _ _ hq.ne, page_alloc]

theorem emptyNode_new : (emptyNode m).page m.numPages = (m.page m.numPages).initInternal :=
  page_set_self _ _ _

theorem child_initInternal (a : Page) (i : ℕ) : a.initInternal.child i = a.child i :=
  child_of_slot (slot_initInternal a i)

/-- The node above after the stray write. -/
def strayAbove (a : Page) (index v : ℕ) : Page := a.store (.internalKey index) v

/-- The stray write is not in the header. -/
theorem SameHeader.strayAbove (a : Page) (i v : ℕ) : (strayAbove a i v).SameHeader a [] :=
  SameHeader.store_body (.internalKey i) v

theorem child_strayAbove (a : Page) (i v : ℕ) {j : ℕ} (hj : j < 500) :
    (strayAbove a i v).child j = a.child j :=
  load_internalCell_store_internalKey a (by omega)

omit [DecidablePred T] in
/-- The pages of the split of a node that is not the root. -/
theorem splits_emptyNode (h : LeafParent m.page m.numPages x) (hm : m.Tight)
    (h3 : (m.page x).numKeys = 3)
    (hc : NewLeaf m.page m.numPages x child) (hN : m.numPages < filePagesNum) (hTx : T x)
    (hTN : T m.numPages)
    (hTc : T child) (hT : ∀ q ∈ (m.page x).children.tail, T q) :
    Splits (fun _ => True) T (emptyNode m) x m.numPages child := by
  have hcached : ∀ q ≤ m.numPages, (emptyNode m).cached q = true := fun q hq => hm.cached_alloc hq
  have hpx : (emptyNode m).page x = m.page x := emptyNode_page h.lt
  have htail : ∀ q ∈ (m.page x).children.tail, q < m.numPages :=
    fun q hq => (h.children_lt (List.mem_of_mem_tail hq)).1
  refine h.splits hc (by rw [hpx]; exact h.node h3) (by rw [hpx]; exact h3) (by rw [hpx]) ?_
    (by rw [emptyNode_new]; exact ⟨numKeys_initInternal _, rightChild_initInternal _,
      not_isLeaf_of_isInternal (isInternal_initInternal _)⟩)
    (fun q hq => congrArg erase (emptyNode_page ?_)) fun q hq => ?_
  · simp only [List.mem_cons, not_or]
    refine ⟨h.lt.ne, ?_, fun hmem => (h.children_lt hmem).2.1 rfl⟩
    rintro rfl
    have hl := hc.leaf
    rw [not_isLeaf_of_isInternal h.internal] at hl
    cases hl
  · rcases List.mem_cons.1 hq with rfl | hq
    · exact hc.lt
    · exact htail q hq
  · simp only [List.mem_cons] at hq
    rcases hq with rfl | rfl | rfl | hq
    · exact ⟨hTx, hcached _ h.lt.le, h.lt.trans hN⟩
    · exact ⟨hTN, hcached _ le_rfl, hN⟩
    · exact ⟨hTc, hcached _ hc.lt.le, hc.lt.trans hN⟩
    · exact ⟨hT q hq, hcached q (htail q hq).le, (htail q hq).trans hN⟩

/-- The other nodes stay as they are. -/
theorem halved_page {n' x' a' : Page} {d q : ℕ} (h : LeafParent m.page m.numPages x)
    (h3 : (m.page x).numKeys = 3)
    (hc : NewLeaf m.page m.numPages x child)
    (hh : Halved (emptyNode m) x m.numPages child n' x' d a')
    (hq : q < m.numPages) (hqx : q ≠ x) (hl : (m.page q).isLeaf = false) :
    (((emptyNode m).moved x m.numPages n' x').placed d child a').page q = m.page q := by
  have hx : (emptyNode m).page x = m.page x := emptyNode_page h.lt
  have hqc : q ≠ child := by
    rintro rfl
    rw [hc.leaf] at hl
    cases hl
  rw [placed_moved_page hh.dest_or hqx hq.ne hqc (fun hmem => ?_) (by rw [hx]; exact h3),
    emptyNode_page hq]
  rw [hx] at hmem
  rw [(h.children_lt hmem).2.2.1] at hl
  cases hl

/-- The split of a node that is not the root, up to the halves. -/
theorem wp_emptied {fuel P : ℕ} {insert : ℕ → ℕ → Prog ℕ Unit} (h : LeafParent m.page m.numPages x)
    (hm : m.Tight)
    (h3 : (m.page x).numKeys = 3) (hroot : (m.page x).isRoot = false)
    (hc : NewLeaf m.page m.numPages x child)
    (hP : (m.page x).parent = P) (hPlt : P < m.numPages) (hT : T x ∧ T m.numPages ∧ T child ∧ T P)
    (hQ : wp (handler (fun _ => True) T) (do
      splitHalves insert fuel x P child x m.numPages child ((m.page x).sep 2)
        ((emptyNode m).page child).maxKey
      insert (← load x .parent) m.numPages
      store m.numPages .parent (← load x .parent)) Q F (emptyNode m)) :
    wp (handler (fun _ => True) T) (internalNodeSplitAndInsert insert fuel x child) Q F m := by
  obtain ⟨hTx, hTN, hTc, hTP⟩ := hT
  have hnode := h.node h3
  have hchildOk : MaxOk (fun _ => True) (m.page child) :=
    ⟨fun _ => hc.numCells, fun hn => absurd hc.leaf hn⟩
  have halloc : m.touch m.numPages = m.alloc := rfl
  unfold internalNodeSplitAndInsert
  simp only [wp_bind, wp_getPage hTx, hm.touch_of_lt h.lt,
    wp_getNodeMaxKey _ (hnode.maxOk fun _ _ => trivial),
    wp_getPage hTc, hm.touch_of_lt hc.lt, wp_getNodeMaxKey _ hchildOk, wp_getUnusedPage,
    wp_isNodeRoot, hroot,
    Bool.false_eq_true, if_false, wp_load (access_header .parent), load_parent, hP, wp_getPage hTP,
    hm.touch_of_lt hPlt, wp_getPage hTN, halloc, wp_initializeInternalNode, page_alloc,
    maxKey_full h.internal h3]
  rw [emptyNode_page hc.lt] at hQ
  simp only [wp_bind, wp_load (access_header .parent), load_parent] at hQ
  exact hQ

/-- What the rest of the split finds, when the node `x` below `P` is in halves. -/
structure InHalves (m M : Mem) (x P : ℕ) : Prop where
  above : M.page P = m.page P
  parent : (M.page x).parent = P
  cached : M.cached = (emptyNode m).cached
  maxNew : MaxOk (fun _ => True) (M.page m.numPages)
  maxRight : MaxOk (fun _ => True) (M.page (m.page P).rightChild)

omit [DecidablePred T] in
/-- The node above is none of the pages of the split. -/
theorem inHalves {n' x' a' : Page} {d P : ℕ} (h : LeafParent m.page m.numPages x)
    (h3 : (m.page x).numKeys = 3)
    (hc : NewLeaf m.page m.numPages x child) (hP : (m.page x).parent = P)
    (hg : RoomAbove m.page m.numPages P)
    (hs : Splits (fun _ => True) T (emptyNode m) x m.numPages child)
    (hh : Halved (emptyNode m) x m.numPages child n' x' d a') :
    InHalves m (((emptyNode m).moved x m.numPages n' x').placed d child a') x P := by
  have hPx : P ≠ x := by
    rintro rfl
    have hk : (m.page P).numKeys < 3 := hg.numKeys
    omega
  have hhalf : ∀ {q}, q = x ∨ q = m.numPages →
      MaxOk (fun _ => True)
        ((((emptyNode m).moved x m.numPages n' x').placed d child a').page q) := by
    intro q hq
    obtain ⟨hl, h1, h2⟩ := hh.node hs hq
    exact MaxOk.of_inner hl h1 (by omega) fun _ _ => trivial
  refine ⟨h.halved_page h3 hc hh hg.lt hPx (not_isLeaf_of_isInternal hg.internal), ?_, rfl,
    hhalf (Or.inr rfl), ?_⟩
  · rw [hh.parent hs, emptyNode_page h.lt, hP]
  · obtain ⟨hRlt, -⟩ := hg.childLt _ le_rfl
    obtain ⟨hRi, hR1, hR3⟩ := hg.inner _ le_rfl
    rw [childAt_numKeys] at hRlt
    rw [below, childAt_numKeys] at hRi hR1 hR3
    by_cases hRx : (m.page P).rightChild = x
    · rw [hRx]
      exact hhalf (Or.inl rfl)
    · have hRl := not_isLeaf_of_isInternal hRi
      rw [h.halved_page h3 hc hh hRlt hRx hRl]
      exact MaxOk.of_inner hRl (by omega) hR3 fun _ _ => trivial

/-- The stray write to the node above, and the new node into it. -/
theorem wp_linkAbove {P v w : ℕ} {M : Mem} (fuel : ℕ) (h : LeafParent m.page m.numPages x)
    (hm : m.Tight)
    (hg : RoomAbove m.page m.numPages P) (hN : m.numPages < filePagesNum) (hA : InHalves m M x P)
    (hPx : P ≠ x)
    (hT : T m.numPages ∧ T P ∧ T (m.page P).rightChild)
    (hpast : ¬ Access (fun _ => True) (m.page P) (.internalKey v) → ∀ m', F .outOfPage m')
    (hexit : ((M.page (m.page P).rightChild).maxKey < (M.page m.numPages).maxKey ∨
        (strayAbove (m.page P) v w).findChild (M.page m.numPages).maxKey =
          (strayAbove (m.page P) v w).numKeys) →
      (strayAbove (m.page P) v w).child (strayAbove (m.page P) v w).numKeys = invalidPageNum →
        ∀ e m', F (.exit e) m')
    (hQ : ∀ a'', Access (fun _ => True) (m.page P) (.internalKey v) →
      AddChild (strayAbove (m.page P) v w) m.numPages (M.page m.numPages).maxKey
        (M.page (m.page P).rightChild).maxKey a'' →
      (((M.page (m.page P).rightChild).maxKey < (M.page m.numPages).maxKey ∨
        (strayAbove (m.page P) v w).findChild (M.page m.numPages).maxKey =
          (strayAbove (m.page P) v w).numKeys) →
        (strayAbove (m.page P) v w).child (strayAbove (m.page P) v w).numKeys ≠ invalidPageNum) →
      Q () ((M.set P a'').set m.numPages ((M.page m.numPages).store .parent P))) :
    wp (handler (fun _ => True) T) (do
      updateInternalNodeKey P v w
      internalNodeInsert fuel (← load x .parent) m.numPages
      store m.numPages .parent (← load x .parent)) Q F M := by
  obtain ⟨hTN, hTP, hTR⟩ := hT
  unfold updateInternalNodeKey
  by_cases hacc : Access (fun _ => True) (m.page P) (.internalKey v)
  · have hcached : ∀ q ≤ m.numPages, M.cached q = true :=
      fun q hq => by rw [hA.cached]; exact hm.cached_alloc hq
    obtain ⟨a, ha⟩ : ∃ a, strayAbove (m.page P) v w = a := ⟨_, rfl⟩
    obtain ⟨R, hR⟩ : ∃ R, (m.page P).rightChild = R := ⟨_, rfl⟩
    have hhead : a.SameHeader (m.page P) [] := by rw [← ha]; exact SameHeader.strayAbove _ _ _
    have haR : a.rightChild = R := (hhead.rightChild (by simp)).trans hR
    have haK : a.numKeys = (m.page P).numKeys := hhead.numKeys (by simp)
    obtain ⟨hRlt, hRP⟩ := hg.childLt _ le_rfl
    rw [childAt_numKeys, hR] at hRlt hRP
    have hPN : m.numPages ≠ P := hg.lt.ne'
    obtain ⟨split, k, hins⟩ := internalNodeInsert_eq fuel
    simp only [wp_bind, wp_load (access_header .parent), load_parent]
    rw [wp_store (by rw [hA.above]; exact hacc), hA.above]
    change wp _ _ _ _ (M.set P (strayAbove (m.page P) v w))
    rw [ha, page_set_ne _ _ (Ne.symm hPx), hA.parent, hins]
    rw [ha, hR] at hexit
    -- the pages the insertion looks at
    have hself : (M.set P a).page P = a := page_set_self _ _ _
    have hMN : (M.set P a).page m.numPages = M.page m.numPages := page_set_ne _ _ hPN
    have hMR : (M.set P a).page R = M.page R := page_set_ne _ _ hRP
    have hMRok : MaxOk (fun _ => True) (M.page R) := hR ▸ hA.maxRight
    refine wp_internalNodeInsertStep_room (by rw [hself, haK]; exact hg.numKeys)
      (by rw [hself, haR]; exact hRP)
      hTP hTN (fun _ => by rw [hself, haR, ← hR]; exact hTR) (hcached P hg.lt.le) (hcached _ le_rfl)
      (fun _ => by rw [hself, haR]; exact hcached R hRlt.le) (by rw [hMN]; exact hA.maxNew)
      (fun _ => by rw [hself, haR, hMR]; exact hMRok) (by unfold filePagesNum at hN; omega)
      (fun _ _ => trivial)
      (fun _ hplace hv => ?_) (fun i hi => ?_) fun a'' ha'' hslot => ?_
    · rw [hself, haR, hMR, hMN] at hplace
      rw [hself] at hv
      exact hexit hplace hv
    · rw [hself, haK] at hi
      have hne := h.ne_invalid (hg.childLt i hi.le).1
      rw [childAt_of_lt hi] at hne
      have hk : (m.page P).numKeys < 3 := hg.numKeys
      rw [hself, ← ha, child_strayAbove _ _ _ (by omega)]
      exact hne
    · rw [hself, haR, hMR, hMN] at ha'' hslot
      rw [set_set, page_set_ne _ _ (Ne.symm hPx), hA.parent, wp_store (access_header .parent),
        page_set_ne _ _ hPN]
      refine hQ a'' hacc (by rw [ha, hR]; exact ha'') ?_
      rw [ha, hR]
      refine fun hplace => hslot ?_ hplace
      exact h.ne_invalid hRlt
  · rw [wp_bind, wp_store_of_not (by rw [hA.above]; exact hacc)]
    exact hpast hacc _

/-- **The split of a node that is not the root.** `B` holds if the run faults. -/
theorem wp_split_inner {fuel : ℕ} {B : Prop} {P : ℕ} (h : LeafParent m.page m.numPages x)
    (hm : m.Tight)
    (h3 : (m.page x).numKeys = 3) (hroot : (m.page x).isRoot = false)
    (hc : NewLeaf m.page m.numPages x child)
    (hP : (m.page x).parent = P) (hg : RoomAbove m.page m.numPages P)
    (hN : m.numPages < filePagesNum)
    (hT : ∀ q ∈ x :: m.numPages :: child :: P :: (m.page P).rightChild ::
      (m.page x).children.tail, T q)
    (hexit0 : (m.page m.numPages).child 0 = invalidPageNum → B)
    (hexit1 : ∀ n',
      AddChild (((emptyNode m).page m.numPages).store .rightChild ((emptyNode m).page x).rightChild)
        (((emptyNode m).page x).child 2)
        ((emptyNode m).page (((emptyNode m).page x).child 2)).maxKey
        ((emptyNode m).page ((emptyNode m).page x).rightChild).maxKey n' →
      ¬ ((emptyNode m).page child).maxKey < ((emptyNode m).page x).sep 0 →
      (((emptyNode m).page n'.rightChild).maxKey < ((emptyNode m).page child).maxKey ∨
        n'.findChild ((emptyNode m).page child).maxKey = 1) →
      ((emptyNode m).page m.numPages).child 1 = invalidPageNum → B)
    (hpast : ¬ Access (fun _ => True) (m.page P) (.internalKey ((m.page x).sep 2)) → B)
    (hexitP : ∀ n' x' d a' M a, Halved (emptyNode m) x m.numPages child n' x' d a' →
      M = ((emptyNode m).moved x m.numPages n' x').placed d child a' →
      a = strayAbove (m.page P) ((m.page x).sep 2) (M.page x).maxKey →
      ((M.page (m.page P).rightChild).maxKey < (M.page m.numPages).maxKey ∨
        a.findChild (M.page m.numPages).maxKey = a.numKeys) →
      a.child a.numKeys = invalidPageNum → B)
    (hQ : ∀ n' x' d a' M a a'', Halved (emptyNode m) x m.numPages child n' x' d a' →
      M = ((emptyNode m).moved x m.numPages n' x').placed d child a' →
      Access (fun _ => True) (m.page P) (.internalKey ((m.page x).sep 2)) →
      a = strayAbove (m.page P) ((m.page x).sep 2) (M.page x).maxKey →
      AddChild a m.numPages (M.page m.numPages).maxKey (M.page (m.page P).rightChild).maxKey a'' →
      (((M.page (m.page P).rightChild).maxKey < (M.page m.numPages).maxKey ∨
        a.findChild (M.page m.numPages).maxKey = a.numKeys) → a.child a.numKeys ≠ invalidPageNum) →
      Q () ((M.set P a'').set m.numPages ((M.page m.numPages).store .parent P))) :
    wp (handler (fun _ => True) T)
      (internalNodeSplitAndInsert (internalNodeInsert fuel) fuel x child) Q
      (fun e _ => (∀ what, e ≠ .outOfRange what) ∧ B) m := by
  simp only [List.forall_mem_cons] at hT
  obtain ⟨hTx, hTN, hTc, hTP, hTR, hTtail⟩ := hT
  have hfault : ∀ {e : Fault}, (∀ what, e ≠ .outOfRange what) → B →
      (∀ what, e ≠ .outOfRange what) ∧ B := fun h hB => ⟨h, hB⟩
  -- the parent has room and the node has not, so they are two pages
  have hPx : P ≠ x := by
    rintro rfl
    have hk : (m.page P).numKeys < 3 := hg.numKeys
    omega
  have hsplits := h.splits_emptyNode hm h3 hc hN hTx hTN hTc hTtail
  refine h.wp_emptied hm h3 hroot hc hP hg.lt ⟨hTx, hTN, hTc, hTP⟩ ?_
  rw [wp_bind]
  refine wp_splitHalves hsplits (fun _ _ => trivial) (fun hv e m' => ?_)
    (fun n' hn' hge hplace hv e m' => ?_)
    fun n' x' d a' hh => ?_
  · refine hfault (fun _ he => by cases he) (hexit0 ?_)
    rwa [emptyNode_new, child_initInternal] at hv
  · exact hfault (fun _ he => by cases he) (hexit1 n' hn' hge hplace hv)
  -- both halves are made; what is left is the separator above and the new node's parent
  · obtain ⟨M, hM⟩ : ∃ M, ((emptyNode m).moved x m.numPages n' x').placed d child a' = M := ⟨_, rfl⟩
    have hA := h.inHalves h3 hc hP hg hsplits hh
    rw [hM] at hA ⊢
    have hlink := wp_linkAbove fuel h (v := (m.page x).sep 2) (w := (M.page x).maxKey) (Q := Q)
      (F := fun e _ => (∀ what, e ≠ .outOfRange what) ∧ B) hm hg hN hA hPx ⟨hTN, hTP, hTR⟩
      (fun hacc _ => hfault (fun _ he => by cases he) (hpast hacc))
      (fun hplace hv _ _ => hfault (fun _ he => by cases he)
        (hexitP n' x' d a' M _ hh hM.symm rfl hplace hv))
      fun a'' hacc ha'' hslot => hQ n' x' d a' M _ a'' hh hM.symm hacc rfl ha'' hslot
    rw [wp_bind] at hlink
    exact hlink

/-! ## The split of the root -/

/-- The pages after `create_new_root`: the node has moved behind the empty node. -/
def risen (m : Mem) : Mem := (emptyNode m).newRoot m.numPages

theorem emptyNode_tight (hm : m.Tight) : (emptyNode m).Tight := hm.alloc.set m.numPages _

theorem emptyNode_numPages (hm : m.Tight) : (emptyNode m).numPages = m.numPages + 1 :=
  hm.numPages_alloc

theorem risen_page (h : LeafParent m.page m.numPages 0) (hm : m.Tight) (q : ℕ) : (risen m).page q =
    if q = 0 then (m.page 0).asRoot (m.numPages + 1) (m.page 0).maxKey m.numPages
    else if q = m.numPages + 1 then (m.page 0).asLeft
    else if q = m.numPages then (m.page m.numPages).initInternal.store .parent 0
    else if q ∈ (m.page 0).children then (m.page q).store .parent (m.numPages + 1)
    else (emptyNode m).page q := by
  have hpos : 0 < m.numPages := h.lt
  have h0 : (emptyNode m).page 0 = m.page 0 := emptyNode_page hpos
  have hadopted : (m.page 0).adopted = (m.page 0).children :=
    if_neg (by rw [not_isLeaf_of_isInternal h.internal]; exact Bool.false_ne_true)
  unfold risen
  rw [newRoot_page q hpos.ne' (by rw [emptyNode_numPages hm]; omega)
    (by rw [emptyNode_numPages hm]; omega), emptyNode_numPages hm, h0,
    emptyNode_new, hadopted]
  by_cases hq : q ∈ (m.page 0).children
  · rw [emptyNode_page (h.children_lt hq).1]
  · rw [if_neg hq, if_neg hq]

theorem risen_tight (hm : m.Tight) : (risen m).Tight := (emptyNode_tight hm).newRoot

theorem risen_numPages (hm : m.Tight) : (risen m).numPages = m.numPages + 2 := by
  unfold risen
  rw [newRoot_numPages, (emptyNode_tight hm).numPages_alloc, emptyNode_numPages hm]

/-- The children of the root and the new leaf keep their contents. -/
theorem risen_erase (h : LeafParent m.page m.numPages 0) (hm : m.Tight)
    (hc : NewLeaf m.page m.numPages 0 child) {q : ℕ}
    (hq : q ∈ child :: (m.page 0).children) : ((risen m).page q).erase = (m.page q).erase := by
  have hqlt : q < m.numPages ∧ q ≠ 0 := by
    rcases List.mem_cons.1 hq with rfl | hmem
    · refine ⟨hc.lt, ?_⟩
      rintro rfl
      have hl := hc.leaf
      rw [not_isLeaf_of_isInternal h.internal] at hl
      cases hl
    · exact ⟨(h.children_lt hmem).1, (h.children_lt hmem).2.1⟩
  rw [h.risen_page hm, if_neg hqlt.2, if_neg (by omega), if_neg hqlt.1.ne, emptyNode_page hqlt.1]
  split
  · exact erase_store_parent _ _
  · rfl

/-- The split of the root, up to `create_new_root`. -/
theorem wp_risen {fuel : ℕ} {insert : ℕ → ℕ → Prog ℕ Unit} (h : LeafParent m.page m.numPages 0)
    (hm : m.Tight) (h3 : (m.page 0).numKeys = 3)
    (hroot : (m.page 0).isRoot = true) (hc : NewLeaf m.page m.numPages 0 child)
    (hT : ∀ q ∈ 0 :: m.numPages :: (m.numPages + 1) :: child :: (m.page 0).children, T q)
    (hQ : wp (handler (fun _ => True) T) (do
      let parent ← getPage rootPageNum
      let oldPageNum ← load parent (← internalNodeChild parent 0)
      let oldNode ← getPage oldPageNum
      splitHalves insert fuel oldNode parent child oldPageNum m.numPages child (m.page 0).maxKey
        (m.page child).maxKey) Q F (risen m)) :
    wp (handler (fun _ => True) T) (internalNodeSplitAndInsert insert fuel 0 child) Q F m := by
  simp only [List.forall_mem_cons] at hT
  obtain ⟨hT0, hTN, hTN1, hTc, hTchildren⟩ := hT
  have hpos : 0 < m.numPages := h.lt
  have hnode := h.node h3
  have hchildOk : MaxOk (fun _ => True) (m.page child) :=
    ⟨fun _ => hc.numCells, fun hn => absurd hc.leaf hn⟩
  unfold internalNodeSplitAndInsert
  simp only [wp_bind, wp_getPage hT0, hm.touch_of_lt hpos,
    wp_getNodeMaxKey _ (hnode.maxOk fun _ _ => trivial),
    wp_getPage hTc, hm.touch_of_lt hc.lt, wp_getNodeMaxKey _ hchildOk, wp_getUnusedPage,
    wp_isNodeRoot, hroot, if_true]
  refine wp_createNewRoot_internal hm hpos hT0 hnode (fun _ _ => trivial)
    (fun c hmem => ⟨(h.children_lt hmem).1, (h.children_lt hmem).2.1, hTchildren c hmem⟩)
    (fun hn => absurd ⟨hTN, hTN1⟩ hn) fun _ _ => ?_
  simp only [wp_bind] at hQ
  exact hQ

/-- **The split of the root.** -/
theorem wp_split_root {fuel : ℕ} (h : LeafParent m.page m.numPages 0) (hm : m.Tight)
    (h3 : (m.page 0).numKeys = 3)
    (hroot : (m.page 0).isRoot = true) (hc : NewLeaf m.page m.numPages 0 child)
    (hN : m.numPages + 1 < filePagesNum)
    (hT : ∀ q ∈ 0 :: m.numPages :: (m.numPages + 1) :: child :: (m.page 0).children, T q)
    (hF : ∀ e m', (∀ what, e ≠ .outOfRange what) → F e m')
    (hQ : ∀ n' x' d a' M, Splits (fun _ => True) T (risen m) (m.numPages + 1) m.numPages child →
      Halved (risen m) (m.numPages + 1) m.numPages child n' x' d a' →
      M = ((risen m).moved (m.numPages + 1) m.numPages n' x').placed d child a' →
      Q () (M.set 0 (strayAbove (M.page 0) ((m.page 0).sep 2) (M.page (m.numPages + 1)).maxKey))) :
    wp (handler (fun _ => True) T)
    (internalNodeSplitAndInsert (internalNodeInsert fuel) fuel 0 child) Q F m := by
  refine h.wp_risen hm h3 hroot hc hT ?_
  simp only [List.forall_mem_cons] at hT
  obtain ⟨hT0, hTN, hTN1, hTc, hTchildren⟩ := hT
  have hpos : 0 < m.numPages := h.lt
  have hnode := h.node h3
  have hpage := h.risen_page hm
  have hrisen := risen_tight hm
  have hnumr := risen_numPages hm
  have hspec :
      IsNewRoot (m.page 0) (m.numPages + 1) (m.page 0).maxKey m.numPages ((risen m).page 0) := by
    rw [hpage, if_pos rfl]
    unfold filePagesNum at hN
    exact asRoot_spec _ _ _ _ (by omega) (maxKey_lt _) (by omega)
  have hchild0 : ((risen m).page 0).child 0 = m.numPages + 1 := by
    have hslot := congrArg Prod.fst (hspec.slot 0 (by omega))
    rwa [if_pos rfl] at hslot
  have hleft : (risen m).page (m.numPages + 1) = (m.page 0).asLeft := by
    rw [hpage, if_neg (by omega), if_pos rfl]
  have hlt0 : 0 < (risen m).numPages := by omega
  have hvalid : ((risen m).page 0).child 0 ≠ invalidPageNum := by
    rw [hchild0]
    unfold filePagesNum at hN
    unfold invalidPageNum
    omega
  unfold rootPageNum
  simp only [wp_bind, wp_getPage hT0, hrisen.touch_of_lt hlt0]
  rw [wp_internalNodeChild_cell (by rw [hspec.numKeys]; omega) (by omega) hvalid,
    wp_load (access_internalCell (by omega)),
    load_internalCell, hchild0, wp_getPage hTN1, hrisen.touch_of_lt (by omega)]
  -- the pages the split is about
  have hsplits : Splits (fun _ => True) T (risen m) (m.numPages + 1) m.numPages child := by
    have hh := SameHeader.asLeft (m.page 0)
    have herase : ∀ q ∈ child :: (m.page 0).children.tail, ((risen m).page q).erase =
        (m.page q).erase := by
      intro q hq
      refine h.risen_erase hm hc ?_
      rcases List.mem_cons.1 hq with rfl | hmem
      · exact List.mem_cons_self
      · exact List.mem_cons_of_mem _ (List.mem_of_mem_tail hmem)
    refine h.splits hc (by rw [hleft]; exact node_asLeft hnode)
      (by rw [hleft, hh.numKeys (by simp)]; exact h3) ?_ ?_ ?_ herase ?_
    · rw [hleft]
      exact children_congr (hh.numKeys (by simp)) (hh.rightChild (by simp)) fun i _ =>
        child_of_slot (slot_asLeft _ i)
    · simp only [List.mem_cons, not_or]
      have hclt := hc.lt
      exact ⟨by omega, by omega, fun hmem => by have := (h.children_lt hmem).1; omega⟩
    · have hhead : ((m.page m.numPages).initInternal.store .parent 0).SameHeader
          (m.page m.numPages).initInternal [2] :=
        SameHeader.store_header .parent 0
      rw [hpage, if_neg hpos.ne', if_neg (by omega), if_pos rfl, hhead.numKeys (by simp),
        hhead.rightChild (by simp),
        hhead.isLeaf (by simp)]
      exact ⟨numKeys_initInternal _, rightChild_initInternal _,
        not_isLeaf_of_isInternal (isInternal_initInternal _)⟩
    · intro q hq
      have hqlt : T q ∧ q < m.numPages + 2 := by
        simp only [List.mem_cons] at hq
        rcases hq with rfl | rfl | rfl | hmem
        · exact ⟨hTN1, by omega⟩
        · exact ⟨hTN, by omega⟩
        · exact ⟨hTc, by have := hc.lt; omega⟩
        · have hlt := (h.children_lt (List.mem_of_mem_tail hmem)).1
          exact ⟨hTchildren q (List.mem_of_mem_tail hmem), by omega⟩
      refine ⟨hqlt.1, ?_, by omega⟩
      rw [hrisen q, hnumr]
      exact decide_eq_true hqlt.2
  have hmaxc : ((risen m).page child).maxKey = (m.page child).maxKey :=
    maxKey_of_erase (h.risen_erase hm hc List.mem_cons_self)
  rw [maxKey_full h.internal h3, ← hmaxc]
  refine wp_splitHalves hsplits (fun _ _ => trivial) (fun _ e m' => hF _ _ fun _ he => by cases he)
    (fun _ _ _ _ _ e m' => hF _ _ fun _ he => by cases he) fun n' x' d a' hh => ?_
  unfold updateInternalNodeKey
  by_cases hacc :
    Access (fun _ => True)
      ((((risen m).moved (m.numPages + 1) m.numPages n' x').placed d child a').page 0)
      (.internalKey ((m.page 0).sep 2))
  · rw [wp_store hacc]
    exact hQ n' x' d a' _ hsplits hh rfl
  · rw [wp_store_of_not hacc]
    exact hF _ _ fun _ he => by cases he

end LeafParent

end ToySQL
