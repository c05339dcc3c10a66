import ToySQL.Proof.NodeSplit

/-!
# The order of the children after a split

* `SplitInto.ordered_iff`: what it takes, beyond the children having been shared out,
  for a node to be split in the order of its keys.
-/

namespace ToySQL

open Program Page

/-- A page and its last key. -/
def entry (page : ℕ → Page) (q : ℕ) : ℕ × ℕ := (q, (page q).maxKey)

/-- The children of the full node `x` and the leaf `child` are the children of `left` and of
`right`, each in the order of the last keys. -/
structure SplitInto (page page' : ℕ → Page) (x child left right : ℕ) (L R : List ℕ) : Prop where
  left : (page' left).Holds (L.map (entry page))
  right : (page' right).Holds (R.map (entry page))
  lower : L.Perm (if (page child).maxKey < (page x).sep 0 then
    [child, (page x).child 0, (page x).child 1]
    else [(page x).child 0, (page x).child 1])
  upper : R.Perm (if (page child).maxKey < (page x).sep 0 then
    [(page x).child 2, (page x).rightChild]
    else [child, (page x).child 2, (page x).rightChild])
  sortedLeft : L.Pairwise fun p q => (page p).maxKey < (page q).maxKey
  sortedRight : R.Pairwise fun p q => (page p).maxKey < (page q).maxKey
  keys : ∀ q ∈ child :: (page x).children, (page' q).keys = (page q).keys

namespace LeafParent

variable {page page' : ℕ → Page} {numPages x child : ℕ}

theorem ne_zero_of_keys {a : Page} (h : a.keys ≠ []) : a.numCells ≠ 0 := by
  rw [← length_keys]
  exact fun h0 => h (List.length_eq_zero_iff.1 h0)

/-- The last key of a child is the separator. -/
theorem maxKey_child (h : LeafParent page numPages x) {i : ℕ} (hi : i < (page x).numKeys) :
    (page ((page x).child i)).maxKey = (page x).sep i := by
  have hsep := h.sep i hi
  have hleaf := h.leaf i hi.le
  rw [below, childAt_of_lt hi] at hsep hleaf
  rw [getLast_keys hleaf (ne_zero_of_keys fun h0 => by rw [h0] at hsep; cases hsep)] at hsep
  exact Option.some.inj hsep

variable (h : LeafParent page numPages x) (h3 : (page x).numKeys = 3)
    (hc : NewLeaf page numPages x child)
  (hr : (page (page x).rightChild).keys ≠ [])

include h hc hr

/-- The leaves of the split have keys, the largest of which is the last. -/
theorem getLast_maxKey {q : ℕ} (hq : q ∈ child :: (page x).children) :
    (page q).keys.Pairwise (· < ·) ∧ (page q).keys.getLast? = some (page q).maxKey := by
  rcases List.mem_cons.1 hq with rfl | hmem
  · exact ⟨hc.sorted, getLast_keys hc.leaf (ne_zero_of_keys hc.ne_nil)⟩
  · obtain ⟨i, hi, rfl⟩ := exists_childAt hmem
    have hne : (below page x i).keys ≠ [] := by
      rcases hi.lt_or_eq with hlt | rfl
      · exact List.ne_nil_of_mem (h.sep_mem hlt)
      · rwa [below, childAt_numKeys]
    exact ⟨h.sorted i hi, getLast_keys (h.leaf i hi) (ne_zero_of_keys hne)⟩

/-- The last key is one of the keys. -/
theorem maxKey_mem {q : ℕ} (hq : q ∈ child :: (page x).children) :
    (page q).maxKey ∈ (page q).keys :=
  List.mem_of_getLast? (h.getLast_maxKey hc hr hq).2

omit h hr in
/-- The new leaf does not end where a child ends. -/
theorem maxKey_ne {i : ℕ} (hi : i ≤ (page x).numKeys)
    (hne : (below page x i).maxKey ∈ (below page x i).keys) :
    (page child).maxKey ≠ (below page x i).maxKey := by
  have hmem : (page child).maxKey ∈ (page child).keys :=
    List.mem_of_getLast? (getLast_keys hc.leaf (ne_zero_of_keys hc.ne_nil))
  rcases hc.apart i hi with hap | hap
  · exact (hap _ hmem _ hne).ne
  · exact (hap _ hmem _ hne).ne'

include h3

/-- The order of the last keys of the children. -/
theorem maxKeys : (page ((page x).child 0)).maxKey = (page x).sep 0 ∧
    (page ((page x).child 1)).maxKey = (page x).sep 1 ∧
    (page ((page x).child 2)).maxKey = (page x).sep 2 ∧
    (page x).sep 0 < (page x).sep 1 ∧ (page x).sep 1 < (page x).sep 2 ∧
    (page x).sep 2 < (page (page x).rightChild).maxKey ∧
    ∀ q ∈ (page x).children, (page child).maxKey ≠ (page q).maxKey := by
  refine ⟨h.maxKey_child (by omega), h.maxKey_child (by omega), h.maxKey_child (by omega),
    h.sep_lt_sep (by omega) (by omega), h.sep_lt_sep (by omega) (by omega), ?_, fun q hq => ?_⟩
  · have hmem : (page x).rightChild ∈ (page x).children :=
      List.mem_append_right _ (List.mem_singleton_self _)
    have hk := h.maxKey_mem hc hr (List.mem_cons_of_mem _ hmem)
    refine h.sep_lt (show 2 < 3 by omega) h3.ge ?_
    rw [below, ← h3, childAt_numKeys]
    exact hk
  · have hk := h.maxKey_mem hc hr (List.mem_cons_of_mem _ hq)
    obtain ⟨i, hi, rfl⟩ := exists_childAt hq
    exact maxKey_ne hc hi hk

end LeafParent

namespace SplitInto

variable {page page' : ℕ → Page} {numPages x child left right above : ℕ} {L R : List ℕ}
  (h : LeafParent page numPages x) (h3 : (page x).numKeys = 3) (hc : NewLeaf page numPages x child)
  (hr : (page (page x).rightChild).keys ≠ [])

include h3 in
/-- No child is lost, and none is there twice. -/
theorem perm (hs : SplitInto page page' x child left right L R) :
    (L ++ R).Perm (child :: (page x).children) := by
  refine (hs.lower.append hs.upper).trans ?_
  rw [Mem.children_full h3]
  split
  · exact List.Perm.refl _
  · exact @List.perm_middle _ child [(page x).child 0, (page x).child 1] _

include h h3 hc hr

omit h3 in
/-- The separators of a half are the last keys of its children. -/
theorem sep (hs : SplitInto page page' x child left right L R) {half : ℕ} {l : List ℕ}
    (hl : (page' half).Holds (l.map (entry page)))
    (hsub : ∀ q ∈ l, q ∈ child :: (page x).children) {i : ℕ}
    (hi : i < (page' half).numKeys) :
    (below page' half i).keys.getLast? = some ((page' half).sep i) := by
  have hcell := hl.cell i hi
  rw [List.getElem?_map] at hcell
  obtain ⟨q, hq, he⟩ := Option.map_eq_some_iff.1 hcell
  have hmem := hsub q (List.mem_of_getElem? hq)
  have hchild : q = (page' half).child i := congrArg Prod.fst he
  have hsep : (page q).maxKey = (page' half).sep i := congrArg Prod.snd he
  rw [below, childAt_of_lt hi, ← hchild, hs.keys q hmem, ← hsep]
  exact (h.getLast_maxKey hc hr hmem).2

end SplitInto

/-- The order of the last keys determines the list. -/
theorem eq_of_maxKey {page : ℕ → Page} {l l' : List ℕ} (hp : l.Perm l')
    (hs : l.Pairwise fun p q => (page p).maxKey < (page q).maxKey)
    (hs' : l'.Pairwise fun p q => (page p).maxKey < (page q).maxKey) : l = l' :=
  hp.eq_of_pairwise (fun _ _ _ _ h h' => absurd (h.trans h') (lt_irrefl _)) hs hs'

/-- The children and the new leaf keep what they hold. -/
theorem Mem.Halved.erase {K T : ℕ → Prop} {m₀ : Mem} {y new child d q : ℕ} {n' y' a' : Page}
    (hs : Mem.Splits K T m₀ y new child) (hh : Mem.Halved m₀ y new child n' y' d a')
    (hq : q ∈ child :: (m₀.page y).children) :
    (((m₀.moved y new n' y').placed d child a').page q).erase = (m₀.page q).erase := by
  have hnodup := hs.nodup
  have hqy : q ≠ y := by
    rintro rfl
    exact (List.nodup_cons.1 hnodup).1 (List.mem_cons_of_mem _ hq)
  have hqn : q ≠ new := by
    rintro rfl
    exact (List.nodup_cons.1 (List.nodup_cons.1 hnodup).2).1 hq
  have hqd : q ≠ d := by
    rcases hh.dest_or with rfl | rfl
    · exact hqy
    · exact hqn
  have hmoved : ((m₀.moved y new n' y').page q).erase = (m₀.page q).erase := by
    rw [moved_page, if_neg hqy, if_neg hqn]
    split_ifs
    · exact erase_store_parent _ _
    · exact erase_store_parent _ _
    · rfl
  by_cases hqc : q = child
  · rw [placed_page, if_pos hqc, erase_store_parent, ← hqc]
    exact hmoved
  · rw [placed_page, if_neg hqc, if_neg hqd]
    exact hmoved

/-- The last key of a node is that of the last child but one. -/
theorem Page.Holds.maxKey {page : ℕ → Page} {a : Page} {l : List ℕ} {p q : ℕ}
    (h : a.Holds (l.map (entry page)))
    (hl : a.isLeaf = false) (init : List ℕ) (hlast : l = init ++ [p, q]) :
    a.maxKey = (page p).maxKey := by
  have hlen := h.length
  rw [List.length_map, hlast, List.length_append] at hlen
  have hk : a.numKeys = init.length + 1 := by
    simp only [List.length_cons, List.length_nil] at hlen
    omega
  have hcell := h.cell init.length (by omega)
  rw [List.getElem?_map, hlast, List.getElem?_append_right le_rfl, Nat.sub_self] at hcell
  have hsep : (page p).maxKey = a.sep init.length := congrArg Prod.snd (Option.some.inj hcell)
  rw [Page.maxKey, hl, if_neg Bool.false_ne_true, hk, Nat.add_sub_cancel, hsep]

theorem Page.Holds.store_parent {a : Page} {L : List (ℕ × ℕ)} (h : a.Holds L) (v : ℕ) :
    (a.store .parent v).Holds L := by
  have hh : (a.store .parent v).SameHeader a [2] := SameHeader.store_header .parent v
  refine ⟨?_, ?_, ?_⟩
  · rw [hh.numKeys (by simp)]
    exact h.length
  · intro i hi
    rw [hh.numKeys (by simp)] at hi
    rw [slot_store_header .parent]
    exact h.cell i hi
  · rw [hh.numKeys (by simp), hh.rightChild (by simp)]
    exact h.right

namespace SplitInto

variable {page page' : ℕ → Page} {numPages x child left right : ℕ} {L R : List ℕ}
  (h : LeafParent page numPages x) (h3 : (page x).numKeys = 3) (hc : NewLeaf page numPages x child)
  (hr : (page (page x).rightChild).keys ≠ [])

include h h3 hc hr

/-- What `get_node_max_key` returns for the upper half. -/
theorem maxKey_right (hs : SplitInto page page' x child left right L R)
    (hl : (page' right).isLeaf = false) :
    (page' right).maxKey =
      max ((page x).sep 2) (min (page child).maxKey (page (page x).rightChild).maxKey) := by
  obtain ⟨h0, h1, h2, h01, h12, h2r, hne⟩ := h.maxKeys h3 hc hr
  rw [Mem.children_full h3] at hne
  simp only [List.forall_mem_cons] at hne
  obtain ⟨hne0, hne1, hne2, hner, -⟩ := hne
  have hupper := hs.upper
  -- where the new leaf is among the children that move
  obtain ⟨init, p, q, hperm, hsort, hp⟩ : ∃ init p q, R.Perm (init ++ [p, q]) ∧
      (init ++ [p, q]).Pairwise (fun p q => (page p).maxKey < (page q).maxKey) ∧
      (page p).maxKey =
        max ((page x).sep 2) (min (page child).maxKey (page (page x).rightChild).maxKey) := by
    have htriple : ∀ {p q r : ℕ}, (page p).maxKey < (page q).maxKey →
        (page q).maxKey < (page r).maxKey →
        [p, q, r].Pairwise fun p q => (page p).maxKey < (page q).maxKey := by
      intro p q r hpq hqr
      simp only [List.pairwise_cons, List.forall_mem_cons, List.not_mem_nil, false_imp_iff,
        implies_true, List.Pairwise.nil, and_true]
      exact ⟨⟨hpq, hpq.trans hqr⟩, hqr⟩
    split at hupper
    · exact ⟨[], _, _, hupper, List.pairwise_pair.2 (by omega), by omega⟩
    · rcases lt_or_gt_of_ne hne2 with hlt | hgt
      · exact ⟨[child], _, _, hupper, htriple hlt (by omega), by omega⟩
      have hswap := hupper.trans (List.Perm.swap _ _ _)
      rcases lt_or_gt_of_ne hner with hlt' | hgt'
      · exact ⟨[(page x).child 2], _, _, hswap, htriple hgt hlt', by omega⟩
      · exact ⟨[(page x).child 2], _, _, hswap.trans ((List.Perm.swap _ _ _).cons _),
          htriple (by omega) hgt', by omega⟩
  rw [hs.right.maxKey hl init (eq_of_maxKey hperm hs.sortedRight hsort)]
  exact hp

end SplitInto

end ToySQL
