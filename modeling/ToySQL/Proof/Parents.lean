import ToySQL.Proof.Insert
import ToySQL.Spec.Parents

/-!
# The children of a node, in order

* `LeafParent.findChild_spec`: `internal_node_find_child` finds the child a key belongs to.
* `LeafParent.eq_of_childAt`: no page is the child of a node twice.
-/

namespace ToySQL

open Program

namespace Page

variable {a : Page} {key : ℕ}

/-- Ascending separators compare with a key in the order of a binary search. -/
theorem monotone3_cmpSep (h : ∀ i j, i ≤ j → j < a.numKeys → a.sep i ≤ a.sep j) (key : ℕ) :
    Monotone3 (a.cmpSep key) a.numKeys := by
  refine ⟨fun i j hij hj hgt => ?_, fun i j hij hj hlt => ?_⟩
  · have hle := h i j hij hj
    unfold cmpSep at hgt ⊢
    split_ifs at hgt ⊢ <;> first | rfl | omega
  · have hle := h i j hij hj
    unfold cmpSep at hlt ⊢
    split_ifs at hlt ⊢ <;> first | rfl | omega

/-- The first separator that is not below the key. -/
theorem findChild_spec (h : ∀ i j, i ≤ j → j < a.numKeys → a.sep i ≤ a.sep j) (key : ℕ) :
    (∀ i < a.findChild key, a.sep i < key) ∧
      ∀ i, a.findChild key ≤ i → i < a.numKeys → key ≤ a.sep i := by
  have hf := searchAll_found (monotone3_cmpSep h key)
  refine ⟨fun i hi => ?_, fun i hle hlt => ?_⟩
  · have hne := hf.below i hi
    unfold cmpSep at hne
    split_ifs at hne with hk
    · exact absurd rfl hne
    · exact not_le.1 hk
  · have hne := hf.above i hle hlt
    unfold cmpSep at hne
    split_ifs at hne with hk
    · exact hk
    · exact absurd rfl hne

theorem childAt_of_lt {i : ℕ} (h : i < a.numKeys) : a.childAt i = a.child i := if_pos h

theorem childAt_numKeys : a.childAt a.numKeys = a.rightChild := if_neg (lt_irrefl _)

/-- The children in slot order. -/
theorem children_eq (a : Page) : a.children = (List.range (a.numKeys + 1)).map a.childAt := by
  unfold children
  rw [List.range_succ, List.map_append, List.map_singleton, childAt_numKeys]
  congr 1
  exact List.map_congr_left fun i hi => (childAt_of_lt (List.mem_range.1 hi)).symm

/-- The children of a node, slot by slot, the right child last. -/
theorem getElem?_children {i c : ℕ} :
    a.children[i]? = some c ↔ i ≤ a.numKeys ∧ a.childAt i = c := by
  rw [children_eq, List.getElem?_map]
  constructor
  · intro h
    obtain ⟨j, hj, hc⟩ := Option.map_eq_some_iff.1 h
    obtain ⟨hlt, hget⟩ := List.getElem?_eq_some_iff.1 hj
    rw [List.getElem_range] at hget
    rw [List.length_range] at hlt
    exact ⟨Nat.lt_succ_iff.1 hlt, hget ▸ hc⟩
  · rintro ⟨hi, rfl⟩
    rw [List.getElem?_range (Nat.lt_succ_of_le hi)]
    rfl

/-- A child has a slot. -/
theorem exists_childAt {c : ℕ} (h : c ∈ a.children) : ∃ i ≤ a.numKeys, a.childAt i = c := by
  obtain ⟨i, hi⟩ := List.getElem?_of_mem h
  exact ⟨i, getElem?_children.1 hi⟩

/-- The largest key of a leaf. -/
theorem getLast_keys (hl : a.isLeaf = true) (h0 : a.numCells ≠ 0) :
    a.keys.getLast? = some a.maxKey := by
  rw [keys_eq, maxKey, if_pos hl, if_neg h0]
  obtain ⟨n, hn⟩ := Nat.exists_eq_succ_of_ne_zero h0
  rw [hn, List.range_succ, List.map_append, List.map_singleton, List.getLast?_concat]
  rfl

/-- The last key of an ascending list is the largest. -/
theorem le_of_getLast {l : List ℕ} {k last : ℕ} (hs : l.Pairwise (· < ·))
    (hl : l.getLast? = some last)
    (hk : k ∈ l) : k ≤ last := by
  obtain ⟨init, rfl⟩ := List.getLast?_eq_some_iff.1 hl
  rcases List.mem_append.1 hk with hk | hk
  · exact ((List.pairwise_append.1 hs).2.2 k hk last (List.mem_singleton_self last)).le
  · exact (List.mem_singleton.1 hk).le

end Page

open Page

namespace LeafParent

variable {page page' : ℕ → Page} {numPages g i j k key : ℕ}

/-- A separator is a key of the leaf to its left. -/
theorem sep_mem (h : LeafParent page numPages g) (hi : i < (page g).numKeys) :
    (page g).sep i ∈ (below page g i).keys := List.mem_of_getLast? (h.sep i hi)

/-- The keys of a leaf are at most the separator to its right. -/
theorem le_sep (h : LeafParent page numPages g) (hi : i < (page g).numKeys)
    (hk : k ∈ (below page g i).keys) :
    k ≤ (page g).sep i := le_of_getLast (h.sorted i hi.le) (h.sep i hi) hk

/-- The separators ascend. -/
theorem sep_lt_sep (h : LeafParent page numPages g) (hij : i < j) (hj : j < (page g).numKeys) :
    (page g).sep i < (page g).sep j := by
  induction j with
  | zero => omega
  | succ j ih =>
    have hlast := h.ascending j (by omega) _ (h.sep_mem hj)
    rcases Nat.lt_succ_iff_lt_or_eq.1 hij with hij | rfl
    · exact (ih hij (by omega)).trans hlast
    · exact hlast

/-- The separators ascend. -/
theorem sep_le_sep (h : LeafParent page numPages g) (hij : i ≤ j) (hj : j < (page g).numKeys) :
    (page g).sep i ≤ (page g).sep j := by
  rcases hij.lt_or_eq with hij | rfl
  · exact (h.sep_lt_sep hij hj).le
  · exact le_rfl

/-- A separator is below the keys of all later children. -/
theorem sep_lt (h : LeafParent page numPages g) (hij : i < j) (hj : j ≤ (page g).numKeys)
    (hk : k ∈ (below page g j).keys) : (page g).sep i < k := by
  obtain ⟨n, rfl⟩ : ∃ n, j = n + 1 := ⟨j - 1, by omega⟩
  have hn := h.ascending n (by omega) k hk
  exact (h.sep_le_sep (show i ≤ n by omega) (by omega)).trans_lt hn

/-- **The child a key belongs to.** -/
theorem findChild_spec (h : LeafParent page numPages g) (key : ℕ) :
    (∀ i < (page g).findChild key, (page g).sep i < key) ∧
      ∀ i, (page g).findChild key ≤ i → i < (page g).numKeys → key ≤ (page g).sep i :=
  Page.findChild_spec (fun _ _ hij hj => h.sep_le_sep hij hj) key

/-- **No page is a child twice**, if it has a key. -/
theorem eq_of_childAt (h : LeafParent page numPages g) (hi : i < (page g).numKeys)
    (hj : j ≤ (page g).numKeys)
    (heq : (page g).childAt i = (page g).childAt j) : i = j := by
  have hmem := h.sep_mem hi
  have hbelow : below page g i = below page g j := congrArg page heq
  rcases lt_trichotomy i j with hlt | rfl | hgt
  · rw [hbelow] at hmem
    exact absurd (h.sep_lt hlt hj hmem) (lt_irrefl _)
  · rfl
  · have hlast := h.sep_lt hgt hi.le hmem
    have hmemj := h.sep_mem (show j < (page g).numKeys by omega)
    rw [← hbelow] at hmemj
    have hnext := h.sep_lt hgt hi.le hmemj
    exact absurd hnext (lt_irrefl _)

/-- No node is a child of its own. -/
theorem childAt_ne (h : LeafParent page numPages g) (hi : i ≤ (page g).numKeys) :
    (page g).childAt i ≠ g := by
  intro heq
  have hl := h.leaf i hi
  rw [below, heq, not_isLeaf_of_isInternal h.internal] at hl
  cases hl

/-! ## The code, in flat memory -/

section Wp

open Mem

variable {K T : ℕ → Prop} [DecidablePred K] [DecidablePred T] {m : Mem} {g p key : ℕ}
    {F : Fault → Mem → Prop}

/-- A page in use is not the number that stands for no page. -/
theorem ne_invalid {numPages : ℕ} (h : LeafParent m.page numPages g) {q : ℕ} (hq : q < numPages) :
    q ≠ invalidPageNum := by
  have hle := h.pages
  unfold filePagesNum at hle
  unfold invalidPageNum
  omega

/-- The child is read from its slot. -/
theorem wp_loadChild {Q : ℕ → Mem → Prop} {i : ℕ} (h : LeafParent m.page m.numPages g)
    (hi : i ≤ (m.page g).numKeys) :
    wp (handler K T) (internalNodeChild g i) (fun l s => wp (handler K T) (load g l) Q F s) F m ↔
      Q ((m.page g).childAt i) m := by
  have hk : (m.page g).numKeys ≤ 3 := h.numKeys
  have hne := h.ne_invalid (h.childLt i hi)
  rcases hi.lt_or_eq with hlt | heq
  · rw [childAt_of_lt hlt] at hne ⊢
    rw [wp_internalNodeChild_cell hlt (by omega) hne, wp_load (access_internalCell (by omega)),
      load_internalCell]
  · rw [heq, childAt_numKeys] at hne ⊢
    rw [wp_internalNodeChild_right hne, wp_load (access_header .rightChild), load_rightChild]

/-- **`internal_node_find` above leaves** ends in the child the key belongs to. -/
theorem wp_internalNodeFind {Q : Cursor → Mem → Prop} (h : LeafParent m.page m.numPages g)
    (hm : m.Tight)
    (hK : ∀ i < 3, K i) (hTg : T g) (hp : (m.page g).childAt ((m.page g).findChild key) = p)
    (hTp : T p)
    (hQ : Q (makeCursor p ((m.page p).findCell key)) m) (fuel : ℕ) :
    wp (handler K T) (internalNodeFind fuel g key) Q F m := by
  have hle := Page.findChild_le (m.page g) key
  have hlt : p < m.numPages := hp ▸ h.childLt _ hle
  have hk : (m.page g).numKeys ≤ 3 := h.numKeys
  have hleaf := h.leaf _ hle
  have hcells := h.numCells _ hle
  rw [below, hp] at hleaf hcells
  have htype : (m.page p).type = .leaf := of_decide_eq_true hleaf
  have hstep : ∀ next :
      ℕ → Prog ℕ Cursor, wp (handler K T) (internalNodeFindStep next g key) Q F m := by
    intro next
    unfold internalNodeFindStep
    simp only [wp_bind, wp_getPage hTg, hm.touch_of_lt h.lt]
    rw [wp_internalNodeFindChild (by omega) fun i hi => access_internalKey (by omega)
      (hK i (by omega)),
      h.wp_loadChild hle, hp]
    simp only [wp_getPage hTp, hm.touch_of_lt hlt, wp_getNodeType, htype]
    rw [wp_leafNodeFind hTp hcells, hm.touch_of_lt hlt]
    exact hQ
  cases fuel with
  | zero => exact hstep _
  | succ fuel => exact hstep _

theorem rightChild_lt (h : LeafParent m.page m.numPages g) : (m.page g).rightChild < m.numPages :=
  childAt_numKeys (a := m.page g) ▸ h.childLt _ le_rfl

/-- **A full leaf**, up to the insertion into its parent. -/
theorem wp_leafNodeStage_full {Q : Option (ℕ × ℕ) → Mem → Prop} {c i fuel : ℕ} {e : Bool}
    {row : Row}
    (h : LeafParent m.page m.numPages g) (hm : m.Tight) (hi : i ≤ (m.page g).numKeys)
    (hp : (m.page g).childAt i = p) (hfull : (m.page p).numCells = 15) (hc : c ≤ 15)
    (hkey : key < 2 ^ 32)
    (hTp : T p) (hTn : T m.numPages)
    (hQ : ∀ l r, Halves (m.page p) m.numPages c (key, row.serialize) l r →
      Q (some (g, m.numPages)) (Tree.cut m p l r)) :
    wp (handler K T) (leafNodeStage fuel ⟨p, c, e⟩ key row) Q F m := by
  have hplt : p < m.numPages := hp ▸ h.childLt i hi
  have hleaf := h.leaf i hi
  have hroot := h.isRoot i hi
  have hparent := h.parent i hi
  rw [below, hp] at hleaf hroot hparent
  have hpages := h.pages
  unfold filePagesNum at hpages
  refine Mem.wp_leafNodeStage_full hm hplt hTp (by omega) hleaf hfull hc hkey
    (fun hn => absurd hTn hn)
    (fun _ hr => ?_) fun _ _ l r hh => ?_
  · rw [hroot] at hr
    cases hr
  · rw [hparent]
    exact hQ l r hh

/-- **The upper half of a leaf** gets its place in a node with room. -/
theorem wp_internalNodeInsert_half {Q : Unit → Mem → Prop} {c i fuel : ℕ} {x : ℕ × Bytes rowSize}
    {l r : Page}
    (h : LeafParent m.page m.numPages g) (hm : m.Tight) (hi : i ≤ (m.page g).numKeys)
    (hp : (m.page g).childAt i = p) (hroom : (m.page g).numKeys < 3)
    (hh : Halves (m.page p) m.numPages c x l r)
    (hK : ∀ i < 3, K i) (hT : T g ∧ T m.numPages ∧ T (m.page g).rightChild)
    (hexit : (m.page g).child (m.page g).numKeys = invalidPageNum → ∀ e m', F (.exit e) m')
    (hQ : ∀ a', AddChild (m.page g) m.numPages r.maxKey
      ((Tree.cut m p l r).page (m.page g).rightChild).maxKey a' →
      (((Tree.cut m p l r).page (m.page g).rightChild).maxKey < r.maxKey ∨
          (m.page g).findChild r.maxKey = (m.page g).numKeys →
        (m.page g).child (m.page g).numKeys ≠ invalidPageNum) →
      Q () ((Tree.cut m p l r).set g a')) :
    wp (handler K T) (internalNodeInsert fuel g m.numPages) Q F (Tree.cut m p l r) := by
  obtain ⟨hTg, hTn, hTr⟩ := hT
  have hleaf := h.leaf i hi
  rw [below, hp] at hleaf
  have hrlt := h.rightChild_lt
  have hrne : (m.page g).rightChild ≠ invalidPageNum := h.ne_invalid hrlt
  have hrg : (m.page g).rightChild ≠ g := childAt_numKeys (a := m.page g) ▸ h.childAt_ne le_rfl
  have hgp : g ≠ p := fun heq => h.childAt_ne hi (hp.trans heq.symm)
  have hrleaf := h.leaf _ le_rfl
  have hrcells := h.numCells _ le_rfl
  rw [below, childAt_numKeys] at hrleaf hrcells
  have hpages := h.pages
  unfold filePagesNum at hpages
  obtain ⟨split, k, heq⟩ := internalNodeInsert_eq fuel
  rw [heq]
  have hpage := Tree.cut_page (m := m) (p := p) (l := l) (r := r)
  have hpg : (Tree.cut m p l r).page g = m.page g := by rw [hpage, if_neg h.lt.ne, if_neg hgp]
  have hpn : (Tree.cut m p l r).page m.numPages = r := by rw [hpage, if_pos rfl]
  have hcached : ∀ q ≤ m.numPages, (Tree.cut m p l r).cached q = true :=
    fun q hq => hm.cached_alloc hq
  have hstray := SameHeader.stray l (m.page p).maxKey
  -- the right child is a leaf, even if it is the one that was cut
  have hmaxr : MaxOk K ((Tree.cut m p l r).page (m.page g).rightChild) := by
    rw [hpage, if_neg hrlt.ne]
    split
    · refine ⟨fun _ => ?_, fun hn => absurd ((hstray.isLeaf (by simp)).trans (hh.isLeaf hleaf)) hn⟩
      rw [hstray.numCells (by simp), hh.numCells]
      omega
    · exact ⟨fun _ => hrcells, fun hn => absurd hrleaf hn⟩
  refine wp_internalNodeInsertStep_room (by rw [hpg]; exact hroom) (by rw [hpg]; exact hrg) hTg hTn
    (fun _ => by rw [hpg]; exact hTr) (hcached g h.lt.le) (hcached _ le_rfl)
    (fun _ => by rw [hpg]; exact hcached _ hrlt.le) ?_ (fun _ => by rw [hpg]; exact hmaxr)
    (by omega) hK
    (fun _ _ hslot => hexit (by rw [hpg] at hslot; exact hslot)) (fun j hj => ?_)
    fun a' ha hslot => ?_
  · rw [hpn]
    exact ⟨fun _ => by rw [hh.newCells]; omega, fun hn => absurd hh.newLeaf hn⟩
  · rw [hpg] at hj ⊢
    rw [← childAt_of_lt hj]
    exact h.ne_invalid (h.childLt j hj.le)
  · rw [hpg, hpn] at ha hslot
    exact hQ a' ha (hslot hrne)

end Wp

end LeafParent

end ToySQL
