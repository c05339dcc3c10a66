import ToySQL.Proof.LeafSplit
import ToySQL.Proof.RootSplit
import ToySQL.Proof.Step

/-!
# A table in order

As long as a full leaf below the root is only split where the code does it right, a table is
a root leaf, or a root above leaves in ascending order.

* `RootLeaf.insert_room`, `RootLeaf.insert_full`, `RootNode.insert_room`, `RootNode.insert_right`:
  what an insertion makes of it.
* `RootLeaf.wp_insertRow`, `RootNode.wp_insertRow`: the code does so.
* `InOrder.wp_tableFind`: every key is found.
-/

namespace ToySQL

open Program Page

/-- The table is one leaf. -/
structure RootLeaf (m : Mem) (keys : List ℕ) : Prop where
  tight : m.Tight
  numPages : m.numPages = 1
  leaf : (m.page 0).isLeaf = true
  isRoot : (m.page 0).isRoot = true
  numCells : (m.page 0).numCells ≤ 15
  sorted : (m.page 0).keys.Pairwise (· < ·)
  mem : ∀ k, k ∈ keys ↔ k ∈ (m.page 0).keys

/-- The root is above the leaves. -/
structure RootNode (m : Mem) (keys : List ℕ) : Prop where
  tight : m.Tight
  numPages : m.numPages = (m.page 0).numKeys + 2
  node : LeafParent m.page m.numPages 0
  mem : ∀ k, k ∈ keys ↔ ∃ i ≤ (m.page 0).numKeys, k ∈ (below m.page 0 i).keys

/-- The keys of the table are where the separators lead to. -/
inductive InOrder (m : Mem) (keys : List ℕ) : Prop where
  | leaf : RootLeaf m keys → InOrder m keys
  | node : RootNode m keys → InOrder m keys

/-- The largest key of an ascending list is its last. -/
theorem getLast_of_le {l : List ℕ} {last : ℕ} (hs : l.Pairwise (· < ·)) (hmem : last ∈ l)
    (hle : ∀ k ∈ l, k ≤ last) :
    l.getLast? = some last := by
  obtain ⟨k, hk⟩ : ∃ k, l.getLast? = some k :=
    ⟨_, List.getLast?_eq_some_getLast (List.ne_nil_of_mem hmem)⟩
  have hlast := le_of_getLast hs hk hmem
  have hk' := hle k (List.mem_of_getLast? hk)
  rw [hk, le_antisymm hk' hlast]

variable {m : Mem} {keys : List ℕ} {key p i : ℕ} {x : ℕ × Bytes rowSize} {pg a l r a' : Page}

/-! ## The keys of one leaf -/

theorem Mem.Inserted.keys_eq (ha : Mem.Inserted pg (pg.findCell x.1) x a) :
    a.keys = pg.keys.insertIdx (pg.findCell x.1) x.1 := by
  rw [← keys_insertIdx, ← ha.rows]
  rfl

/-- The keys of a leaf that took a row are the old ones and the new one. -/
theorem Mem.Inserted.mem_keys (ha : Mem.Inserted pg (pg.findCell x.1) x a) {k : ℕ} :
    k ∈ a.keys ↔ k = x.1 ∨ k ∈ pg.keys := by
  rw [ha.keys_eq, (perm_findCell pg x.1).mem_iff, List.mem_cons]

/-- The keys of the two halves are the old ones and the new one. -/
theorem mem_keys_halves {new : ℕ} (hh : Halves pg new (pg.findCell x.1) x l r) {k : ℕ} :
    k ∈ l.keys ∨ k ∈ r.keys ↔ k = x.1 ∨ k ∈ pg.keys := by
  rw [← List.mem_append, hh.keys_append, (perm_findCell pg x.1).mem_iff, List.mem_cons]

/-- The cell the search ends at has the key. -/
theorem findCell_spec (hs : pg.keys.Pairwise (· < ·)) (hk : key ∈ pg.keys) :
    pg.findCell key < pg.numCells ∧ pg.key (pg.findCell key) = key := by
  have hf := found_findCell (hs.imp le_of_lt) key
  rw [keys_eq, List.mem_map] at hk
  obtain ⟨i, hi, hik⟩ := hk
  obtain ⟨hlt, hcmp⟩ := hf.eq ⟨i, List.mem_range.1 hi, if_pos hik.symm⟩
  refine ⟨hlt, ?_⟩
  unfold cmpKey at hcmp
  split_ifs at hcmp with h
  exact h.symm

/-! ## The root leaf -/

namespace SplitsRoot

variable {page page' : ℕ → Page} {c left right n : ℕ}

theorem childAt (h : SplitsRoot page page' c x left right) :
    (page' 0).childAt 0 = left ∧ (page' 0).childAt 1 = right := by
  have hchildren : (page' 0).children = [left, right] := h.children
  have h0 : (page' 0).children[0]? = some left := by rw [hchildren]; rfl
  have h1 : (page' 0).children[1]? = some right := by rw [hchildren]; rfl
  exact ⟨(getElem?_children.1 h0).2, (getElem?_children.1 h1).2⟩

/-- What both halves have, the children of the new root have. -/
theorem forall_below (h : SplitsRoot page page' c x left right) {P : Page → Prop}
    (hl : P (page' left)) (hr : P (page' right)) :
    ∀ i ≤ (page' 0).numKeys, P (below page' 0 i) := by
  have hnum : (page' 0).numKeys = 1 := h.numKeys
  intro i hi
  rw [hnum] at hi
  unfold below
  rcases Nat.le_one_iff_eq_zero_or_eq_one.1 hi with rfl | rfl
  · rwa [h.childAt.1]
  · rwa [h.childAt.2]

/-- **The new root** is above leaves in ascending order. -/
theorem leafParent (h : SplitsRoot page page' c x left right)
    (hs : (((page rootPageNum).rows.insertIdx c x).map Prod.fst).Pairwise (· < ·)) (h0 : 0 < n)
    (hl : left < n) (hr : right < n)
    (hn : n ≤ filePagesNum) : LeafParent page' n 0 := by
  have hnum : (page' 0).numKeys = 1 := h.numKeys
  have hkeysl : (page' left).keys =
      (((page rootPageNum).rows.insertIdx c x).map Prod.fst).take leafNodeLeftSplitCount := by
    rw [Page.keys, h.lower, List.map_take]
  have hkeysr : (page' right).keys =
      (((page rootPageNum).rows.insertIdx c x).map Prod.fst).drop leafNodeLeftSplitCount := by
    rw [Page.keys, h.upper, List.map_drop]
  have hsl : (page' left).keys.Pairwise (· < ·) := by
    rw [hkeysl]
    exact hs.sublist (List.take_sublist _ _)
  have hsr : (page' right).keys.Pairwise (· < ·) := by
    rw [hkeysr]
    exact hs.sublist (List.drop_sublist _ _)
  -- the new root has one separator, so every clause is about the two halves
  constructor
  case pages => exact hn
  case lt => exact h0
  case internal => exact h.internal
  case numKeys =>
    rw [hnum]
    decide
  case childLt =>
    intro i hi
    rw [hnum] at hi
    rcases Nat.le_one_iff_eq_zero_or_eq_one.1 hi with rfl | rfl
    · rwa [h.childAt.1]
    · rwa [h.childAt.2]
  case leaf => exact h.forall_below (P := fun a => a.isLeaf = true) h.leaf.1 h.leaf.2
  case isRoot => exact h.forall_below (P := fun a => a.isRoot = false) h.isRoot.2.1 h.isRoot.2.2
  case parent => exact h.forall_below (P := fun a => a.parent = 0) h.parent.1 h.parent.2
  case numCells =>
    refine h.forall_below (P := fun a => a.numCells ≤ leafNodeMaxCells) ?_ ?_
    · rw [h.numCells.1]
      decide
    · rw [h.numCells.2]
      decide
  case sorted => exact h.forall_below (P := fun a => a.keys.Pairwise (· < ·)) hsl hsr
  case sep =>
    intro i hi
    obtain rfl : i = 0 := by omega
    rw [below, h.childAt.1]
    exact h.sep
  case ascending =>
    intro i hi k hk
    obtain rfl : i = 0 := by omega
    rw [below, zero_add, h.childAt.2, hkeysr] at hk
    have hsep := List.mem_of_getLast? h.sep
    rw [hkeysl] at hsep
    rw [← List.take_append_drop leafNodeLeftSplitCount
      (((page rootPageNum).rows.insertIdx c x).map Prod.fst)] at hs
    exact (List.pairwise_append.1 hs).2.2 _ hsep k hk

end SplitsRoot

namespace RootLeaf

/-- A root leaf with room takes a key. -/
theorem insert_room (h : RootLeaf m keys) (hx : x.1 ∉ keys) (hroom : (m.page 0).numCells < 15)
    (ha : Mem.Inserted (m.page 0) ((m.page 0).findCell x.1) x a) :
    RootLeaf (m.set 0 a) (x.1 :: keys) := by
  have hpage : (m.set 0 a).page 0 = a := Mem.page_set_self _ _ _
  rw [h.mem] at hx
  constructor
  case tight => exact h.tight.set 0 a
  case numPages => exact h.numPages
  all_goals rw [hpage]
  case leaf => rw [ha.header.isLeaf (by simp), h.leaf]
  case isRoot => rw [ha.header.isRoot (by simp), h.isRoot]
  case numCells =>
    rw [ha.numCells (findCell_le _ _)]
    exact hroom
  case sorted =>
    rw [ha.keys_eq]
    exact strict_findCell h.sorted hx
  case mem =>
    intro k
    rw [List.mem_cons, h.mem, ha.mem_keys]

/-- **The split of the root leaf.** -/
theorem insert_full (h : RootLeaf m keys) (hx : x.1 ∉ keys)
    (hh : Halves (m.page 0) m.numPages ((m.page 0).findCell x.1) x l r) :
    RootNode (((m.alloc.set 0 l).set m.numPages r).newRoot m.numPages) (x.1 :: keys) := by
  rw [h.mem] at hx
  have hsplit := Mem.splitsRoot_newRoot (by rw [h.numPages]; decide) (by rw [h.numPages]; decide)
    h.leaf h.tight hh
  -- the keys with the new one in place ascend, and both halves are parts of them
  have hasc :
      (((m.page 0).rows.insertIdx ((m.page 0).findCell x.1) x).map Prod.fst).Pairwise (· < ·) := by
    rw [keys_insertIdx]
    exact strict_findCell h.sorted hx
  have hnum : (((m.alloc.set 0 l).set m.numPages r).newRoot m.numPages).numPages = 3 := by
    rw [Mem.newRoot_numPages, Mem.Tight.numPages_alloc (h.tight.alloc.set 0 l |>.set m.numPages r)]
    show m.alloc.numPages + 1 = 3
    rw [h.tight.numPages_alloc, h.numPages]
  have htight : (((m.alloc.set 0 l).set m.numPages r).newRoot m.numPages).Tight :=
    (h.tight.alloc.set 0 l |>.set m.numPages r).newRoot
  generalize ((m.alloc.set 0 l).set m.numPages r).newRoot m.numPages = m' at hsplit hnum htight
  constructor
  case tight => exact htight
  case numPages =>
    rw [hnum]
    exact (congrArg (· + 2) hsplit.numKeys).symm
  case node =>
    rw [hnum]
    exact hsplit.leafParent hasc (by decide) (by rw [h.numPages]; decide)
      (by rw [h.numPages]; decide) (by decide)
  case mem =>
    have hkeysl : (m'.page (m.numPages + 1)).keys = l.keys :=
      congrArg (List.map Prod.fst) (hsplit.lower.trans hh.rows.symm)
    have hkeysr : (m'.page m.numPages).keys = r.keys :=
      congrArg (List.map Prod.fst) (hsplit.upper.trans hh.newRows.symm)
    have hnumKeys : (m'.page 0).numKeys = 1 := hsplit.numKeys
    intro k
    rw [List.mem_cons, h.mem, ← mem_keys_halves hh, hnumKeys]
    constructor
    · rintro (hk | hk)
      · exact ⟨0, by decide, by rwa [below, hsplit.childAt.1, hkeysl]⟩
      · exact ⟨1, by decide, by rwa [below, hsplit.childAt.2, hkeysr]⟩
    · rintro ⟨i, hi, hk⟩
      rcases Nat.le_one_iff_eq_zero_or_eq_one.1 hi with rfl | rfl
      · rw [below, hsplit.childAt.1, hkeysl] at hk
        exact Or.inl hk
      · rw [below, hsplit.childAt.2, hkeysr] at hk
        exact Or.inr hk

end RootLeaf

/-! ## The root node -/

/-- Different slots lead to different leaves. -/
theorem LeafParent.childAt_inj {page : ℕ → Page} {n g j : ℕ} (h : LeafParent page n g)
    (hi : i ≤ (page g).numKeys)
    (hj : j ≤ (page g).numKeys) (heq : (page g).childAt i = (page g).childAt j) : i = j := by
  rcases hi.lt_or_eq with hlt | rfl
  · exact h.eq_of_childAt hlt hj heq
  · rcases hj.lt_or_eq with hlt | rfl
    · exact (h.eq_of_childAt hlt le_rfl heq.symm).symm
    · rfl

/-- The children of a node in which a row was inserted into the child `i`. -/
theorem LeafParent.below_set {g : ℕ} (h : LeafParent m.page m.numPages g)
    (hi : i ≤ (m.page g).numKeys) (a : Page) {j : ℕ}
    (hj : j ≤ (m.page g).numKeys) :
    (m.set ((m.page g).childAt i) a).page g = m.page g ∧
      below (m.set ((m.page g).childAt i) a).page g j = if j = i then a else below m.page g j := by
  have hg : (m.set ((m.page g).childAt i) a).page g = m.page g :=
    Mem.page_set_ne _ _ (h.childAt_ne hi).symm
  refine ⟨hg, ?_⟩
  rw [below, hg]
  by_cases hji : j = i
  · rw [if_pos hji, hji, Mem.page_set_self]
  · rw [if_neg hji, Mem.page_set_ne _ _ fun heq => hji (h.childAt_inj hj hi heq)]
    rfl

/-- **A row in a leaf with room** keeps the order. -/
theorem LeafParent.insert_room {g : ℕ} (h : LeafParent m.page m.numPages g)
    (hi : (m.page g).findChild x.1 = i)
    (hp : (m.page g).childAt i = p) (hroom : (m.page p).numCells < 15) (hx : x.1 ∉ (m.page p).keys)
    (ha : Mem.Inserted (m.page p) ((m.page p).findCell x.1) x a) :
    LeafParent (m.set p a).page m.numPages g := by
  subst hp hi
  have hle := findChild_le (m.page g) x.1
  obtain ⟨hkey, hfound⟩ := h.findChild_spec x.1
  have hg := (h.below_set hle a hle).1
  have hbelow := fun j hj => (h.below_set hle a (j := j) hj).2
  generalize (m.page g).findChild x.1 = i at *
  -- what the new leaf and the others have, all children have
  have hall : ∀ P : Page → Prop, P a → (∀ j ≤ (m.page g).numKeys, P (below m.page g j)) →
      ∀ j ≤ (m.page g).numKeys, P (below (m.set ((m.page g).childAt i) a).page g j) := by
    intro P hP hold j hj
    rw [hbelow j hj]
    split
    · exact hP
    · exact hold j hj
  have hsorted : a.keys.Pairwise (· < ·) := by
    rw [ha.keys_eq]
    exact strict_findCell (h.sorted i hle) hx
  constructor
  case pages => exact h.pages
  case lt => exact h.lt
  all_goals rw [hg]
  case internal => exact h.internal
  case numKeys => exact h.numKeys
  case childLt => exact h.childLt
  case leaf =>
    exact hall (fun a => a.isLeaf = true)
      ((ha.header.isLeaf (by simp)).trans (h.leaf i hle)) h.leaf
  case isRoot =>
    exact hall (fun a => a.isRoot = false)
      ((ha.header.isRoot (by simp)).trans (h.isRoot i hle)) h.isRoot
  case parent =>
    exact hall (fun a => a.parent = g)
      ((ha.header.parent (by simp)).trans (h.parent i hle)) h.parent
  case numCells =>
    refine hall (fun a => a.numCells ≤ leafNodeMaxCells) ?_ h.numCells
    rw [ha.numCells (findCell_le _ _)]
    exact hroom
  case sorted => exact hall (fun a => a.keys.Pairwise (· < ·)) hsorted h.sorted
  case sep =>
    intro j hj
    rw [hbelow j hj.le]
    split
    case isFalse => exact h.sep j hj
    case isTrue hji =>
      subst hji
      refine getLast_of_le hsorted (ha.mem_keys.2 (Or.inr (h.sep_mem hj))) fun k hk => ?_
      rcases ha.mem_keys.1 hk with rfl | hk
      · exact hfound j le_rfl hj
      · exact h.le_sep hj hk
  case ascending =>
    intro j hj k hk
    rw [hbelow (j + 1) hj] at hk
    split at hk
    case isFalse => exact h.ascending j hj k hk
    case isTrue hji =>
      subst hji
      rcases ha.mem_keys.1 hk with rfl | hk
      · exact hkey j (Nat.lt_succ_self j)
      · exact h.ascending j hj k hk

/-- **The split of the right child** keeps the order. -/
theorem LeafParent.SplitRight.leafParent {page' : ℕ → Page} {g oldMax : ℕ}
    (hs : SplitRight m.page page' g m.numPages oldMax l r) (h : LeafParent m.page m.numPages g)
    (hn : m.numPages < filePagesNum) (hroom : (m.page g).numKeys < 3)
    (hp : (m.page g).rightChild = p)
    (hkey : ∀ j < (m.page g).numKeys, (m.page g).sep j < x.1) (hx : x.1 ∉ (m.page p).keys)
    (hh : Halves (m.page p) m.numPages ((m.page p).findCell x.1) x l r) :
    LeafParent page' (m.numPages + 1) g := by
  have hchild : below m.page g (m.page g).numKeys = m.page p :=
    congrArg m.page (childAt_numKeys.trans hp)
  have hstray := SameHeader.stray l oldMax
  obtain ⟨-, hlsorted⟩ := h.keys_halves le_rfl (childAt_numKeys.trans hp) hx hh
  obtain ⟨hsl, hsr, -⟩ := List.pairwise_append.1 hlsorted
  obtain ⟨hleaf, hmaxl, -⟩ := h.maxKey_right hp hx hh
  -- what holds of the old leaves and of both halves holds of all the new leaves
  have hall : ∀ P : Page → Prop, (∀ j ≤ (m.page g).numKeys, P (below m.page g j)) →
      (P (m.page p) → P (l.stray oldMax)) → P r → ∀ j ≤ (page' g).numKeys, P (below page' g j) := by
    intro P hold hl hr j hj
    rw [hs.numKeys] at hj
    rcases hj.lt_or_eq with hlt | rfl
    · rcases (Nat.lt_succ_iff.1 hlt).lt_or_eq with hlt | rfl
      · rw [hs.others j hlt]
        exact hold j hlt.le
      · rw [hs.lower]
        exact hl (hchild ▸ hold _ le_rfl)
    · rw [hs.upper]
      exact hr
  have hparent : (m.page p).parent = g := by
    rw [← hchild]
    exact h.parent _ le_rfl
  constructor
  case pages => exact hn
  case lt => exact h.lt.trans (Nat.lt_succ_self _)
  case internal =>
    have hi := h.internal
    unfold isInternal at hi ⊢
    rwa [hs.header.type (by simp)]
  case numKeys =>
    rw [hs.numKeys]
    exact hroom
  case childLt =>
    intro j hj
    rw [hs.numKeys] at hj
    rcases hj.lt_or_eq with hlt | rfl
    · rw [hs.childAt j (Nat.lt_succ_iff.1 hlt)]
      exact (h.childLt j (Nat.lt_succ_iff.1 hlt)).trans (Nat.lt_succ_self _)
    · rw [hs.last]
      exact Nat.lt_succ_self _
  case leaf =>
    refine hall (fun a => a.isLeaf = true) h.leaf (fun _ => ?_) hh.newLeaf
    rw [hstray.isLeaf (by simp), hleaf]
  case isRoot =>
    refine hall (fun a => a.isRoot = false) h.isRoot (fun hr => ?_) hh.newRoot
    rw [hstray.isRoot (by simp), hh.header.isRoot (by simp), hr]
  case parent =>
    refine hall (fun a => a.parent = g) h.parent (fun hpar => ?_) (hh.newParent.trans hparent)
    rw [hstray.parent (by simp), hh.header.parent (by simp), hpar]
  case numCells =>
    refine hall (fun a => a.numCells ≤ leafNodeMaxCells) h.numCells (fun _ => ?_) ?_
    · rw [hstray.numCells (by simp), hh.numCells]
      decide
    · rw [hh.newCells]
      decide
  case sorted =>
    refine hall (fun a => a.keys.Pairwise (· < ·)) h.sorted (fun _ => ?_) hsr
    rwa [keys_stray hh.numCells.le]
  case sep =>
    intro j hj
    rw [hs.numKeys] at hj
    rcases (Nat.lt_succ_iff.1 hj).lt_or_eq with hlt | rfl
    · rw [hs.others j hlt, hs.sep j hlt]
      exact h.sep j hlt
    · rw [hs.lower, hs.lastSep, keys_stray hh.numCells.le]
      exact hmaxl
  case ascending => exact (hs.separators h hp hkey hx hh).2

namespace RootNode

/-- The child a key belongs to has it if the table has it. -/
theorem mem_iff (h : RootNode m keys) (hp : (m.page 0).childAt ((m.page 0).findChild key) = p) :
    key ∈ keys ↔ key ∈ (m.page p).keys := by
  obtain ⟨hbelow, habove⟩ := h.node.findChild_spec key
  have hle := findChild_le (m.page 0) key
  have hpage : below m.page 0 ((m.page 0).findChild key) = m.page p := congrArg m.page hp
  rw [h.mem]
  constructor
  · rintro ⟨i, hi, hk⟩
    rcases lt_trichotomy i ((m.page 0).findChild key) with hlt | rfl | hgt
    · exact absurd (hbelow i hlt) (not_lt.2 (h.node.le_sep (hlt.trans_le hle) hk))
    · rwa [← hpage]
    · have hsep := h.node.sep_lt hgt hi hk
      exact absurd (habove _ le_rfl (hgt.trans_le hi)) (not_le.2 hsep)
  · intro hk
    exact ⟨_, hle, by rwa [hpage]⟩

/-- A leaf with room below the root takes a key. -/
theorem insert_room (h : RootNode m keys) (hx : x.1 ∉ keys)
    (hp : (m.page 0).childAt ((m.page 0).findChild x.1) = p)
    (hroom : (m.page p).numCells < 15)
    (ha : Mem.Inserted (m.page p) ((m.page p).findCell x.1) x a) :
    RootNode (m.set p a) (x.1 :: keys) := by
  have hnode := h.node.insert_room rfl hp hroom (by rwa [← h.mem_iff hp]) ha
  have hle := findChild_le (m.page 0) x.1
  -- only the leaf of the lookup has changed
  have hbelow := fun j hj => h.node.below_set hle a (j := j) hj
  rw [hp] at hbelow
  have hpage : below m.page 0 ((m.page 0).findChild x.1) = m.page p := congrArg m.page hp
  constructor
  case tight => exact h.tight.set p a
  case node => exact hnode
  all_goals rw [(hbelow _ hle).1]
  case numPages => exact h.numPages
  case mem =>
    intro k
    rw [List.mem_cons, h.mem]
    constructor
    · rintro (rfl | ⟨i, hi, hk⟩)
      · refine ⟨_, hle, ?_⟩
        rw [(hbelow _ hle).2, if_pos rfl]
        exact ha.mem_keys.2 (Or.inl rfl)
      · refine ⟨i, hi, ?_⟩
        rw [(hbelow i hi).2]
        split
        case isFalse => exact hk
        case isTrue heq =>
          rw [heq, hpage] at hk
          exact ha.mem_keys.2 (Or.inr hk)
    · rintro ⟨i, hi, hk⟩
      rw [(hbelow i hi).2] at hk
      split at hk
      case isFalse => exact Or.inr ⟨i, hi, hk⟩
      case isTrue heq =>
        rcases ha.mem_keys.1 hk with rfl | hk
        · exact Or.inl rfl
        · exact Or.inr ⟨_, hle, by rwa [hpage]⟩

/-- **The split of the right child.** -/
theorem insert_right (h : RootNode m keys) (hx : x.1 ∉ keys)
    (hp : (m.page 0).childAt ((m.page 0).findChild x.1) = p)
    (hroom : (m.page 0).numKeys < 3) (hright : (m.page 0).rightChild = p)
    (hh : Halves (m.page p) m.numPages ((m.page p).findCell x.1) x l r)
    (ha : AddChild (m.page 0) m.numPages r.maxKey
      ((Tree.cut m p l r).page (m.page 0).rightChild).maxKey a') :
    RootNode ((Tree.cut m p l r).set 0 a') (x.1 :: keys) := by
  have hx' : x.1 ∉ (m.page p).keys := by rwa [← h.mem_iff hp]
  -- the lookup ended at the right child, so the key is above all separators
  have hkey : ∀ j < (m.page 0).numKeys, (m.page 0).sep j < x.1 := by
    have hlast :=
      h.node.childAt_inj (findChild_le _ _) le_rfl
        (hp.trans (hright.symm.trans childAt_numKeys.symm))
    have hbelow := (h.node.findChild_spec x.1).1
    rwa [hlast] at hbelow
  have hnum : ((Tree.cut m p l r).set 0 a').numPages = m.numPages + 1 := h.tight.numPages_alloc
  have hsplit := h.node.splitRight hroom hright hx' hh ha
  have hchild : below m.page 0 (m.page 0).numKeys = m.page p :=
    congrArg m.page (childAt_numKeys.trans hright)
  constructor
  case tight => exact h.tight.alloc
  case numPages => rw [hnum, hsplit.numKeys, h.numPages]
  case node =>
    rw [hnum]
    refine hsplit.leafParent h.node ?_ hroom hright hkey hx' hh
    rw [h.numPages]
    exact (show (m.page 0).numKeys + 2 < 5 by omega).trans (by decide)
  case mem =>
    intro k
    have hkeys : (l.stray (m.page p).maxKey).keys = l.keys := keys_stray hh.numCells.le
    rw [List.mem_cons, h.mem, hsplit.numKeys]
    constructor
    · rintro hk
      -- a key is in one of the old leaves or in one of the halves
      have hcases : (∃ i < (m.page 0).numKeys, k ∈ (below m.page 0 i).keys) ∨ k ∈ l.keys ∨
          k ∈ r.keys := by
        rcases hk with rfl | ⟨i, hi, hk⟩
        · exact Or.inr ((mem_keys_halves hh).2 (Or.inl rfl))
        · rcases hi.lt_or_eq with hlt | rfl
          · exact Or.inl ⟨i, hlt, hk⟩
          · rw [hchild] at hk
            exact Or.inr ((mem_keys_halves hh).2 (Or.inr hk))
      rcases hcases with ⟨i, hi, hk⟩ | hk | hk
      · exact ⟨i, hi.le.trans (Nat.le_succ _), by rwa [hsplit.others i hi]⟩
      · exact ⟨_, Nat.le_succ _, by rwa [hsplit.lower, hkeys]⟩
      · exact ⟨_, le_rfl, by rwa [hsplit.upper]⟩
    · rintro ⟨i, hi, hk⟩
      have hhalf : k ∈ l.keys ∨ k ∈ r.keys → k = x.1 ∨ ∃ i ≤ (m.page 0).numKeys,
          k ∈ (below m.page 0 i).keys := by
        intro hk
        rcases (mem_keys_halves hh).1 hk with rfl | hk
        · exact Or.inl rfl
        · exact Or.inr ⟨_, le_rfl, by rwa [hchild]⟩
      rcases hi.lt_or_eq with hlt | rfl
      · rcases (Nat.lt_succ_iff.1 hlt).lt_or_eq with hlt | rfl
        · rw [hsplit.others i hlt] at hk
          exact Or.inr ⟨i, hlt.le, hk⟩
        · rw [hsplit.lower, hkeys] at hk
          exact hhalf (Or.inl hk)
      · rw [hsplit.upper] at hk
        exact hhalf (Or.inr hk)

end RootNode

/-! ## The code, in flat memory -/

open Mem

variable {K T : ℕ → Prop} [DecidablePred K] [DecidablePred T] {F : Fault → Mem → Prop} {fuel : ℕ}
    {op : Insertion}

namespace RootLeaf

theorem wp_tableFind {Q : Cursor → Mem → Prop} (h : RootLeaf m keys) (hT : T 0)
    (hQ : Q (makeCursor 0 ((m.page 0).findCell key)) m) :
    wp (handler K T) (tableFind fuel key) Q F m := by
  have h0 : 0 < m.numPages := by
    rw [h.numPages]
    exact Nat.one_pos
  have htype : (m.page 0).type = .leaf := of_decide_eq_true h.leaf
  unfold tableFind rootPageNum
  simp only [wp_bind, wp_getPage hT, h.tight.touch_of_lt h0, wp_getNodeType, htype]
  rw [wp_leafNodeFind hT h.numCells, h.tight.touch_of_lt h0]
  exact hQ

/-- **An insertion into the root leaf** completes, with the leaf or with a new root. -/
theorem wp_insertRow {Q : Unit → Mem → Prop} (h : RootLeaf m keys) (hx : op.key.toNat ∉ keys)
    (hK : K 0) (hT : ∀ q < 3, T q)
    (hQ : ∀ m', InOrder m' (op.key.toNat :: keys) → Q () m') :
    wp (handler K T) (insertRow fuel op) Q F m := by
  have h0 : 0 < m.numPages := by
    rw [h.numPages]
    exact Nat.one_pos
  have hT0 : T 0 := hT 0 (by decide)
  unfold insertRow
  rw [wp_bind]
  apply h.wp_tableFind hT0
  -- a full root leaf is split, its slot 0 then holds a key and not the invalid page
  by_cases hroom : (m.page 0).numCells < 15
  · refine wp_leafNodeInsert_room hT0 hroom (findCell_le _ _) op.key.toNat_lt fun a ha => ?_
    rw [h.tight.touch_of_lt h0]
    exact hQ _ (.leaf (h.insert_room (x := op.cell) hx hroom ha))
  · have hfull : (m.page 0).numCells = 15 := le_antisymm h.numCells (not_lt.1 hroom)
    have hnum := h.numPages
    have hTn : T m.numPages := hT _ (by omega)
    refine wp_leafNodeInsert_full h.tight h0 hT0 (by omega) h.leaf hfull
      ((findCell_le _ _).trans hfull.le) op.key.toNat_lt
      (fun hn => absurd hTn hn) (fun _ _ l r hh => ?_) fun _ hn => ?_
    · have hpage : ((m.alloc.set 0 l).set m.numPages r).page 0 = l := by
        rw [page_set_ne _ _ h0.ne, page_set_self]
      have hnum' : ((m.alloc.set 0 l).set m.numPages r).numPages = m.numPages + 1 :=
        h.tight.numPages_alloc
      have hx' : op.key.toNat ∉ (m.page 0).keys := by rwa [← h.mem]
      have hasc : (l.keys ++ r.keys).Pairwise (· < ·) := by
        rw [hh.keys_append]
        exact strict_findCell h.sorted hx'
      have hsorted : l.keys.Pairwise (· < ·) := (List.pairwise_append.1 hasc).1
      refine wp_createNewRoot_leaf (m := (m.alloc.set 0 l).set m.numPages r) h.tight.alloc
        (by omega) (by omega) h0.ne'
        ⟨hT0, hTn⟩ (by rw [hpage]; exact hh.isLeaf h.leaf) (by rw [hpage, hh.numCells]; decide) hK
          (fun hv => ?_)
        (fun hn => ?_) fun _ => hQ _ (.node (h.insert_full (x := op.cell) hx hh))
      · rw [hpage, child_zero] at hv
        exact absurd hv (key_ne_invalid hh.numCells hsorted)
      · exact absurd (hT _ (by omega)) hn
    · rw [h.isRoot] at hn
      cases hn

end RootLeaf

namespace RootNode

/-- `table_find` in a table of two levels. -/
theorem wp_tableFind {Q : Cursor → Mem → Prop} (h : RootNode m keys) (hK : ∀ i < 3, K i) (hT0 : T 0)
    (hp : (m.page 0).childAt ((m.page 0).findChild key) = p) (hTp : T p)
    (hQ : Q (makeCursor p ((m.page p).findCell key)) m) :
    wp (handler K T) (tableFind fuel key) Q F m := by
  have htype : (m.page 0).type = .internal := of_decide_eq_true h.node.internal
  unfold tableFind rootPageNum
  simp only [wp_bind, wp_getPage hT0, h.tight.touch_of_lt h.node.lt, wp_getNodeType, htype]
  exact h.node.wp_internalNodeFind h.tight hK hT0 hp hTp hQ fuel

/-- **An insertion below the root** completes in a leaf with room, and in the right child as long
as the root takes another one. -/
theorem wp_insertRow {Q : Unit → Mem → Prop} (h : RootNode m keys) (hx : op.key.toNat ∉ keys)
    (hK : ∀ i < 3, K i)
    (hT : ∀ q ≤ m.numPages, T q) (hp : (m.page 0).childAt ((m.page 0).findChild op.key.toNat) = p)
    (hcond : (m.page p).numCells < 15 ∨ p = (m.page 0).rightChild ∧ (m.page 0).numKeys < 3 ∧
      (m.page 0).child (m.page 0).numKeys ≠ invalidPageNum)
    (hQ : ∀ m', InOrder m' (op.key.toNat :: keys) → Q () m') :
    wp (handler K T) (insertRow fuel op) Q F m := by
  have hle := findChild_le (m.page 0) op.key.toNat
  have hplt : p < m.numPages := hp ▸ h.node.childLt _ hle
  have hTp : T p := hT p hplt.le
  unfold insertRow
  rw [wp_bind]
  apply h.wp_tableFind hK (hT 0 (Nat.zero_le _)) hp hTp
  by_cases hroom : (m.page p).numCells < 15
  · refine wp_leafNodeInsert_room hTp hroom (findCell_le _ _) op.key.toNat_lt fun a ha => ?_
    rw [h.tight.touch_of_lt hplt]
    exact hQ _ (.node (h.insert_room (x := op.cell) hx hp hroom ha))
  · obtain ⟨hright, hkeys, hslot⟩ := hcond.resolve_left hroom
    have hcells := h.node.numCells _ hle
    rw [below, hp] at hcells
    have hfull : (m.page p).numCells = 15 := le_antisymm hcells (not_lt.1 hroom)
    have hpr : (m.page 0).childAt (m.page 0).numKeys = p := childAt_numKeys.trans hright.symm
    rw [leafNodeInsert_eq, wp_bind]
    refine h.node.wp_leafNodeStage_full h.tight le_rfl hpr hfull ((findCell_le _ _).trans hfull.le)
      op.key.toNat_lt hTp
      (hT _ le_rfl) fun l r hh => ?_
    refine h.node.wp_internalNodeInsert_half h.tight le_rfl hpr hkeys hh hK
      ⟨hT 0 (Nat.zero_le _), hT _ le_rfl, hT _ (h.node.rightChild_lt).le⟩
        (fun hinv => absurd hinv hslot) fun a' ha _ => ?_
    exact hQ _ (.node (h.insert_right (x := op.cell) hx hp hkeys hright.symm hh ha))

end RootNode

theorem RootNode.numPages_lt (h : RootNode m keys) : m.numPages < filePagesNum := by
  have hle := h.node.numKeys
  rw [h.numPages]
  exact (show (m.page 0).numKeys + 2 < 6 from Nat.add_lt_add_right (Nat.lt_succ_of_le hle) 2).trans
    (by decide)

theorem InOrder.numPages_lt (h : InOrder m keys) : m.numPages < filePagesNum := by
  cases h with
  | leaf h =>
    rw [h.numPages]
    decide
  | node h => exact h.numPages_lt

/-- **Every key is found.** -/
theorem InOrder.wp_tableFind {Q : Cursor → Mem → Prop} (h : InOrder m keys) (hmem : key ∈ keys)
    (hK : ∀ i < 3, K i)
    (hT : ∀ q < m.numPages, T q)
    (hQ : ∀ p i, p < m.numPages → (m.page p).isLeaf = true → i < (m.page p).numCells →
      (m.page p).key i = key →
      Q (makeCursor p i) m) : wp (handler K T) (tableFind fuel key) Q F m := by
  cases h with
  | leaf h =>
    have h0 : 0 < m.numPages := by
      rw [h.numPages]
      exact Nat.one_pos
    obtain ⟨hlt, hkey⟩ := findCell_spec h.sorted ((h.mem key).1 hmem)
    exact h.wp_tableFind (hT 0 h0) (hQ 0 _ h0 h.leaf hlt hkey)
  | node h =>
    have hle := findChild_le (m.page 0) key
    have hplt := h.node.childLt _ hle
    obtain ⟨hlt, hkey⟩ := findCell_spec (h.node.sorted _ hle) ((h.mem_iff rfl).1 hmem)
    exact h.wp_tableFind hK (hT 0 h.node.lt) rfl (hT _ hplt)
      (hQ _ _ hplt (h.node.leaf _ hle) hlt hkey)

end ToySQL
