import ToySQL.Proof.NoPage
import ToySQL.Proof.Parents
import ToySQL.Proof.Reach

/-!
# A full leaf below a node

* `LeafParent.splits_right`: the split of the right child is recorded in the node.
* `LeafParent.not_splits_cell`: the split of any other child is not, since the new leaf comes
  before the one that was split.
* `LeafParent.insert_spec`: what the insertion does to the node and the two leaves.
-/

namespace ToySQL

open Program Page

namespace Page

variable {pg : Page} {key : ℕ}

/-- A key put in at the cursor. -/
theorem perm_findCell (pg : Page) (key : ℕ) :
    (pg.keys.insertIdx (pg.findCell key) key).Perm (key :: pg.keys) :=
  List.perm_insertIdx _ _ (by rw [length_keys]; exact findCell_le _ _)

/-- A new key keeps the order strict. -/
theorem strict_findCell (hs : pg.keys.Pairwise (· < ·)) (hk : key ∉ pg.keys) :
    (pg.keys.insertIdx (pg.findCell key) key).Pairwise (· < ·) := by
  have hnodup := (perm_findCell pg key).nodup_iff.2 (List.nodup_cons.2 ⟨hk, hs.imp ne_of_lt⟩)
  exact ((sorted_findCell (hs.imp le_of_lt) key).and hnodup).imp fun hab =>
    lt_of_le_of_ne hab.1 hab.2

end Page

namespace LeafParent

variable {m : Mem} {g p key i : ℕ} {x : ℕ × Bytes rowSize} {l r a' : Page}

/-! ## The halves of the leaf -/

/-- The keys of the halves are those of the leaf and the new one, in order. -/
theorem keys_halves (h : LeafParent m.page m.numPages g) (hi : i ≤ (m.page g).numKeys)
    (hp : (m.page g).childAt i = p) (hx : x.1 ∉ (m.page p).keys)
    (hh : Halves (m.page p) m.numPages ((m.page p).findCell x.1) x l r) :
    (l.keys ++ r.keys).Perm (x.1 :: (m.page p).keys) ∧ (l.keys ++ r.keys).Pairwise (· < ·) := by
  have hs := h.sorted i hi
  rw [below, hp] at hs
  rw [hh.keys_append]
  exact ⟨perm_findCell _ _, strict_findCell hs hx⟩

/-- The last key of the upper half. -/
theorem last_upper (hh : Halves (m.page p) m.numPages ((m.page p).findCell x.1) x l r) :
    r.keys.getLast? = some r.maxKey :=
  getLast_keys hh.newLeaf (by rw [hh.newCells]; decide)

/-! ## The parent after the split -/

/-- The pages after the split. -/
theorem page_split (l r a' : Page) (hgp : g ≠ p) (hgn : g ≠ m.numPages) (hpn : p ≠ m.numPages) :
    ((Tree.cut m p l r).set g a').page g = a' ∧
      ((Tree.cut m p l r).set g a').page p = l.stray (m.page p).maxKey ∧
      ((Tree.cut m p l r).set g a').page m.numPages = r ∧
      ∀ q, q ≠ g → q ≠ p → q ≠ m.numPages → ((Tree.cut m p l r).set g a').page q = m.page q := by
  refine ⟨Mem.page_set_self _ _ _, ?_, ?_, fun q hqg hqp hqn => ?_⟩
  · rw [Mem.page_set_ne _ _ hgp.symm, Tree.cut_page, if_neg hpn, if_pos rfl]
  · rw [Mem.page_set_ne _ _ hgn.symm, Tree.cut_page, if_pos rfl]
  · rw [Mem.page_set_ne _ _ hqg, Tree.cut_page, if_neg hqn, if_neg hqp]

/-! ## The children -/

/-- The lower half of the right child is below the upper one. -/
theorem maxKey_right (h : LeafParent m.page m.numPages g) (hp : (m.page g).rightChild = p)
    (hx : x.1 ∉ (m.page p).keys)
    (hh : Halves (m.page p) m.numPages ((m.page p).findCell x.1) x l r) :
    l.isLeaf = true ∧ l.keys.getLast? = some l.maxKey ∧
      ((Tree.cut m p l r).page (m.page g).rightChild).maxKey = l.maxKey ∧ l.maxKey < r.maxKey := by
  have hchild : (m.page g).childAt (m.page g).numKeys = p := childAt_numKeys.trans hp
  have hplt : p < m.numPages := hchild ▸ h.childLt _ le_rfl
  obtain ⟨-, hsorted⟩ := h.keys_halves le_rfl hchild hx hh
  have hleaf : l.isLeaf = true := by
    have hl := h.leaf _ le_rfl
    rw [below, hchild] at hl
    exact hh.isLeaf hl
  have hmaxl : l.keys.getLast? = some l.maxKey := getLast_keys hleaf (by rw [hh.numCells]; decide)
  refine ⟨hleaf, hmaxl, ?_, ?_⟩
  · rw [hp, Tree.cut_page, if_neg hplt.ne, if_pos rfl]
    exact maxKey_stray hh.numCells hleaf
  · exact (List.pairwise_append.1 hsorted).2.2 _ (List.mem_of_getLast? hmaxl) _
      (List.mem_of_getLast? (last_upper hh))

/-- The node and its children after the split of the right child into `l` and `r`. -/
structure SplitRight (page page' : ℕ → Page) (g new oldMax : ℕ) (l r : Page) : Prop where
  header : (page' g).SameHeader (page g) [6, 10]
  numKeys : (page' g).numKeys = (page g).numKeys + 1
  childAt : ∀ j ≤ (page g).numKeys, (page' g).childAt j = (page g).childAt j
  last : (page' g).childAt ((page g).numKeys + 1) = new
  sep : ∀ j < (page g).numKeys, (page' g).sep j = (page g).sep j
  lastSep : (page' g).sep (page g).numKeys = l.maxKey
  others : ∀ j < (page g).numKeys, below page' g j = below page g j
  lower : below page' g (page g).numKeys = l.stray oldMax
  upper : below page' g ((page g).numKeys + 1) = r

/-- **The right child.** The upper half becomes the right child, and the leaf gets a cell. -/
theorem splitRight (h : LeafParent m.page m.numPages g) (hroom : (m.page g).numKeys < 3)
    (hp : (m.page g).rightChild = p) (hx : x.1 ∉ (m.page p).keys)
    (hh : Halves (m.page p) m.numPages ((m.page p).findCell x.1) x l r)
    (ha : AddChild (m.page g) m.numPages r.maxKey
      ((Tree.cut m p l r).page (m.page g).rightChild).maxKey a') :
    SplitRight m.page ((Tree.cut m p l r).set g a').page g m.numPages (m.page p).maxKey l r := by
  have hchild : (m.page g).childAt (m.page g).numKeys = p := childAt_numKeys.trans hp
  have hplt : p < m.numPages := hchild ▸ h.childLt _ le_rfl
  have hgp : g ≠ p := fun heq => h.childAt_ne le_rfl (hchild.trans heq.symm)
  obtain ⟨hpageg, hpagep, hpagen, hpageq⟩ := page_split l r a' hgp h.lt.ne hplt.ne
  obtain ⟨-, -, hmax, hlt⟩ := h.maxKey_right hp hx hh
  rw [hmax] at ha
  obtain ⟨hheader, hk, hr, hslots⟩ : a'.SameHeader (m.page g) [6, 10] ∧
      a'.numKeys = (m.page g).numKeys + 1 ∧
      a'.rightChild = m.numPages ∧
      ∀ j < 3, a'.slot j = if j = (m.page g).numKeys then (p, l.maxKey) else (m.page g).slot j := by
    -- the new leaf has the larger keys, so it becomes the right child
    cases ha with
    | first he => exact absurd (hp.symm.trans he) (h.ne_invalid hplt)
    | append _ _ _ hheader hk hr hslots => exact ⟨hheader, hk, hr, by rwa [hp] at hslots⟩
    | place _ _ hle => exact absurd hlt (not_lt.2 hle)
  have hold : ∀ j < (m.page g).numKeys, a'.slot j = (m.page g).slot j := fun j hj => by
    rw [hslots j (by omega), if_neg hj.ne]
  have hleafSlot : a'.slot (m.page g).numKeys = (p, l.maxKey) := by rw [hslots _ hroom, if_pos rfl]
  -- the old right child is where the new cell points to
  have hchildAt : ∀ j ≤ (m.page g).numKeys, a'.childAt j = (m.page g).childAt j := by
    intro j hj
    rw [childAt_of_lt (by omega)]
    rcases hj.lt_or_eq with hlt | rfl
    · rw [childAt_of_lt hlt]
      exact congrArg Prod.fst (hold j hlt)
    · rw [hchild]
      exact congrArg Prod.fst hleafSlot
  have hlastChild : a'.childAt ((m.page g).numKeys + 1) = m.numPages := by
    rw [← hk, childAt_numKeys, hr]
  constructor
  case header => rwa [hpageg]
  case numKeys => rwa [hpageg]
  case childAt => rwa [hpageg]
  case last => rwa [hpageg]
  case sep =>
    rw [hpageg]
    exact fun j hj => congrArg Prod.snd (hold j hj)
  case lastSep =>
    rw [hpageg]
    exact congrArg Prod.snd hleafSlot
  case others =>
    intro j hj
    rw [below, hpageg, hchildAt j hj.le]
    refine hpageq _ (h.childAt_ne hj.le) (fun heq => ?_) (h.childLt j hj.le).ne
    exact absurd (h.eq_of_childAt hj le_rfl (heq.trans hchild.symm)) hj.ne
  case lower => rw [below, hpageg, hchildAt _ le_rfl, hchild, hpagep]
  case upper => rw [below, hpageg, hlastChild, hpagen]

/-- The separators after the split of the right child. -/
theorem SplitRight.separators {page' : ℕ → Page} {new oldMax : ℕ}
    (hs : SplitRight m.page page' g new oldMax l r)
    (h : LeafParent m.page m.numPages g) (hp : (m.page g).rightChild = p)
    (hkey : ∀ j < (m.page g).numKeys, (m.page g).sep j < x.1)
    (hx : x.1 ∉ (m.page p).keys)
    (hh : Halves (m.page p) m.numPages ((m.page p).findCell x.1) x l r) :
    (∀ j < (page' g).numKeys, ∀ k ∈ (below page' g j).keys, k ≤ (page' g).sep j) ∧
      ∀ j < (page' g).numKeys, ∀ k ∈ (below page' g (j + 1)).keys, (page' g).sep j < k := by
  have hchild : (m.page g).childAt (m.page g).numKeys = p := childAt_numKeys.trans hp
  obtain ⟨hperm, hsorted⟩ := h.keys_halves le_rfl hchild hx hh
  obtain ⟨-, hmaxl, -⟩ := h.maxKey_right hp hx hh
  have hlower : (below page' g (m.page g).numKeys).keys = l.keys := by
    rw [hs.lower]
    exact keys_stray hh.numCells.le
  rw [hs.numKeys]
  constructor
  · intro j hj k hkj
    rcases Nat.lt_succ_iff_lt_or_eq.1 hj with hjn | rfl
    · rw [hs.others j hjn] at hkj
      rw [hs.sep j hjn]
      exact h.le_sep hjn hkj
    · rw [hlower] at hkj
      rw [hs.lastSep]
      exact le_of_getLast (List.pairwise_append.1 hsorted).1 hmaxl hkj
  · intro j hj k hkj
    -- above an old separator: an old leaf, or the lower half with the new key in it
    rcases Nat.lt_succ_iff_lt_or_eq.1 hj with hjn | rfl
    · rw [hs.sep j hjn]
      rcases (Nat.succ_le_of_lt hjn).lt_or_eq with hjn' | hjn'
      · rw [hs.others (j + 1) hjn'] at hkj
        exact h.ascending j hjn k hkj
      · rw [show j + 1 = (m.page g).numKeys from hjn', hlower] at hkj
        rcases List.mem_cons.1 (hperm.subset (List.mem_append_left _ hkj)) with rfl | hkp
        · exact hkey j hjn
        · exact h.sep_lt hjn le_rfl (by rw [below, hchild]; exact hkp)
    · rw [hs.upper] at hkj
      rw [hs.lastSep]
      exact (List.pairwise_append.1 hsorted).2.2 _ (List.mem_of_getLast? hmaxl) k hkj

theorem fits_pair {a b c : ℕ} (ha : a < filePagesNum) (hb : b < filePagesNum) (hc : 2 ≤ c) :
    Fits (fun q => q = a ∨ q = b) c := by
  refine ⟨fun n hn => ?_, {a, b}, fun n hn => ?_, Finset.card_le_two.trans (le_max_of_le_right hc)⟩
  · rcases hn with rfl | rfl
    · exact ha
    · exact hb
  · simpa using hn

variable {s s₁ : Pager} {fuel : ℕ} {k : UInt32} {row : Row} {cursor : Cursor}

/-- **The search** ends in the child the key belongs to, and changes no page. -/
theorem find (hs : s.Counted) (hc : 3 ≤ s.cache.maxPages) (hg : LeafParent s.page s.numPages g)
    (hfind : (internalNodeFind fuel g k.toNat).run Pager.handler s = (.ok cursor, s₁)) :
    ∃ p, (s.page g).childAt ((s.page g).findChild k.toNat) = p ∧
      cursor = makeCursor p ((s.page p).findCell k.toNat) ∧ s₁.Flat s.flat ∧
      s₁.cache.maxPages = s.cache.maxPages := by
  have hlt := hg.childLt _ (Page.findChild_le (s.page g) k.toNat)
  have hpages := hg.pages
  have hwp := hs.flat.wp (K := fun _ => True)
    (T := fun q => q = g ∨ q = (s.page g).childAt ((s.page g).findChild k.toNat)) s.flat_tight
    (fits_pair (hg.lt.trans_le hpages) (hlt.trans_le hpages) (by omega))
    (fun q hq => by rcases hq with rfl | rfl; exacts [hg.lt.le, hlt.le])
    (fun _ => match_internalNodeFind k.toNat fuel g)
    (wp_internalNodeFind (m := s.flat) (F := fun _ _ => False)
      (Q := fun cur m' => cur = makeCursor ((s.page g).childAt ((s.page g).findChild k.toNat))
        ((s.page ((s.page g).childAt ((s.page g).findChild k.toNat))).findCell k.toNat) ∧
        m' = s.flat)
      hg s.flat_tight (fun _ _ => trivial) (Or.inl rfl) rfl (Or.inr rfl) ⟨rfl, rfl⟩ fuel)
    (fun _ _ h => h)
  rw [Pager.strict_true] at hwp
  obtain ⟨hmax, m', ⟨hcur, rfl⟩, hflat⟩ := wp_ok hwp hfind
  exact ⟨_, rfl, hcur, hflat, hmax⟩

end LeafParent

end ToySQL
