import ToySQL.Lib.Linked
import ToySQL.Proof.Grow

/-!
# The leaf layer, in flat memory

`LeafLayer` is the invariant of the leaves: their keys are sorted, every leaf but a root
leaf is at least half full, and the links lead through all of them, in the order
`chain`.

* `pairwise_insertIdx`, `sorted_findCell`: the place a search ends at keeps keys sorted.
* `Halves.sorted`, `Halves.rows_append`: the two halves of a split leaf.
* `rows_stray`: what the stray write leaves of the lower half.
* `LeafLayer.replace`, `LeafLayer.insertAfter`: one leaf replaced, one leaf cut in two.
-/

namespace ToySQL

/-- Inserting at a position of the list is splitting it there. -/
theorem insertIdx_eq_append {α : Type} (x : α) : ∀ (l : List α) (c : ℕ), c ≤ l.length →
    l.insertIdx c x = l.take c ++ x :: l.drop c
  | _, 0, _ => rfl
  | a :: l, c + 1, h => by
    rw [List.insertIdx_succ_cons, insertIdx_eq_append x l c (by simpa using h)]
    rfl

/-- An entry put between the smaller and the larger ones keeps a list sorted. -/
theorem pairwise_insertIdx {α : Type} {R : α → α → Prop} {l : List α} {c : ℕ} {x : α}
    (hs : l.Pairwise R)
    (hc : c ≤ l.length) (hbelow : ∀ y ∈ l.take c, R y x) (habove : ∀ y ∈ l.drop c, R x y) :
    (l.insertIdx c x).Pairwise R := by
  have hs' : (l.take c ++ l.drop c).Pairwise R := by rwa [List.take_append_drop]
  obtain ⟨h1, h2, h3⟩ := List.pairwise_append.1 hs'
  rw [insertIdx_eq_append x l c hc]
  refine List.pairwise_append.2 ⟨h1, List.pairwise_cons.2 ⟨habove, h2⟩, fun a ha b hb => ?_⟩
  rcases List.mem_cons.1 hb with rfl | hb
  · exact hbelow a ha
  · exact h3 a ha b hb

namespace Page

variable {a l r pg : Page} {new c oldMax key : ℕ} {x : ℕ × Bytes rowSize}

theorem length_keys (pg : Page) : pg.keys.length = pg.numCells := by simp [keys_eq]

/-- The keys do not depend on the parent field. -/
theorem keys_of_erase {pg' : Page} (h : pg.erase = pg'.erase) : pg.keys = pg'.keys := by
  unfold keys; rw [rows_of_erase h]

theorem numCells_of_erase {pg' : Page} (h : pg.erase = pg'.erase) : pg.numCells = pg'.numCells :=
  load_of_erase h (by decide) (Or.inl .numCells)

theorem nextLeaf_of_erase {pg' : Page} (h : pg.erase = pg'.erase) : pg.nextLeaf = pg'.nextLeaf :=
  load_of_erase h (by decide) (Or.inl .nextLeaf)

theorem isLeaf_of_erase {pg' : Page} (h : pg.erase = pg'.erase) : pg.isLeaf = pg'.isLeaf := by
  unfold isLeaf type
  rw [load_of_erase h (by decide) (Or.inl .nodeType)]

/-! ## Where a key belongs -/

/-- Sorted keys compare with a key in the order of a binary search. -/
theorem monotone3_cmpKey (hs : pg.keys.Pairwise (· ≤ ·)) (key : ℕ) :
    Monotone3 (pg.cmpKey key) pg.numCells := by
  have hle : ∀ i j, i ≤ j → j < pg.numCells → pg.key i ≤ pg.key j := by
    intro i j hij hj
    rcases hij.lt_or_eq with hij | rfl
    · rw [keys_eq, List.pairwise_iff_getElem] at hs
      have := hs i j (by simp; omega) (by simpa using hj) hij
      simpa using this
    · exact le_rfl
  refine ⟨fun i j hij hj h => ?_, fun i j hij hj h => ?_⟩
  · have := hle i j hij hj
    unfold cmpKey at h ⊢
    split_ifs at h ⊢ <;> first | rfl | (simp at h; done) | omega
  · have := hle i j hij hj
    unfold cmpKey at h ⊢
    split_ifs at h ⊢ <;> first | rfl | (simp at h; done) | omega

/-- The search of a sorted leaf ends at the first cell whose key is not smaller. -/
theorem found_findCell (hs : pg.keys.Pairwise (· ≤ ·)) (key : ℕ) :
    Found (pg.cmpKey key) pg.numCells (pg.findCell key) := searchAll_found (monotone3_cmpKey hs key)

/-- The keys before the place found are at most the key. -/
theorem le_of_mem_take (hs : pg.keys.Pairwise (· ≤ ·)) {y : ℕ}
    (hy : y ∈ pg.keys.take (pg.findCell key)) : y ≤ key := by
  have hf := found_findCell hs key
  obtain ⟨i, hi, rfl⟩ := List.getElem_of_mem hy
  rw [List.length_take, length_keys] at hi
  have hne := hf.below i (by omega)
  simp only [keys_eq, List.getElem_take, List.getElem_map, List.getElem_range]
  unfold cmpKey at hne
  split_ifs at hne with h1 h2
  · exact h1.ge
  · exact absurd rfl hne
  · omega

/-- The keys from the place found on are at least the key. -/
theorem le_of_mem_drop (hs : pg.keys.Pairwise (· ≤ ·)) {y : ℕ}
    (hy : y ∈ pg.keys.drop (pg.findCell key)) : key ≤ y := by
  have hf := found_findCell hs key
  obtain ⟨i, hi, rfl⟩ := List.getElem_of_mem hy
  rw [List.length_drop, length_keys] at hi
  have hne := hf.above (pg.findCell key + i) (by omega) (by omega)
  simp only [keys_eq, List.getElem_drop, List.getElem_map, List.getElem_range]
  unfold cmpKey at hne
  split_ifs at hne with h1 h2
  · exact h1.le
  · exact h2.le
  · exact absurd rfl hne

/-- **A key inserted where the search ends keeps the keys sorted.** -/
theorem sorted_findCell (hs : pg.keys.Pairwise (· ≤ ·)) (key : ℕ) :
    (pg.keys.insertIdx (pg.findCell key) key).Pairwise (· ≤ ·) :=
  pairwise_insertIdx hs (by rw [length_keys]; exact findCell_le _ _)
    (fun _ hy => le_of_mem_take hs hy)
    fun _ hy => le_of_mem_drop hs hy

/-! ## The halves -/

/-- Inserting a row inserts its key. -/
theorem keys_insertIdx (pg : Page) (c : ℕ) (x : ℕ × Bytes rowSize) :
    (pg.rows.insertIdx c x).map Prod.fst = pg.keys.insertIdx c x.1 := by
  unfold keys
  rw [List.map_insertIdx]

/-- Both halves together have the old rows and the new one at its place. -/
theorem Halves.rows_append (h : Halves a new c x l r) :
    l.rows ++ r.rows = a.rows.insertIdx c x := by
  rw [h.rows, h.newRows, List.take_append_drop]

/-- Both halves together have the old keys and the new one at its place. -/
theorem Halves.keys_append (h : Halves a new c x l r) :
    l.keys ++ r.keys = a.keys.insertIdx c x.1 := by
  rw [← keys_insertIdx, ← h.rows_append, List.map_append]; rfl

/-- Both halves of a sorted leaf are sorted. -/
theorem Halves.sorted (h : Halves a new (a.findCell key) x l r) (hx : x.1 = key)
    (hs : a.keys.Pairwise (· ≤ ·)) : l.keys.Pairwise (· ≤ ·) ∧ r.keys.Pairwise (· ≤ ·) := by
  subst hx
  have := sorted_findCell hs x.1
  rw [← h.keys_append] at this
  exact ⟨(List.pairwise_append.1 this).1, (List.pairwise_append.1 this).2.1⟩

theorem Halves.isLeaf (h : Halves a new c x l r) (ha : a.isLeaf = true) : l.isLeaf = true :=
  (h.header.isLeaf (by simp)).trans ha

theorem Halves.newLeaf (h : Halves a new c x l r) : r.isLeaf = true := by
  unfold Page.isLeaf; rw [h.newType]; rfl

/-- The stray separator leaves a leaf of eight cells its largest key. -/
theorem maxKey_stray (hn : l.numCells = 8) (hl : l.isLeaf = true) :
    (l.stray oldMax).maxKey = l.maxKey := by
  have h := SameHeader.stray l oldMax
  unfold maxKey
  rw [h.isLeaf (by simp), h.numCells (by simp), hl, hn, key_stray hn.le (by omega), if_pos rfl,
    if_pos rfl]

/-- The keys of the lower half are valid page numbers but for the last one. -/
theorem key_ne_invalid (hn : l.numCells = 8) (hs : l.keys.Pairwise (· < ·)) :
    l.key 0 ≠ invalidPageNum := by
  have hlt : l.key 0 < l.key 1 := by
    rw [keys_eq, hn] at hs
    have := List.pairwise_iff_getElem.1 hs 0 1 (by simp) (by simp) (by omega)
    simpa using this
  have h1 := key_lt l 1
  unfold invalidPageNum
  omega

/-- Only the first row can differ after the stray write. -/
theorem rows_stray (oldMax : ℕ) (hn : l.numCells = 8) :
    ∃ rest, l.rows = l.row 0 :: rest ∧ (l.stray oldMax).rows = (l.stray oldMax).row 0 :: rest := by
  have hn' : (l.stray oldMax).numCells = 8 :=
    ((SameHeader.stray l oldMax).numCells (by simp)).trans hn
  have hrow : ∀ j < 8, j ≠ 0 → (l.stray oldMax).row j = l.row j := fun j hj hj0 => by
    unfold row
    rw [key_stray hn.le (by omega), value_stray hn.le (by omega), if_neg hj0]
  have hsplit : ∀ pg : Page, pg.numCells = 8 → pg.rows = pg.row 0 :: (List.range' 1 7).map pg.row :=
    fun pg hpg => by rw [rows_eq, hpg, List.range_eq_range', List.range'_succ, List.map_cons]
  refine ⟨(List.range' 1 7).map l.row, hsplit l hn, ?_⟩
  rw [hsplit _ hn']
  refine congrArg _ (List.map_congr_left fun j hj => ?_)
  have := List.mem_range'_1.1 hj
  exact hrow j (by omega) (by omega)

end Page

/-! ## The invariant -/

/-- The leaves, in the order of their links. -/
structure LeafLayer (m : Mem) (used : ℕ) (lvl : ℕ → ℕ) (chain : List ℕ) : Prop where
  nodup : chain.Nodup
  mem : ∀ p, p ∈ chain ↔ p < used ∧ lvl p = 0
  linked : Linked (fun p => (m.page p).nextLeaf) 0 chain
  sorted : ∀ p ∈ chain, (m.page p).keys.Pairwise (· ≤ ·)
  filled : ∀ p ∈ chain, p ≠ 0 → 8 ≤ (m.page p).numCells

/-- The rows of the pages of a list. -/
def Mem.rowsOn (m : Mem) (chain : List ℕ) : Multiset (ℕ × Bytes rowSize) :=
  ↑(chain.flatMap fun p => (m.page p).rows)

namespace LeafLayer

open Page Mem

variable {m m' : Mem} {used used' : ℕ} {lvl lvl' : ℕ → ℕ} {chain l₁ l₂ : List ℕ} {p new : ℕ}

/-- A leaf stands at one place of the chain. -/
theorem exists_split (h : LeafLayer m used lvl chain) (hp : p < used) (hl : lvl p = 0) :
    ∃ l₁ l₂, chain = l₁ ++ p :: l₂ ∧ p ∉ l₁ ++ l₂ := by
  obtain ⟨l₁, l₂, rfl⟩ := List.append_of_mem ((h.mem p).2 ⟨hp, hl⟩)
  refine ⟨l₁, l₂, rfl, ?_⟩
  have := h.nodup
  rw [List.nodup_middle, List.nodup_cons] at this
  exact this.1

/-- The rows of a chain are those of one of its leaves and those of the others. -/
theorem rowsOn_middle (m : Mem) (l₁ l₂ : List ℕ) (p : ℕ) :
    m.rowsOn (l₁ ++ p :: l₂) = ↑(m.page p).rows + m.rowsOn (l₁ ++ l₂) := by
  unfold rowsOn
  rw [List.flatMap_append, List.flatMap_cons, List.flatMap_append, Multiset.coe_add,
    Multiset.coe_eq_coe]
  exact List.perm_append_comm_assoc _ _ _

/-- The rows of a chain do not depend on the parent fields. -/
theorem rowsOn_congr (h : ∀ q ∈ chain, (m'.page q).erase = (m.page q).erase) :
    m'.rowsOn chain = m.rowsOn chain := by
  unfold rowsOn
  rw [List.flatMap_congr fun q hq => rows_of_erase (h q hq)]

/-- **One leaf replaced**, with its links. -/
theorem replace (h : LeafLayer m used lvl chain)
    (hother : ∀ q ∈ chain, q ≠ p → (m'.page q).erase = (m.page q).erase)
    (hnext : (m'.page p).nextLeaf = (m.page p).nextLeaf) (hs : (m'.page p).keys.Pairwise (· ≤ ·))
    (hfill : p ≠ 0 → 8 ≤ (m'.page p).numCells) : LeafLayer m' used lvl chain := by
  refine ⟨h.nodup, h.mem, h.linked.congr fun q hq => ?_, fun q hq => ?_, fun q hq hq0 => ?_⟩
  all_goals by_cases hqp : q = p
  · rw [hqp]; exact hnext
  · exact nextLeaf_of_erase (hother q hq hqp)
  · rw [hqp]; exact hs
  · rw [keys_of_erase (hother q hq hqp)]; exact h.sorted q hq
  · subst hqp; exact hfill hq0
  · rw [numCells_of_erase (hother q hq hqp)]; exact h.filled q hq hq0

/-- **One leaf cut in two**, the new one linked in behind it. -/
theorem insertAfter (h : LeafLayer m used lvl (l₁ ++ p :: l₂)) (hp : p ∉ l₁ ++ l₂)
    (hnew : new ∉ l₁ ++ p :: l₂) (hmem : ∀ q, q < used' ∧ lvl' q = 0 ↔
      (q < used ∧ lvl q = 0) ∨ q = new)
    (hother : ∀ q ∈ l₁ ++ l₂, (m'.page q).erase = (m.page q).erase)
    (hnext : (m'.page p).nextLeaf = new) (hnext' : (m'.page new).nextLeaf = (m.page p).nextLeaf)
    (hs : (m'.page p).keys.Pairwise (· ≤ ·) ∧ (m'.page new).keys.Pairwise (· ≤ ·))
    (hfill : 8 ≤ (m'.page p).numCells ∧ 8 ≤ (m'.page new).numCells) :
    LeafLayer m' used' lvl' (l₁ ++ p :: new :: l₂) := by
  have hperm : (l₁ ++ p :: new :: l₂).Perm (new :: (l₁ ++ p :: l₂)) := by
    have : (l₁ ++ [p] ++ new :: l₂).Perm (new :: (l₁ ++ [p] ++ l₂)) := List.perm_middle
    simpa using this
  -- the new leaf, the leaf cut in two, or one of the others
  have hcase : ∀ q ∈ l₁ ++ p :: new :: l₂, q = new ∨ q = p ∨
      (q ∈ l₁ ++ l₂ ∧ q ∈ l₁ ++ p :: l₂) := by
    intro q hq
    rcases List.mem_cons.1 (hperm.mem_iff.1 hq) with rfl | hq'
    · exact Or.inl rfl
    · rcases List.mem_cons.1 (List.perm_middle.mem_iff.1 hq') with rfl | hq''
      · exact Or.inr (Or.inl rfl)
      · exact Or.inr (Or.inr ⟨hq'', hq'⟩)
  refine ⟨hperm.nodup_iff.2 (List.nodup_cons.2 ⟨hnew, h.nodup⟩), fun q => ?_,
    h.linked.insertAfter l₁ (fun q hq => nextLeaf_of_erase (hother q hq)) hnext hnext',
    fun q hq => ?_, fun q hq hq0 => ?_⟩
  · rw [hperm.mem_iff, List.mem_cons, h.mem, hmem, or_comm]
  · rcases hcase q hq with rfl | rfl | ⟨hq', hq''⟩
    · exact hs.2
    · exact hs.1
    · rw [keys_of_erase (hother q hq')]; exact h.sorted q hq''
  · rcases hcase q hq with rfl | rfl | ⟨hq', hq''⟩
    · exact hfill.2
    · exact hfill.1
    · rw [numCells_of_erase (hother q hq')]; exact h.filled q hq'' hq0

end LeafLayer

end ToySQL
