import ToySQL.Proof.Leaves
import ToySQL.Proof.Reach
import ToySQL.Proof.Recount
import ToySQL.Spec.Leaf

/-!
# Insertion into a leaf with room

* `Page.place_findCell`: where `leaf_node_find` puts the cursor.
* `insertsCell`: `leaf_node_find` and `leaf_node_insert` insert the row in its place, and
  nothing else changes.
-/

namespace ToySQL

open Program

namespace Page

variable {pg : Page}

/-- **The search** ends on a cell with the key, or behind the smaller keys. -/
theorem place_findCell (hs : pg.keys.Pairwise (· ≤ ·)) (key : ℕ) :
    Place pg.keys key (pg.findCell key) := by
  have hf := found_findCell hs key
  constructor
  · intro hkey
    rw [keys_eq, List.mem_map] at hkey
    obtain ⟨i, hi, hik⟩ := hkey
    have heq : pg.cmpKey key i = .eq := if_pos hik.symm
    obtain ⟨hlt, hcmp⟩ := hf.eq ⟨i, List.mem_range.1 hi, heq⟩
    have hat : key = pg.key (pg.findCell key) := by
      unfold cmpKey at hcmp
      split_ifs at hcmp with h
      exact h
    rw [keys_eq, List.getElem?_map, List.getElem?_range hlt, Option.map_some, ← hat]
  · intro hkey
    -- the smaller keys are those in front
    have hfront : (pg.keys.take (pg.findCell key)).countP (· < key) = pg.findCell key := by
      rw [List.countP_eq_length.2 fun y hy => ?_, List.length_take, length_keys, min_eq_left hf.le]
      have hne : y ≠ key := fun heq => hkey (heq ▸ List.mem_of_mem_take hy)
      exact decide_eq_true (lt_of_le_of_ne (le_of_mem_take hs hy) hne)
    have hback : (pg.keys.drop (pg.findCell key)).countP (· < key) = 0 := by
      refine List.countP_eq_zero.2 fun y hy => ?_
      simpa using le_of_mem_drop hs hy
    calc pg.findCell key
        = (pg.keys.take (pg.findCell key) ++ pg.keys.drop (pg.findCell key)).countP (· < key) := by
          rw [List.countP_append, hfront, hback, Nat.add_zero]
      _ = pg.keys.countP (· < key) := by rw [List.take_append_drop]

end Page

open Page in
/-- What the insertion leaves of a page. -/
theorem Mem.Inserted.changes {page page' : ℕ → Page} {q : ℕ} {x : ℕ × Bytes rowSize} {a : Page}
    (h : Inserted (page q) ((page q).findCell x.1) x a) (hs : (page q).keys.Pairwise (· ≤ ·))
    (hq : page' q = a)
    (hothers : ∀ p < filePagesNum, p ≠ q → page' p = page p) :
    InsertsCell page page' q ((page q).findCell x.1) x := by
  subst hq
  refine ⟨h.rows, h.numCells (findCell_le _ _), ?_, h.header.type (by simp),
    h.header.isRoot (by simp),
    h.header.parent (by simp), h.header.nextLeaf (by simp), hothers⟩
  unfold keys
  rw [h.rows, keys_insertIdx]
  exact sorted_findCell hs x.1

/-- **The insertion** into a leaf with room, at a cell of the leaf or behind them. -/
theorem Pager.Wf.leafNodeInsert_room {s : Pager} {q c fuel key : ℕ} {e : Bool} {row : Row}
    (hs : s.Wf) (hq : q < filePagesNum)
    (hroom : (s.page q).numCells < leafNodeMaxCells) (hc : c ≤ (s.page q).numCells)
    (hkey : key < 2 ^ 32) :
    ∃ s' a, (leafNodeInsert fuel ⟨q, c, e⟩ key row).run Pager.handler s = (.ok (), s') ∧ s'.Wf ∧
      Mem.Inserted (s.page q) c (key, row.serialize) a ∧
      ∀ p < filePagesNum, s'.page p = Function.update s.page q a p := by
  have hinsert :
      wp (Mem.handler (fun _ => True) (· ∈ [q]))
        (leafNodeInsertStep ⟨q, c, e⟩ key row (fault .noReturn))
      (fun _ m' => ∃ a, Mem.Inserted (s.page q) c (key, row.serialize) a ∧
        m'.page = Function.update s.page q a)
      (fun _ _ => False) s.recount.flat :=
    Mem.wp_leafNodeInsertStep_room (List.mem_singleton_self q) hroom hc hkey
      fun a ha => ⟨a, ha, by rw [Mem.page_set, Mem.page_touch]; rfl⟩
  have honly : Only Pager.NoAlloc (leafNodeInsertStep ⟨q, c, e⟩ key row (fault .noReturn)) :=
    only_leafNodeInsertStep trivial
  obtain ⟨_, s', hrun, hs', -, m, ⟨a, ha, hm⟩, hpage⟩ :=
    hs.wp_flat (fits_one hq) honly (extends_leafNodeInsert fuel _ _ _)
    (fun _ => match_leafNodeInsertStep _ _ _ fun _ => match_fault _) hinsert
  rw [hm] at hpage
  exact ⟨s', a, hrun, hs', ha, hpage⟩

/-- **Find, then insert**, in a leaf with room. -/
theorem insertsCell {s : Pager} {q fuel : ℕ} {key : UInt32} {row : Row} (hs : s.Wf)
    (hq : q < filePagesNum)
    (hroom : (s.page q).numCells < leafNodeMaxCells) (hsorted : (s.page q).keys.Pairwise (· ≤ ·)) :
    ∃ i s₁ s₂, (leafNodeFind q key.toNat).run Pager.handler s = (.ok (makeCursor q i), s₁) ∧
      Place (s.page q).keys key.toNat i ∧
      (leafNodeInsert fuel (makeCursor q i) key.toNat row).run Pager.handler s₁ = (.ok (), s₂) ∧
      InsertsCell s.page s₂.page q i (key.toNat, row.serialize) := by
  have hfind : wp (Mem.handler (fun _ => True) (· ∈ [q])) (leafNodeFind q key.toNat)
      (fun cursor m' => cursor = makeCursor q ((s.page q).findCell key.toNat) ∧ m'.page = s.page)
      (fun _ _ => False)
      s.recount.flat :=
    (Mem.wp_leafNodeFind (m := s.recount.flat) (List.mem_singleton_self q) (le_of_lt hroom)).2
      ⟨rfl, Mem.page_touch s.recount.flat q⟩
  obtain ⟨_, s₁, hrun₁, hs₁, -, m₁, ⟨rfl, hm₁⟩, hpage₁⟩ :=
    hs.wp_flat (fits_one hq) (only_leafNodeFind q key.toNat) (.refl _)
    (fun _ => match_leafNodeFind q key.toNat) hfind
  rw [hm₁] at hpage₁
  have hq₁ : s₁.page q = s.page q := hpage₁ q hq
  obtain ⟨s₂, a, hrun₂, -, ha, hpage₂⟩ :=
    @Pager.Wf.leafNodeInsert_room s₁ q ((s.page q).findCell key.toNat) fuel key.toNat
    false row hs₁ hq (by rw [hq₁]; exact hroom) (by rw [hq₁]; exact Page.findCell_le _ _)
      key.toNat_lt
  rw [hq₁] at ha
  have hinserted :
      InsertsCell s.page s₂.page q ((s.page q).findCell key.toNat) (key.toNat, row.serialize) := by
    refine Mem.Inserted.changes (x := (key.toNat, row.serialize)) ha hsorted ?_ fun p hp hpq => ?_
    · rw [hpage₂ q hq, Function.update_self]
    · rw [hpage₂ p hp, Function.update_of_ne hpq, hpage₁ p hp]
  exact ⟨_, s₁, s₂, hrun₁, Page.place_findCell hsorted _, hrun₂, hinserted⟩

/-- A leaf with one free cell and the keys 0, 10, .. 130. -/
def shortLeaf : Pager := (runTable filePagesNum 0 ((List.range 14).map fun i => plain (10 * i))).2

theorem insertsCell_shortLeaf :
    ∃ i s₁ s₂, (leafNodeFind 0 (65 : UInt32).toNat).run Pager.handler shortLeaf =
      (.ok (makeCursor 0 i), s₁) ∧
      Place (shortLeaf.page 0).keys (65 : UInt32).toNat i ∧
      (leafNodeInsert 0 (makeCursor 0 i) (65 : UInt32).toNat (plain 65).row).run Pager.handler s₁ =
        (.ok (), s₂) ∧
      InsertsCell shortLeaf.page s₂.page 0 i ((65 : UInt32).toNat, (plain 65).row.serialize) :=
  insertsCell (Reaches.counted le_rfl (reaches_runTable (by decide +kernel))).wf (by decide)
    (by decide +kernel)
    (by decide +kernel)

end ToySQL
