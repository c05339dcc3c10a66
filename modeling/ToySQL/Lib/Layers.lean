import ToySQL.Lib.Levels

/-!
# The layers of a levelled tree

The nodes of one level are the children of the nodes of the level above it, each of them once.

* `Levelled.leavesBelow_root`: descending from the root visits every leaf once.
* `Levelled.pow_le_card`, `Levelled.card_le_pow`: how many nodes a level has, when there is a bound
  on the number of children.
* `Levelled.card_le`: a tree whose inner nodes have two children at least has more leaves than
  inner nodes.
-/

namespace ToySQL

variable {α : Type} [DecidableEq α]

namespace Levelled

variable {s : Finset α} {root p : α} {kids : α → Multiset α} {lvl : α → ℕ} {d k : ℕ}

/-- The nodes of a level. -/
def layer (s : Finset α) (lvl : α → ℕ) (k : ℕ) : Finset α := s.filter fun p => lvl p = k

/-- The nodes `k` levels below `p`. -/
def leavesBelow (kids : α → Multiset α) : ℕ → α → Multiset α
  | 0, p => {p}
  | k + 1, p => (kids p).bind (leavesBelow kids k)

omit [DecidableEq α] in
theorem mem_layer : p ∈ layer s lvl k ↔ p ∈ s ∧ lvl p = k := Finset.mem_filter

/-- **The children of one level** are the nodes of the level below it. -/
theorem sum_layer (h : Levelled s root kids lvl 0) (hk : k < lvl root) :
    ∑ p ∈ layer s lvl (k + 1), kids p = (layer s lvl k).val := by
  ext c
  rw [Multiset.count_sum']
  by_cases hc : c ∈ layer s lvl k
  · obtain ⟨hcs, hlc⟩ := mem_layer.1 hc
    have hroot : c ≠ root := by
      rintro rfl
      exact absurd hlc hk.ne'
    -- the parent of `c` is one level above it
    have hparents : ∑ p ∈ layer s lvl (k + 1), (kids p).count c = ∑ p ∈ s, (kids p).count c := by
      apply Finset.sum_subset (Finset.filter_subset _ s)
      intro p hp hnot
      apply Multiset.count_eq_zero_of_notMem
      intro hmem
      have hbelow := h.below p hp c hmem
      exact hnot (mem_layer.2 ⟨hp, by omega⟩)
    have hsum := congrArg (Multiset.count c) h.sum
    rw [add_zero, Multiset.count_sum'] at hsum
    rw [hparents, hsum,
      Multiset.count_eq_one_of_mem (Finset.nodup _) (Finset.mem_erase.2 ⟨hroot, hcs⟩),
      Multiset.count_eq_one_of_mem (Finset.nodup _) hc]
  · rw [Multiset.count_eq_zero_of_notMem hc]
    apply Finset.sum_eq_zero
    intro p hp
    obtain ⟨hps, hlp⟩ := mem_layer.1 hp
    apply Multiset.count_eq_zero_of_notMem
    intro hmem
    have hbelow := h.below p hps c hmem
    exact hc (mem_layer.2 ⟨(h.mem_of_kid hps hmem).1, by omega⟩)

/-- The top layer is the root alone. -/
theorem layer_root (h : Levelled s root kids lvl 0) : layer s lvl (lvl root) = {root} := by
  ext p
  rw [mem_layer, Finset.mem_singleton]
  constructor
  · rintro ⟨hp, hl⟩
    by_contra hne
    have hlt := h.lt_root (fun c hc => absurd hc (Multiset.notMem_zero c)) hp hne
    omega
  · rintro rfl
    exact ⟨h.root_mem, rfl⟩

omit [DecidableEq α] in
/-- Two levels do not have a node in common. -/
theorem card_layers_le {k l : ℕ} (hkl : k ≠ l) :
    (layer s lvl k).card + (layer s lvl l).card ≤ s.card := by
  classical
  have hdisjoint : Disjoint (layer s lvl k) (layer s lvl l) := by
    apply Finset.disjoint_left.2
    intro p hp hp'
    exact hkl ((mem_layer.1 hp).2.symm.trans (mem_layer.1 hp').2)
  rw [← Finset.card_union_of_disjoint hdisjoint]
  apply Finset.card_le_card
  intro p hp
  rcases Finset.mem_union.1 hp with hp | hp
  · exact (mem_layer.1 hp).1
  · exact (mem_layer.1 hp).1

/-! ## The leaves below a node -/

/-- The leaves below a layer are all leaves. By induction on the height. -/
theorem bind_leavesBelow (h : Levelled s root kids lvl 0) : ∀ k ≤ lvl root,
    (layer s lvl k).val.bind (leavesBelow kids k) = (layer s lvl 0).val := by
  intro k
  induction k with
  | zero =>
    intro _
    exact Multiset.bind_singleton _ _ |>.trans (Multiset.map_id _)
  | succ k ih =>
    intro hk
    have hsum : (layer s lvl (k + 1)).val.bind kids = (layer s lvl k).val := h.sum_layer hk
    rw [← ih (Nat.le_of_succ_le hk), ← hsum, Multiset.bind_assoc]
    rfl

/-- **Descending from the root** visits every leaf once. -/
theorem leavesBelow_root (h : Levelled s root kids lvl 0) :
    leavesBelow kids (lvl root) root = (layer s lvl 0).val := by
  rw [← h.bind_leavesBelow (lvl root) le_rfl, h.layer_root]
  exact (Multiset.singleton_bind _ _).symm

/-! ## Counting -/

/-- The children of a layer are the layer below. -/
theorem sum_card_layer (h : Levelled s root kids lvl 0) (hk : k < lvl root) :
    ∑ p ∈ layer s lvl (k + 1), (kids p).card = (layer s lvl k).card := by
  have hcard := congrArg Multiset.card (h.sum_layer hk)
  rwa [Multiset.card_sum] at hcard

/-- Where all inner nodes have `d` children at least. -/
theorem pow_le_card (h : Levelled s root kids lvl 0) (hd : ∀ p ∈ s, lvl p ≠ 0 → d ≤ (kids p).card) :
    ∀ k ≤ lvl root, d ^ k ≤ (layer s lvl (lvl root - k)).card := by
  intro k
  induction k with
  | zero =>
    intro _
    rw [Nat.sub_zero, h.layer_root, Finset.card_singleton, pow_zero]
  | succ k ih =>
    intro hk
    have hlevel : lvl root - (k + 1) + 1 = lvl root - k := by omega
    have hmul :
        (layer s lvl (lvl root - k)).card * d ≤ (layer s lvl (lvl root - (k + 1))).card := by
      have hsum := h.sum_card_layer (k := lvl root - (k + 1)) (by omega)
      rw [← hsum, hlevel, ← smul_eq_mul]
      apply Finset.card_nsmul_le_sum
      intro p hp
      obtain ⟨hps, hlp⟩ := mem_layer.1 hp
      exact hd p hps (by omega)
    calc d ^ (k + 1) = d ^ k * d := pow_succ d k
      _ ≤ (layer s lvl (lvl root - k)).card * d :=
        Nat.mul_le_mul_right d (ih (Nat.le_of_succ_le hk))
      _ ≤ _ := hmul

/-- Where no node has more than `d` children. -/
theorem card_le_pow (h : Levelled s root kids lvl 0) (hd : ∀ p ∈ s, (kids p).card ≤ d) :
    ∀ k ≤ lvl root, (layer s lvl (lvl root - k)).card ≤ d ^ k := by
  intro k
  induction k with
  | zero =>
    intro _
    rw [Nat.sub_zero, h.layer_root, Finset.card_singleton, pow_zero]
  | succ k ih =>
    intro hk
    have hlevel : lvl root - (k + 1) + 1 = lvl root - k := by omega
    have hmul :
        (layer s lvl (lvl root - (k + 1))).card ≤ (layer s lvl (lvl root - k)).card * d := by
      have hsum := h.sum_card_layer (k := lvl root - (k + 1)) (by omega)
      rw [← hsum, hlevel, ← smul_eq_mul]
      apply Finset.sum_le_card_nsmul
      intro p hp
      exact hd p (mem_layer.1 hp).1
    calc (layer s lvl (lvl root - (k + 1))).card ≤ (layer s lvl (lvl root - k)).card * d := hmul
      _ ≤ d ^ k * d := Nat.mul_le_mul_right d (ih (Nat.le_of_succ_le hk))
      _ = d ^ (k + 1) := (pow_succ d k).symm

/-- **More leaves than inner nodes.** -/
theorem card_le (h : Levelled s root kids lvl 0) (hd : ∀ p ∈ s, lvl p ≠ 0 → 2 ≤ (kids p).card) :
    s.card + 1 ≤ 2 * (layer s lvl 0).card := by
  have hsum := congrArg Multiset.card h.sum
  rw [add_zero, Multiset.card_sum, Finset.card_val, Finset.card_erase_of_mem h.root_mem] at hsum
  have hpos : 0 < s.card := Finset.card_pos.2 ⟨root, h.root_mem⟩
  have hparts : (layer s lvl 0).card + (s.filter fun p => ¬ lvl p = 0).card = s.card :=
    Finset.card_filter_add_card_filter_not _
  have hinner : (s.filter fun p => ¬ lvl p = 0).card * 2 ≤ ∑ p ∈ s, (kids p).card := by
    rw [← smul_eq_mul]
    refine (Finset.card_nsmul_le_sum _ _ 2 fun p hp => ?_).trans
      (Finset.sum_le_sum_of_subset (Finset.filter_subset _ s))
    obtain ⟨hps, hlp⟩ := Finset.mem_filter.1 hp
    exact hd p hps hlp
  omega

end Levelled

end ToySQL
