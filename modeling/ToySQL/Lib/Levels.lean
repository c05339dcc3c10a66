import Mathlib

/-!
# Levelled trees as a table of children

`kids p` lists the children of the node `p`, for the nodes of a finite set. `Levelled`
says that every node but the root and those of `pending` is listed once, and that a
child is one level below its parent. With nothing pending the table is a tree in which
all paths from the root to the nodes of one level have the same length.

* `Levelled.update`, `Levelled.insert`: one entry replaced, one node added.
* `Levelled.newRoot`: the tree grows by one level.
* `Levelled.lt_root`: the root is the only node of its level, and no level is higher.
* `Levelled.reach`, `Levelled.length_path`: every node is reachable, along a path as
  long as the difference of the levels.
-/

namespace ToySQL

variable {α : Type} [DecidableEq α]

structure Levelled (s : Finset α) (root : α) (kids : α → Multiset α) (lvl : α → ℕ)
    (pending : Multiset α) : Prop where
  root_mem : root ∈ s
  sum : ∑ p ∈ s, kids p + pending = (s.erase root).val
  below : ∀ p ∈ s, ∀ c ∈ kids p, lvl c + 1 = lvl p

namespace Levelled

variable {s : Finset α} {root : α} {kids : α → Multiset α} {lvl : α → ℕ} {pending : Multiset α}

/-- The children and the pending nodes are the nodes but the root. -/
theorem mem_all (h : Levelled s root kids lvl pending) {c : α} :
    ((∃ p ∈ s, c ∈ kids p) ∨ c ∈ pending) ↔ c ∈ s ∧ c ≠ root := by
  have hc : c ∈ ∑ p ∈ s, kids p + pending ↔ c ∈ (s.erase root).val := by rw [h.sum]
  rw [Multiset.mem_add, Multiset.mem_sum, Finset.mem_val, Finset.mem_erase] at hc
  rw [hc, and_comm]

theorem mem_of_kid (h : Levelled s root kids lvl pending) {p c : α} (hp : p ∈ s) (hc : c ∈ kids p) :
    c ∈ s ∧ c ≠ root := h.mem_all.1 (Or.inl ⟨p, hp, hc⟩)

theorem mem_of_pending (h : Levelled s root kids lvl pending) {c : α} (hc : c ∈ pending) :
    c ∈ s ∧ c ≠ root := h.mem_all.1 (Or.inr hc)

theorem nodup (h : Levelled s root kids lvl pending) : (∑ p ∈ s, kids p + pending).Nodup := by
  rw [h.sum]; exact (s.erase root).nodup

theorem count_sum (h : Levelled s root kids lvl pending) (c : α) :
    ∑ p ∈ s, (kids p).count c + pending.count c ≤ 1 := by
  have := Multiset.nodup_iff_count_le_one.1 h.nodup c
  rwa [Multiset.count_add, Multiset.count_sum'] at this

theorem nodup_kids (h : Levelled s root kids lvl pending) {p : α} (hp : p ∈ s) :
    (kids p).Nodup := by
  refine Multiset.nodup_iff_count_le_one.2 fun c => ?_
  have h1 := h.count_sum c
  have h2 := Finset.single_le_sum (f := fun p => (kids p).count c) (fun _ _ => Nat.zero_le _) hp
  omega

theorem parent_unique (h : Levelled s root kids lvl pending) {p q c : α} (hp : p ∈ s) (hq : q ∈ s)
    (hcp : c ∈ kids p) (hcq : c ∈ kids q) : p = q := by
  by_contra hpq
  have h1 := h.count_sum c
  have h2 : ∑ x ∈ ({p, q} : Finset α), (kids x).count c ≤ ∑ x ∈ s, (kids x).count c :=
    Finset.sum_le_sum_of_subset (by
      intro x hx
      rcases Finset.mem_insert.1 hx with rfl | hx
      · exact hp
      · rw [Finset.mem_singleton.1 hx]; exact hq)
  rw [Finset.sum_pair hpq] at h2
  have := Multiset.one_le_count_iff_mem.2 hcp
  have := Multiset.one_le_count_iff_mem.2 hcq
  omega

/-- One entry of the table replaced. -/
theorem update (h : Levelled s root kids lvl pending) {p : α} (hp : p ∈ s) {a P : Multiset α}
    (ha : a + P = kids p + pending) (hb : ∀ c ∈ a, lvl c + 1 = lvl p) :
    Levelled s root (Function.update kids p a) lvl P := by
  refine ⟨h.root_mem, ?_, ?_⟩
  · rw [Finset.sum_update_of_mem hp, ← h.sum, ← Finset.add_sum_erase s kids hp,
      ← Finset.sdiff_singleton_eq_erase, add_right_comm, ha, add_right_comm]
  · intro q hq c hc
    by_cases hqp : q = p
    · subst hqp; rw [Function.update_self] at hc; exact hb c hc
    · rw [Function.update_of_ne hqp] at hc; exact h.below q hq c hc

/-- One node added to the table. -/
theorem insert (h : Levelled s root kids lvl pending) {x : α} (hx : x ∉ s) {a P : Multiset α}
    {l : ℕ} (ha : a + P = pending + {x}) (hb : ∀ c ∈ a, lvl c + 1 = l)
    (hax : x ∉ a) :
    Levelled (insert x s) root (Function.update kids x a) (Function.update lvl x l) P := by
  have hroot : x ≠ root := fun he => hx (he ▸ h.root_mem)
  have hne : ∀ {p}, p ∈ s → p ≠ x := fun hp he => hx (he ▸ hp)
  refine ⟨Finset.mem_insert_of_mem h.root_mem, ?_, ?_⟩
  · rw [Finset.sum_insert hx, Function.update_self,
      Finset.sum_congr rfl fun p hp => Function.update_of_ne (hne hp) a kids,
      Finset.erase_insert_of_ne hroot, Finset.insert_val_of_notMem fun hm =>
        hx (Finset.mem_of_mem_erase hm),
      ← h.sum, add_right_comm, ha, ← Multiset.singleton_add]
    abel
  · intro q hq c hc
    rcases Finset.mem_insert.1 hq with rfl | hq
    · rw [Function.update_self] at hc ⊢
      have hcq : c ≠ q := fun he => hax (by rwa [he] at hc)
      rw [Function.update_of_ne hcq]
      exact hb c hc
    · rw [Function.update_of_ne (hne hq)] at hc ⊢
      rw [Function.update_of_ne (hne (h.mem_of_kid hq hc).1)]
      exact h.below q hq c hc

/-- A new level for the root, as long as it has no children. -/
theorem relevel (h : Levelled s root kids lvl pending) (hk : kids root = 0) (l : ℕ) :
    Levelled s root kids (Function.update lvl root l) pending := by
  refine ⟨h.root_mem, h.sum, fun p hp c hc => ?_⟩
  have hpr : p ≠ root := by rintro rfl; rw [hk] at hc; exact Multiset.notMem_zero c hc
  rw [Function.update_of_ne hpr, Function.update_of_ne (h.mem_of_kid hp hc).2]
  exact h.below p hp c hc

/-- **A new root.** The children of the root go to a new node `left`, which becomes a
child of the root together with a pending node of its level. -/
theorem newRoot {right : α} (h : Levelled s root kids lvl (right ::ₘ pending)) {left : α}
    (hleft : left ∉ s) (hl : lvl right = lvl root) :
    Levelled (Insert.insert left s) root
      (Function.update (Function.update kids left (kids root)) root {left, right})
      (Function.update (Function.update lvl left (lvl root)) root (lvl root + 1)) pending := by
  have hr := h.mem_of_pending (Multiset.mem_cons_self right pending)
  have hlr : left ≠ root := fun he => hleft (he ▸ h.root_mem)
  have hrl : right ≠ left := fun he => hleft (he ▸ hr.1)
  have hkl : left ∉ kids root := fun hm => hleft (h.mem_of_kid h.root_mem hm).1
  -- the root without children, at its new level
  have h1 := h.update (a := 0) (P := kids root + right ::ₘ pending) h.root_mem
    (by rw [zero_add]) (fun c hc => absurd hc (Multiset.notMem_zero c))
  have h2 := h1.relevel (Function.update_self _ _ _) (lvl root + 1)
  -- the new node with the children, and then the root with its two children
  have h3 := h2.insert (a := kids root) (P := {left} + right ::ₘ pending) (l := lvl root) hleft
    (by rw [add_assoc, add_comm (right ::ₘ pending)]) (fun c hc => by
      rw [Function.update_of_ne (h.mem_of_kid h.root_mem hc).2]
      exact h.below root h.root_mem c hc) hkl
  have h4 := h3.update (p := root) (a := {left, right}) (P := pending)
    (Finset.mem_insert_of_mem h.root_mem)
    (by
      rw [Function.update_of_ne hlr.symm, Function.update_self, zero_add]
      show left ::ₘ right ::ₘ 0 + pending = _
      rw [Multiset.cons_add, Multiset.cons_add, zero_add, Multiset.singleton_add])
    (fun c hc => by
      rw [Function.update_of_ne hlr.symm, Function.update_self]
      rcases Multiset.mem_cons.1 hc with rfl | hc
      · rw [Function.update_self]
      · rw [Multiset.mem_singleton.1 hc, Function.update_of_ne hrl, Function.update_of_ne hr.2, hl])
  have hk : Function.update (Function.update (Function.update kids root 0) left (kids root)) root
      {left, right} =
        Function.update (Function.update kids left (kids root)) root {left, right} := by
    rw [Function.update_comm hlr.symm, Function.update_idem]
  rw [hk, Function.update_comm hlr.symm] at h4
  exact h4

/-- No node is higher than the root, when nothing that is pending is. -/
theorem le_root (h : Levelled s root kids lvl pending) (hpend : ∀ c ∈ pending, lvl c ≤ lvl root) :
    ∀ p ∈ s, lvl p ≤ lvl root := by
  obtain ⟨top, htop, hmax⟩ := s.exists_max_image lvl ⟨root, h.root_mem⟩
  intro p hp
  refine le_trans (hmax p hp) ?_
  by_cases hne : top = root
  · rw [hne]
  · rcases h.mem_all.2 ⟨htop, hne⟩ with ⟨q, hq, hc⟩ | hc
    · have := h.below q hq top hc
      have := hmax q hq
      omega
    · exact hpend top hc

/-- No node is higher than the root, when there is a higher node than each that is pending. -/
theorem le_root_of_higher (h : Levelled s root kids lvl pending)
    (hpend : ∀ c ∈ pending, ∃ p ∈ s, lvl c < lvl p) :
    ∀ p ∈ s, lvl p ≤ lvl root := by
  obtain ⟨top, htop, hmax⟩ := s.exists_max_image lvl ⟨root, h.root_mem⟩
  have heq : top = root := by
    by_contra hne
    rcases h.mem_all.2 ⟨htop, hne⟩ with ⟨q, hq, hc⟩ | hc
    · have := h.below q hq top hc
      have := hmax q hq
      omega
    · obtain ⟨q, hq, hlt⟩ := hpend top hc
      exact absurd (hmax q hq) (not_le.2 hlt)
  rw [← heq]
  exact hmax

/-- A child of any node is below the root. -/
theorem kid_lt_root (h : Levelled s root kids lvl pending) (hpend : ∀ c ∈ pending, lvl c ≤ lvl root)
    {p c : α} (hp : p ∈ s) (hc : c ∈ kids p) : lvl c < lvl root := by
  have := h.le_root hpend p hp
  have := h.below p hp c hc
  omega

/-- The root is the only node of its level, when nothing that is pending is as high. -/
theorem lt_root (h : Levelled s root kids lvl pending) (hpend : ∀ c ∈ pending, lvl c < lvl root)
    {p : α} (hp : p ∈ s) (hne : p ≠ root) : lvl p < lvl root := by
  rcases h.mem_all.2 ⟨hp, hne⟩ with ⟨q, hq, hc⟩ | hc
  · exact h.kid_lt_root (fun c hc => (hpend c hc).le) hq hc
  · exact hpend p hc

/-- `c` is a child of `p`. -/
def Child (s : Finset α) (kids : α → Multiset α) (p c : α) : Prop := p ∈ s ∧ c ∈ kids p

/-- Every node is reachable from the root. -/
theorem reach (h : Levelled s root kids lvl 0) :
    ∀ p ∈ s, Relation.ReflTransGen (Child s kids) root p := by
  have key : ∀ d p, p ∈ s → lvl root - lvl p = d → Relation.ReflTransGen (Child s kids) root p := by
    intro d
    induction d with
    | zero =>
      intro p hp hd
      by_cases hne : p = root
      · rw [hne]
      · have := h.lt_root (fun c hc => absurd hc (Multiset.notMem_zero c)) hp hne; omega
    | succ d ih =>
      intro p hp hd
      have hne : p ≠ root := by rintro rfl; omega
      rcases h.mem_all.2 ⟨hp, hne⟩ with ⟨q, hq, hpq⟩ | hpq
      · have := h.below q hq p hpq
        exact (ih q hq (by omega)).tail ⟨hq, hpq⟩
      · exact absurd hpq (Multiset.notMem_zero p)
  exact fun p hp => key _ p hp rfl

/-- A path goes down one level at a step. -/
theorem length_path (h : Levelled s root kids lvl pending) {path : List α} {p : α}
    (hp : (p :: path).IsChain (Child s kids)) :
    lvl ((p :: path).getLast (List.cons_ne_nil _ _)) + path.length = lvl p := by
  induction path generalizing p with
  | nil => rfl
  | cons c path ih =>
    rw [List.isChain_cons_cons] at hp
    have h1 := ih hp.2
    have h2 := h.below p hp.1.1 c hp.1.2
    rw [List.getLast_cons (List.cons_ne_nil _ _), List.length_cons]
    omega

end Levelled

end ToySQL
