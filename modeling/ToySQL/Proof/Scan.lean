import ToySQL.Proof.Prefixes
import ToySQL.Proof.LeafSplit
import ToySQL.Spec.Queries

/-!
# Scans

* `Tree.wp_scan`: a scan sees the keys from the first leaf of the tree on, in the order of the
  chain.
* `Tree.InsertsKey.sorted_iff`: when an insertion keeps the keys of the chain in order.
* `Grown.startsFirst_iff`: when the scan sees them all.
-/

namespace ToySQL

open Program Page

namespace Page

variable {pg : Page}

/-- No key is below 0. -/
theorem findCell_zero (hs : pg.keys.Pairwise (· < ·)) : pg.findCell 0 = 0 := by
  have hf := found_findCell (hs.imp le_of_lt) 0
  by_contra h0
  have hpos := Nat.pos_of_ne_zero h0
  have hbelow := hf.below 0 hpos
  unfold cmpKey at hbelow
  split_ifs at hbelow with heq hlt
  · -- the key 0 is in the first cell only
    obtain ⟨hi, hcmp⟩ := hf.eq ⟨0, hpos.trans_le hf.le, if_pos heq⟩
    have hkey : 0 = pg.key (pg.findCell 0) := by
      unfold cmpKey at hcmp
      split_ifs at hcmp with h
      exact h
    rw [keys_eq, List.pairwise_iff_getElem] at hs
    have hlt := hs 0 (pg.findCell 0) (by simpa using hpos.trans_le hf.le) (by simpa using hi) hpos
    simp only [List.getElem_map, List.getElem_range] at hlt
    omega
  · exact absurd rfl hbelow
  · omega

/-- The search for key 0 ends at the first slot. -/
theorem findChild_zero : pg.findChild 0 = 0 := by
  have hlt : ∀ i, pg.cmpSep 0 i = .lt := fun i => if_pos (Nat.zero_le _)
  have hmono : Monotone3 (pg.cmpSep 0) pg.numKeys := by
    refine ⟨fun i j _ _ h => ?_, fun i j _ _ _ => ?_⟩
    · rw [hlt] at h
      cases h
    · exact hlt _
  by_contra h0
  exact (searchAll_found hmono).below 0 (Nat.pos_of_ne_zero h0) (hlt 0)

/-- The keys from a cell on begin with that of the cell. -/
theorem keys_drop {i : ℕ} (hi : i < pg.numCells) :
    pg.keys.drop i = pg.key i :: pg.keys.drop (i + 1) := by
  have hlt : i < pg.keys.length := by rwa [length_keys]
  rw [List.drop_eq_getElem_cons hlt]
  simp [keys_eq]

end Page

/-- The first leaf is where the key 0 goes. -/
theorem firstLeaf_iff {page : ℕ → Page} {p q : ℕ} : FirstLeaf page p q ↔ LeadsTo page 0 p q := by
  constructor
  · intro h
    induction h with
    | leaf hl => exact .leaf hl
    | node hl _ ih => exact .node hl (by rwa [Page.findChild_zero])
  · intro h
    induction h with
    | leaf hl => exact .leaf hl
    | node hl _ ih => exact .node hl (by rwa [Page.findChild_zero] at ih)

/-! ## The code, in flat memory -/

namespace Mem

variable {K T : ℕ → Prop} [DecidablePred K] [DecidablePred T] {m : Mem} {p i : ℕ}
    {F : Fault → Mem → Prop}

/-- The cursor goes to the next cell, or to the first cell of the next leaf, or to the end. -/
theorem wp_advance {Q : Cursor → Mem → Prop} {e : Bool} (hT : T p) (hm : m.Tight)
    (hp : p < m.numPages) (hi : i < 2 ^ 32 - 1) :
    wp (handler K T) (Cursor.advance ⟨p, i, e⟩) Q F m ↔
      Q (if i + 1 < (m.page p).numCells then ⟨p, i + 1, e⟩
        else if (m.page p).nextLeaf = 0 then
          ⟨p, i + 1, true⟩ else ⟨(m.page p).nextLeaf, 0, e⟩) m := by
  have hu : u32 (i + 1) = i + 1 := Nat.mod_eq_of_lt (by omega)
  have hcells : (m.page p).load .numCells = (m.page p).numCells := rfl
  have hnext : (m.page p).load .nextLeaf = (m.page p).nextLeaf := rfl
  unfold Cursor.advance
  simp only [wp_bind, wp_getPage hT, hm.touch_of_lt hp]
  rw [wp_load (access_header .numCells), hu, hcells]
  by_cases hlt : i + 1 < (m.page p).numCells
  · rw [if_neg (not_le.2 hlt), if_pos hlt]
    exact Iff.rfl
  · rw [if_pos (not_lt.1 hlt), if_neg hlt, wp_bind, wp_load (access_header .nextLeaf), hnext]
    split
    · exact Iff.rfl
    · exact Iff.rfl

/-- **From a cell on**, the scan sees the other keys of the leaf and those of the leaves behind it.
-/
theorem wp_scanFrom {chain : List ℕ} (hm : m.Tight) (hT : ∀ q ∈ chain, T q)
    (hlt : ∀ q ∈ chain, q < m.numPages)
    (hcells : ∀ q ∈ chain, (m.page q).numCells ≤ 15)
    (hfilled : ∀ q ∈ chain, 0 < (m.page q).numCells)
    {Q : List ℕ → Mem → Prop} : ∀ steps p i rest, p :: rest <:+ chain → 0 ∉ rest →
      Linked (fun p => (m.page p).nextLeaf) 0 (p :: rest) → i < (m.page p).numCells →
      ((m.page p).keys.drop i ++ m.keysOn rest).length < steps →
      Q ((m.page p).keys.drop i ++ m.keysOn rest) m →
        wp (handler K T) (scanFrom steps ⟨p, i, false⟩) Q F m := by
  intro steps
  -- each round takes the first of the keys left
  induction steps generalizing Q with
  | zero => exact fun _ _ _ _ _ _ _ hlen => absurd hlen (Nat.not_lt_zero _)
  | succ steps ih =>
    intro p i rest hsuffix hzero hlinked hi hlen hQ
    have hp : p ∈ chain := hsuffix.subset List.mem_cons_self
    have hn := hcells p hp
    have hkeys := keys_drop hi
    have hkey : (m.page p).load (.leafKey i) = (m.page p).key i := rfl
    rw [hkeys, List.cons_append] at hlen hQ
    have hsteps : ((m.page p).keys.drop (i + 1) ++ m.keysOn rest).length < steps :=
      Nat.lt_of_succ_lt_succ hlen
    unfold scanFrom
    simp only [Bool.false_eq_true, if_false, wp_bind, wp_getPage (hT p hp),
      hm.touch_of_lt (hlt p hp)]
    rw [wp_load (access_leafKey (by omega)), hkey, wp_advance (hT p hp) hm (hlt p hp) (by omega)]
    -- within the leaf, to the next leaf of the chain, or at its end
    by_cases hnext : i + 1 < (m.page p).numCells
    · rw [if_pos hnext]
      exact ih p (i + 1) rest hsuffix hzero hlinked hnext hsteps hQ
    · have hend : (m.page p).keys.drop (i + 1) = [] := by
        rw [List.drop_eq_nil_iff, length_keys]
        exact not_lt.1 hnext
      rw [if_neg hnext]
      rw [hend, List.nil_append] at hsteps hQ
      cases rest with
      | nil =>
        obtain ⟨n, rfl⟩ := Nat.exists_eq_succ_of_ne_zero (Nat.ne_zero_of_lt hsteps)
        rw [if_pos (show (m.page p).nextLeaf = 0 from hlinked)]
        exact hQ
      | cons q rest =>
        have hq : (m.page p).nextLeaf = q := hlinked.1
        have hq0 : q ≠ 0 := fun h0 => hzero (h0 ▸ List.mem_cons_self)
        have hsuffix' : q :: rest <:+ chain := (List.suffix_cons p _).trans hsuffix
        rw [if_neg (by rwa [hq]), hq]
        refine ih q 0 rest hsuffix' (fun h => hzero (List.mem_cons_of_mem _ h)) hlinked.2
          (hfilled q (hsuffix'.subset List.mem_cons_self)) ?_ ?_
        · exact hsteps
        · exact hQ

end Mem

namespace Tree

open Mem

variable {K T : ℕ → Prop} [DecidablePred K] [DecidablePred T] {m : Mem} {lvl : ℕ → ℕ}
    {chain l₁ l₂ : List ℕ} {p key : ℕ}
  {F : Fault → Mem → Prop}

omit [DecidablePred T] in
/-- In a table of several leaves the root is none of them. -/
theorem leaf_ne_zero (h : Tree T m lvl chain) (hp : p ∈ chain) (hc : chain ≠ [0]) : p ≠ 0 := by
  rintro rfl
  exact hc (h.chain_of_leaf ((h.leaves.mem 0).1 hp).2)

omit [DecidablePred T] in
/-- A chain with page 0 is that page alone. -/
theorem alone (hc : l₁ ++ p :: l₂ = [0]) : l₁ = [] ∧ p = 0 ∧ l₂ = [] := by
  cases l₁ with
  | nil =>
    obtain ⟨hp, hl⟩ := List.cons.inj hc
    exact ⟨rfl, hp, hl⟩
  | cons q l₁ =>
    obtain ⟨-, hl⟩ := List.cons.inj hc
    exact absurd hl (List.append_ne_nil_of_right_ne_nil _ (List.cons_ne_nil _ _))

omit [DecidablePred T] in
/-- Only a root leaf may be empty. -/
theorem numCells_pos (h : Tree T m lvl chain) (hp : p ∈ chain) (hc : chain ≠ [0]) :
    0 < (m.page p).numCells :=
  lt_of_lt_of_le (by decide) (h.leaves.filled p hp (h.leaf_ne_zero hp hc))

/-- **The scan** sees the keys of the chain, from the first leaf of the tree on. -/
theorem wp_scan {Q : List ℕ → Mem → Prop} {fuel steps : ℕ} (h : Tree T m lvl chain)
    (hK : ∀ i < 3, K i) (hfuel : lvl 0 ≤ fuel + 1)
    (hp : descend m.page 0 (lvl 0) 0 = p) (hch : chain = l₁ ++ p :: l₂)
    (hs : (m.page p).keys.Pairwise (· < ·))
    (hsteps : (m.keysOn (p :: l₂)).length < steps) (hQ : Q (m.keysOn (p :: l₂)) m) :
    wp (handler K T) (scan fuel steps) Q F m := by
  have h0 := h.shape.used_pos
  have hT0 := h.shape.allowed 0 h0
  obtain ⟨hplt, hpl⟩ := h.leaf_spec 0
  rw [hp] at hplt hpl
  have hmem : ∀ q ∈ chain, q < m.numPages ∧ lvl q = 0 := fun q hq => (h.leaves.mem q).1 hq
  have hload : (m.page 0).load .numCells = (m.page 0).numCells := rfl
  unfold scan tableStart
  simp only [wp_bind]
  refine h.shape.wp_tableFind fuel 0 hK (fun m' _ hv => ?_) fun m' hlt =>
    absurd hlt (not_lt.2 hfuel)
  unfold rootPageNum
  rw [hv.eq_of_tight h.tight, hp, findCell_zero hs, wp_getPage hT0, h.tight.touch_of_lt h0,
    wp_load (access_header .numCells), hload]
  obtain ⟨n, rfl⟩ : ∃ n, steps = n + 1 := Nat.exists_eq_succ_of_ne_zero (Nat.ne_zero_of_lt hsteps)
  by_cases hempty : (m.page 0).numCells = 0
  · -- the table is an empty leaf
    have hl : lvl 0 = 0 := by
      by_contra hne
      have hpos := ((h.shape.fits 0 h0).node hne (Set.notMem_empty 0)).pos
      exact absurd hempty (Nat.ne_of_gt hpos)
    -- page 0 is a leaf only if it is the only one, so no link back ends the scan early
    have hzero := h.chain_of_leaf hl
    obtain ⟨-, hp0, hl₂⟩ := alone (hch.symm.trans hzero)
    have hkeys : m.keysOn (p :: l₂) = [] := by
      rw [keysOn_cons, hl₂, hp0, keys_eq, hempty]
      rfl
    rw [hkeys] at hQ
    unfold scanFrom
    rw [decide_eq_true hempty]
    exact hQ
  · have hfilled : ∀ q ∈ chain, 0 < (m.page q).numCells := by
      intro q hq
      by_cases hc : chain = [0]
      · rw [hc] at hq
        rw [List.mem_singleton.1 hq]
        exact Nat.pos_of_ne_zero hempty
      · exact h.numCells_pos hq hc
    have hsuffix : p :: l₂ <:+ chain := ⟨l₁, hch.symm⟩
    have hpc : p ∈ chain := hsuffix.subset List.mem_cons_self
    have hlinked := h.leaves.linked.of_suffix hsuffix (List.cons_ne_nil _ _)
    have hzero : 0 ∉ l₂ := by
      intro h0
      have h0c : 0 ∈ chain := hsuffix.subset (List.mem_cons_of_mem _ h0)
      obtain ⟨-, -, hl₂⟩ := alone (hch.symm.trans (h.chain_of_leaf (hmem 0 h0c).2))
      rw [hl₂] at h0
      exact absurd h0 List.not_mem_nil
    rw [decide_eq_false hempty]
    refine wp_scanFrom h.tight (fun q hq => h.shape.allowed q (hmem q hq).1)
      (fun q hq => (hmem q hq).1)
      (fun q hq => (h.leaf_facts (hmem q hq).1 (hmem q hq).2).2.1) hfilled (n + 1) p 0 l₂ hsuffix
      hzero hlinked (hfilled p hpc) ?_ ?_
    · exact hsteps
    · exact hQ

/-! ## The order of the keys -/

omit [DecidablePred T] in
/-- The keys of the rows are those of the chain. -/
theorem rows_keys (h : Tree T m lvl chain) : m.rows.map Prod.fst = ↑(m.keysOn chain) := by
  rw [h.rows_eq]
  unfold rowsOn keysOn Page.keys
  rw [Multiset.map_coe, List.map_flatMap]

/-- The keys of a leaf are among those of the chain. -/
theorem keys_subset (hp : p ∈ chain) : (m.page p).keys ⊆ m.keysOn chain :=
  fun _ hk => List.mem_flatMap.2 ⟨p, hp, hk⟩

omit [DecidablePred T] in
/-- Without a key twice the keys of a leaf ascend. -/
theorem sorted_leaf (h : Tree T m lvl chain) (hnd : (m.keysOn chain).Nodup) (hp : p ∈ chain) :
    (m.page p).keys.Pairwise (· < ·) := by
  have hleaf : (m.page p).keys.Nodup := (List.nodup_flatMap.1 hnd).1 p hp
  exact ((h.leaves.sorted p hp).and hleaf).imp fun hab => lt_of_le_of_ne hab.1 hab.2

/-- After the insertion the chain has the old keys and the new one. -/
theorem InsertsKey.perm {m' : Mem} {chain' : List ℕ} (hi : InsertsKey m chain p key m' chain') :
    (m'.keysOn chain').Perm (key :: m.keysOn chain) := by
  obtain ⟨l₁, l₂, rfl, -, hkeys⟩ := hi
  rw [hkeys, keysOn_middle]
  refine (((perm_findCell _ key).append_right _).append_left _).trans ?_
  exact List.perm_middle

omit [DecidablePred T] in
/-- **One more key** keeps the keys in order if no key of another leaf separates it from those of
its leaf. -/
theorem InsertsKey.sorted_iff {m' : Mem} {chain' : List ℕ} (hi : InsertsKey m chain p key m' chain')
    (h : Tree T m lvl chain)
    (hs : (m.page p).keys.Pairwise (· < ·)) (hnew : key ∉ m.keysOn chain) :
    (m'.keysOn chain').Pairwise (· < ·) ↔ (m.keysOn chain).Pairwise (· < ·) ∧
      ∀ q ∈ chain, q ≠ p → ∀ a ∈ (m.page q).keys, ∀ b ∈ (m.page p).keys, a < key ↔ a < b := by
  obtain ⟨l₁, l₂, rfl, hnot, hkeys⟩ := hi
  have hp : p ∈ l₁ ++ p :: l₂ := List.mem_append_right _ List.mem_cons_self
  have hnew' : key ∉ (m.page p).keys := fun hk => hnew (keys_subset hp hk)
  have hmem : ∀ {k}, k ∈ (m.page p).keys.insertIdx ((m.page p).findCell key) key ↔
      k = key ∨ k ∈ (m.page p).keys := by
    intro k
    rw [(perm_findCell _ key).mem_iff, List.mem_cons]
  have hempty : (m.page p).keys = [] → l₁ = [] ∧ l₂ = [] := by
    intro hnil
    by_contra hne
    have hlen := h.numCells_pos hp fun hc => hne ⟨(alone hc).1, (alone hc).2.2⟩
    rw [← length_keys, hnil] at hlen
    exact absurd hlen (lt_irrefl _)
  have hrest : ∀ q ∈ l₁ ++ p :: l₂, q ≠ p → q ∈ l₁ ∨ q ∈ l₂ := by
    intro q hq hqp
    rcases List.mem_append.1 hq with hq | hq
    · exact Or.inl hq
    · exact Or.inr ((List.mem_cons.1 hq).resolve_left hqp)
  rw [hkeys, keysOn_middle]
  simp only [List.pairwise_append]
  constructor
  · rintro ⟨h₁, ⟨-, h₂, h23⟩, h13⟩
    refine ⟨⟨h₁, ⟨hs, h₂, fun a ha b hb => h23 a (hmem.2 (Or.inr ha)) b hb⟩,
      fun a ha b hb => h13 a ha b ?_⟩, ?_⟩
    · exact List.mem_append.2 ((List.mem_append.1 hb).imp_left fun hb => hmem.2 (Or.inr hb))
    · intro q hq hqp a ha b hb
      rcases hrest q hq hqp with hq | hq
      · have haq : a ∈ m.keysOn l₁ := keys_subset hq ha
        have hkey := h13 a haq key (List.mem_append_left _ (hmem.2 (Or.inl rfl)))
        have hb' := h13 a haq b (List.mem_append_left _ (hmem.2 (Or.inr hb)))
        exact iff_of_true hkey hb'
      · have haq : a ∈ m.keysOn l₂ := keys_subset hq ha
        have hkey := h23 key (hmem.2 (Or.inl rfl)) a haq
        have hb' := h23 b (hmem.2 (Or.inr hb)) a haq
        exact iff_of_false (not_lt.2 hkey.le) (not_lt.2 hb'.le)
  · rintro ⟨⟨h₁, ⟨-, h₂, h23⟩, h13⟩, hplace⟩
    -- the keys in front of the leaf and behind it are on their sides of the new one
    have hfront : ∀ a ∈ m.keysOn l₁, a < key := by
      intro a ha
      obtain ⟨q, hq, haq⟩ := List.mem_flatMap.1 ha
      obtain ⟨b, hb⟩ : ∃ b, b ∈ (m.page p).keys := by
        refine List.exists_mem_of_ne_nil _ fun hnil => ?_
        rw [(hempty hnil).1] at hq
        exact absurd hq List.not_mem_nil
      have hqp : q ≠ p := fun heq => hnot (List.mem_append_left _ (heq ▸ hq))
      exact (hplace q (List.mem_append_left _ hq) hqp a haq b hb).2
        (h13 a ha b (List.mem_append_left _ hb))
    have hback : ∀ a ∈ m.keysOn l₂, key < a := by
      intro a ha
      obtain ⟨q, hq, haq⟩ := List.mem_flatMap.1 ha
      obtain ⟨b, hb⟩ : ∃ b, b ∈ (m.page p).keys := by
        refine List.exists_mem_of_ne_nil _ fun hnil => ?_
        rw [(hempty hnil).2] at hq
        exact absurd hq List.not_mem_nil
      have hqc : q ∈ l₁ ++ p :: l₂ := List.mem_append_right _ (List.mem_cons_of_mem _ hq)
      have hqp : q ≠ p := fun heq => hnot (List.mem_append_right _ (heq ▸ hq))
      have hnlt : ¬ a < key :=
        fun hlt => absurd ((hplace q hqc hqp a haq b hb).1 hlt) (not_lt.2 (h23 b hb a ha).le)
      have hne : key ≠ a := fun heq => hnew (heq ▸ keys_subset hqc haq)
      exact lt_of_le_of_ne (not_lt.1 hnlt) hne
    refine ⟨h₁, ⟨strict_findCell hs hnew', h₂, fun a ha b hb => ?_⟩, fun a ha b hb => ?_⟩
    · rcases hmem.1 ha with rfl | ha
      · exact hback b hb
      · exact h23 a ha b hb
    · rcases List.mem_append.1 hb with hb | hb
      · rcases hmem.1 hb with rfl | hb
        · exact hfront a ha
        · exact h13 a ha b (List.mem_append_left _ hb)
      · exact h13 a ha b (List.mem_append_right _ hb)

end Tree

/-! ## The chain of a pager -/

/-- In a chain with more than one leaf page 0 is not a leaf. -/
theorem Tree.zero_not_mem {T : ℕ → Prop} {m : Mem} {lvl : ℕ → ℕ} {chain rest : List ℕ} {first : ℕ}
    (h : Tree T m lvl chain)
    (hc : chain = first :: rest) : 0 ∉ rest := by
  intro h0
  have h0c : 0 ∈ chain := by
    rw [hc]
    exact List.mem_cons_of_mem _ h0
  have halone : [] ++ first :: rest = [0] :=
    hc.symm.trans (h.chain_of_leaf ((h.leaves.mem 0).1 h0c).2)
  have hl₂ := (Tree.alone halone).2.2
  rw [hl₂] at h0
  exact absurd h0 List.not_mem_nil

namespace Grown

variable {c : ℕ} {s : Pager} {m : Mem} {lvl : ℕ → ℕ} {chain : List ℕ} {p q : ℕ}

theorem mem_chain (h : Grown c s m lvl chain) : p ∈ s.leaves ↔ p ∈ chain := by
  rw [h.mem_leaves, h.tree.leaves.mem, h.numPages]

theorem page_of_mem (h : Grown c s m lvl chain) (hp : p ∈ chain) : s.page p = m.page p :=
  h.page (h.mem_leaves.1 (h.mem_chain.2 hp)).1

/-- **The first leaf of the chain** is the only one that is no other one's next leaf. -/
theorem first_iff (h : Grown c s m lvl chain) (hq : q ∈ chain) :
    (∀ p ∈ s.leaves, ¬ s.Successor p q) ↔ chain.head? = some q := by
  obtain ⟨first, rest, hch⟩ := List.exists_cons_of_ne_nil h.tree.leaves.linked.ne_nil
  have hlink := h.tree.leaves.linked
  have hnd := h.tree.leaves.nodup
  have hzero := h.tree.zero_not_mem hch
  -- successors are links to later leaves, which are not page 0
  have hsucc : ∀ p ∈ chain, s.Successor p q ↔ (m.page p).nextLeaf = q ∧ q ≠ 0 := fun p hp => by
    unfold Pager.Successor
    rw [h.page_of_mem hp]
  have hu := (hch ▸ hlink).head_unique (hch ▸ hnd) hzero q (hch ▸ hq)
  rw [hch, List.head?_cons, Option.some_inj, eq_comm (a := first), ← hu, ← hch]
  constructor
  · intro hno p hp he
    by_contra hq0
    exact hno p (h.mem_chain.2 hp) ((hsucc p hp).2 ⟨he, hq0⟩)
  · intro hno p hp hs
    have hp' := h.mem_chain.1 hp
    obtain ⟨he, hq0⟩ := (hsucc p hp').1 hs
    exact hq0 (hno p hp' he)

end Grown

end ToySQL
