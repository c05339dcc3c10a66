import ToySQL.Proof.Scan

/-!
# Scans

* `scansInOrder_iff`: a scan sees the inserted keys in ascending order exactly if every key went to
  its place in the chain of the leaves, and the chain starts at the first leaf of the tree.
* `not_scansInOrder`: the split of the first leaf puts its upper half in front of it.
-/

namespace ToySQL

open Program Page

variable {c fuel : ℕ} {uninit : Addr → Page} {ops : List Insertion} {s : Pager} {m : Mem}
    {lvl : ℕ → ℕ}
  {chain l₁ l₂ keys keys' : List ℕ} {p key : ℕ}

/-- A scan returns one list only. -/
theorem Pager.ScansTo.unique (h : s.ScansTo keys) (h' : s.ScansTo keys') : keys = keys' := by
  obtain ⟨n, hn⟩ := h
  obtain ⟨n', hn'⟩ := h'
  obtain ⟨s₁, hrun⟩ := hn (max n n') (le_max_left _ _) (max n n') (le_max_left _ _)
  obtain ⟨s₂, hrun'⟩ := hn' (max n n') (le_max_right _ _) (max n n') (le_max_right _ _)
  rw [hrun] at hrun'
  exact Except.ok.inj (Prod.mk.inj hrun').1

theorem nodup_keys (h : (ops.map (·.key)).Nodup) : (ops.map fun op => op.key.toNat).Nodup := by
  have hmap := h.map (fun _ _ => UInt32.toNat_inj.1 : Function.Injective UInt32.toNat)
  rwa [List.map_map] at hmap

namespace Grown

/-- What a scan sees. -/
theorem scansTo (h : Grown c s m lvl chain) (hc : filePagesNum ≤ c)
    (hp : descend m.page 0 (lvl 0) 0 = p)
    (hch : chain = l₁ ++ p :: l₂) (hs : (m.page p).keys.Pairwise (· < ·)) :
    s.ScansTo (m.keysOn (p :: l₂)) := by
  refine ⟨max (lvl 0) ((m.keysOn (p :: l₂)).length + 1), fun fuel hfuel steps hsteps => ?_⟩
  have hwp : wp (Mem.handler (fun _ => True) OfFile) (scan fuel steps) (fun keys _ => keys =
      m.keysOn (p :: l₂)) (fun _ _ => False) m :=
    h.tree.wp_scan (fun _ _ => trivial) ((le_max_left _ _).trans (hfuel.trans (Nat.le_succ _)))
      hp hch hs
      (Nat.lt_of_succ_le ((le_max_right _ _).trans hsteps)) rfl
  obtain ⟨_, s', _, hrun, rfl, -⟩ := h.sim.run_total hc (fun _ => match_scan fuel steps) hwp
  exact ⟨s', hrun⟩

/-- The scan starts at the first leaf if the lookup of 0 ends there. -/
theorem startsFirst_iff (h : Grown c s m lvl chain) :
    s.StartsFirst ↔ chain.head? = some (descend m.page 0 (lvl 0) 0) := by
  have hmem : descend m.page 0 (lvl 0) 0 ∈ chain := (h.tree.leaves.mem _).2 (h.tree.leaf_spec 0)
  rw [← h.first_iff hmem]
  unfold Pager.StartsFirst
  simp only [firstLeaf_iff, h.leadsTo_iff, forall_eq]

/-- **The chain starts at the first leaf of the tree**: the scan sees it all. -/
theorem scansTo_chain (h : Grown c s m lvl chain) (hc : filePagesNum ≤ c)
    (hnd : (m.keysOn chain).Nodup) (hfirst : s.StartsFirst) :
    s.ScansTo (m.keysOn chain) := by
  rw [h.startsFirst_iff] at hfirst
  obtain ⟨rest, hch⟩ := List.head?_eq_some_iff.1 hfirst
  have hleaf := h.tree.sorted_leaf hnd ((h.tree.leaves.mem _).2 (h.tree.leaf_spec 0))
  have hscan := h.scansTo hc rfl (hch.trans (List.nil_append _).symm) hleaf
  rwa [← hch] at hscan

/-- A scan that sees as many keys as the chain has starts at its first leaf. -/
theorem startsFirst_of_scansTo (h : Grown c s m lvl chain) (hc : filePagesNum ≤ c)
    (hnd : (m.keysOn chain).Nodup)
    (hperm : keys.Perm (m.keysOn chain)) (hscan : s.ScansTo keys) : s.StartsFirst := by
  have hmem : descend m.page 0 (lvl 0) 0 ∈ chain := (h.tree.leaves.mem _).2 (h.tree.leaf_spec 0)
  rw [h.startsFirst_iff]
  generalize hp : descend m.page 0 (lvl 0) 0 = p at hmem
  obtain ⟨l₁, l₂, hch⟩ := List.append_of_mem hmem
  obtain rfl := hscan.unique (h.scansTo hc hp hch (h.tree.sorted_leaf hnd hmem))
  cases l₁ with
  | nil => rw [hch, List.nil_append, List.head?_cons]
  | cons q l₁ =>
    -- the leaf in front has keys that the scan has not seen
    have hq : q ∈ chain := hch ▸ List.mem_cons_self
    have hpos : 0 < (m.page q).numCells := h.tree.numCells_pos hq fun hc =>
      List.cons_ne_nil _ _ (Tree.alone (hch.symm.trans hc)).1
    have hlen := hperm.length_eq
    rw [← length_keys] at hpos
    rw [hch, Mem.keysOn_middle, Mem.keysOn_cons, Mem.keysOn_cons] at hlen
    simp only [List.length_append] at hlen
    omega

/-- A key is in place if no key of another leaf lies between it and the keys of its own leaf. -/
theorem inPlace_iff (h : Grown c s m lvl chain) (hp : descend m.page key (lvl 0) 0 = p) :
    s.InPlace key ↔
    ∀ q ∈ chain, q ≠ p → ∀ a ∈ (m.page q).keys, ∀ b ∈ (m.page p).keys, a < key ↔ a < b := by
  have hmem : p ∈ chain := hp ▸ (h.tree.leaves.mem _).2 (h.tree.leaf_spec key)
  unfold Pager.InPlace
  simp only [h.leadsTo_iff, hp, forall_eq, h.mem_chain, h.page_of_mem hmem]
  refine forall₂_congr fun q hq => ?_
  rw [h.page_of_mem hq]

end Grown

/-- **The chain over a run**: it has the inserted keys, in ascending order if every key went to its
place. -/
theorem Reaches.chain_sorted_iff (hc : filePagesNum ≤ c) :
    ∀ (ops : List Insertion) (s : Pager), (ops.map (·.key)).Nodup →
    Reaches c uninit fuel ops s → ∃ m lvl chain, Grown c s m lvl chain ∧
      (m.keysOn chain).Perm (ops.map fun op => op.key.toNat) ∧
      ((m.keysOn chain).Pairwise (· < ·) ↔ ∀ pre op post s₁, ops = pre ++ op :: post →
        Reaches c uninit fuel pre s₁ →
        s₁.InPlace op.key.toNat) := by
  intro ops
  -- on the run: the last insertion is in place, and so were those before
  induction ops using List.reverseRecOn with
  | nil =>
    intro s _ hs
    obtain ⟨m, lvl, chain, hg, hkeys⟩ := hs.grown hc
    rw [hg.tree.rows_keys, Multiset.coe_eq_coe] at hkeys
    refine ⟨m, lvl, chain, hg, hkeys, iff_of_true ?_ fun pre op post _ hops => ?_⟩
    · rw [List.perm_nil.1 hkeys]
      exact .nil
    · exact absurd hops.symm (List.append_ne_nil_of_right_ne_nil _ (List.cons_ne_nil _ _))
  | append_singleton ops op ih =>
    intro s' hnd hs'
    obtain ⟨s, hs, hrun⟩ := hs'.exists_prev
    rw [List.map_append, List.nodup_append] at hnd
    obtain ⟨m, lvl, chain, hg, hkeys, hiff⟩ := ih s hnd.1 hs
    obtain ⟨m', lvl', chain', hg', -, hinserts⟩ := hg.after_keys hc hrun
    have hnew : op.key.toNat ∉ m.keysOn chain := by
      rw [hkeys.mem_iff, List.mem_map]
      rintro ⟨op', hop', heq⟩
      exact hnd.2.2 _ (List.mem_map_of_mem hop') _ (List.mem_singleton_self _)
        (UInt32.toNat_inj.1 heq)
    have hleaf := hg.tree.leaf_spec op.key.toNat
    have hsorted :=
      hg.tree.sorted_leaf (hkeys.nodup_iff.2 (nodup_keys hnd.1)) ((hg.tree.leaves.mem _).2 hleaf)
    refine ⟨m', lvl', chain', hg', ?_, ?_⟩
    · rw [List.map_append]
      exact (hinserts.perm.trans (hkeys.cons _)).trans (List.perm_append_singleton _ _).symm
    · rw [hinserts.sorted_iff hg.tree hsorted hnew, hiff, ← hg.inPlace_iff rfl]
      constructor
      · rintro ⟨hbefore, hlast⟩ pre op' post s₁ hops hs₁
        rcases List.eq_nil_or_concat post with rfl | ⟨post, op'', rfl⟩
        · obtain ⟨rfl, hop⟩ := List.append_inj' hops rfl
          obtain rfl := (List.cons.inj hop).1
          obtain rfl : s₁ = s := (Prod.mk.inj (hs₁.symm.trans hs)).2
          exact hlast
        · have hops' : ops ++ [op] = (pre ++ op' :: post) ++ [op''] := by
            rw [hops, List.concat_eq_append, List.append_assoc, List.cons_append]
          exact hbefore pre op' post s₁ (List.append_inj' hops' rfl).1 hs₁
      · intro hall
        refine ⟨fun pre op' post s₁ hops hs₁ => hall pre op' (post ++ [op]) s₁ ?_ hs₁,
          hall ops op [] s rfl hs⟩
        rw [hops, List.append_assoc, List.cons_append]

/-- **A scan** sees the inserted keys in ascending order, each once, exactly if every key went to
its place and the chain of the leaves starts at the first leaf of the tree. -/
theorem scansInOrder_iff (hc : filePagesNum ≤ c) (hnd : (ops.map (·.key)).Nodup)
    (hs : Reaches c uninit fuel ops s) :
    (∃ keys, keys.Perm (ops.map fun op => op.key.toNat) ∧ keys.Pairwise (· < ·) ∧ s.ScansTo keys) ↔
      s.StartsFirst ∧ ∀ pre op post s₁, ops = pre ++ op :: post → Reaches c uninit fuel pre s₁ →
        s₁.InPlace op.key.toNat := by
  obtain ⟨m, lvl, chain, hg, hkeys, hiff⟩ := Reaches.chain_sorted_iff hc ops s hnd hs
  have hchain := hkeys.nodup_iff.2 (nodup_keys hnd)
  rw [← hiff]
  constructor
  · rintro ⟨keys, hperm, hsorted, hscan⟩
    have hfirst := hg.startsFirst_of_scansTo hc hchain (hperm.trans hkeys.symm) hscan
    rw [← hscan.unique (hg.scansTo_chain hc hchain hfirst)]
    exact ⟨hfirst, hsorted⟩
  · rintro ⟨hfirst, hsorted⟩
    exact ⟨_, hkeys, hsorted, hg.scansTo_chain hc hchain hfirst⟩

/-! ## Two runs -/

/-- The condition on the next step, by the descent to a leaf. -/
def inPlace (s : Pager) (op : Insertion) : Bool :=
  let q := descend s.page op.key.toNat 1 rootPageNum
  (s.page q).isLeaf && s.leaves.all fun p => p == q ||
    (s.page p).keys.all fun a => (s.page q).keys.all fun b =>
      decide (a < op.key.toNat) == decide (a < b)

/-- The condition as it is computed is the one that is meant. -/
theorem inPlace_spec {op : Insertion} (h : inPlace s op = true) : s.InPlace op.key.toNat := by
  unfold inPlace at h
  simp only [Bool.and_eq_true, List.all_eq_true, Bool.or_eq_true, beq_iff_eq, decide_eq_decide] at h
  obtain ⟨hleaf, hplace⟩ := h
  intro q hleads p hp hpq a ha b hb
  rw [hleads.eq_descend 1 hleaf] at hpq hb
  exact (hplace p hp).resolve_left hpq a ha b hb

/-- The chain starts at the leaf below the first child of the root. -/
theorem startsFirst_of_all (hleaf : (s.page (descend s.page 0 1 rootPageNum)).isLeaf = true)
    (h : s.leaves.all (fun p => (s.page p).nextLeaf != descend s.page 0 1 rootPageNum ||
      descend s.page 0 1 rootPageNum == 0) = true) : s.StartsFirst := by
  rw [List.all_eq_true] at h
  intro q hq p hp hsucc
  rw [firstLeaf_iff] at hq
  rw [hq.eq_descend 1 hleaf] at hsucc
  have hall := h p hp
  rw [Bool.or_eq_true, bne_iff_ne, beq_iff_eq] at hall
  rcases hall with hne | h0
  · exact hne hsucc.1
  · exact hsucc.2 h0

/-- 24 insertions in ascending order. -/
def ascending : List Insertion := (List.range 24).map plain

theorem scansInOrder_ascending :
    ∃ keys, keys.Perm (ascending.map fun op => op.key.toNat) ∧ keys.Pairwise (· < ·) ∧
    (runTable filePagesNum 0 ascending).2.ScansTo keys := by
  have hsteps : stepsOk 0 inPlace ascending (runTable filePagesNum 0 []).2 = true := by
    decide +kernel
  refine (scansInOrder_iff le_rfl (by decide) (reaches_runTable (by decide +kernel))).2
    ⟨?_, fun pre op post s₁ hops hs => ?_⟩
  · exact startsFirst_of_all (by decide +kernel) (by decide +kernel)
  · exact inPlace_spec (stepsOk_spec hsteps (by decide +kernel) pre op post s₁ hops hs)

/-- 24 insertions in descending order: the first leaf is split twice. -/
def descending : List Insertion := (List.range 24).reverse.map plain

/-- **The split of the first leaf** puts its upper half in front of it, and the scan starts there.
-/
theorem not_scansInOrder : (descending.map (·.key)).Nodup ∧
    ∃ s, Reaches filePagesNum (fun _ => Bytes.zero pageSize) 0 descending s ∧
      s.numPages < filePagesNum ∧
      ¬ ∃ keys, keys.Perm (descending.map fun op => op.key.toNat) ∧ keys.Pairwise (· < ·) ∧
        s.ScansTo keys := by
  have hnd : (descending.map (·.key)).Nodup := by decide
  have hs : Reaches filePagesNum (fun _ => Bytes.zero pageSize) 0 descending
      (runTable filePagesNum 0 descending).2 :=
    reaches_runTable (by decide +kernel)
  refine ⟨hnd, _, hs, by decide +kernel, ?_⟩
  rintro ⟨keys, hperm, -, hscan⟩
  obtain ⟨m, lvl, chain, hg, hkeys, -⟩ := Reaches.chain_sorted_iff le_rfl descending _ hnd hs
  have hfirst := hg.startsFirst_of_scansTo le_rfl (hkeys.nodup_iff.2 (nodup_keys hnd))
    (hperm.trans hkeys.symm) hscan
  have hleads := @leadsTo_descend (runTable filePagesNum 0 descending).2.page 0 1 rootPageNum
    (by decide +kernel)
  exact hfirst _ (firstLeaf_iff.2 hleads) 2 (by decide +kernel)
    ⟨by decide +kernel, by decide +kernel⟩

end ToySQL
