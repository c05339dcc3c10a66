import ToySQL.Proof.Step

/-!
# Insertions that end the process

* `Grown.insertRow_exit_iff`: an insertion ends the process exactly if it hits a stale slot.
* `exits_iff`: a run of insertions of distinct keys ends the process exactly if one of them does
  in the state the ones before it lead to.
-/

namespace ToySQL

open Program Page

namespace Page

variable {a l r : Page} {new : ℕ} {x : ℕ × Bytes rowSize}

/-- The largest key of a leaf is that of its last row. -/
theorem maxKey_eq_getElem? (hl : a.isLeaf = true) {n : ℕ} (hn : a.numCells = n + 1) :
    a.rows[n]?.map Prod.fst = some a.maxKey := by
  rw [rows_eq, hn, List.getElem?_map, List.getElem?_range (Nat.lt_succ_self n)]
  unfold maxKey
  rw [if_pos hl, hn, if_neg (Nat.succ_ne_zero n)]
  rfl

/-- The largest key the lower half will have. -/
theorem Halves.lowerMax (hh : Halves a new (a.findCell x.1) x l r) (ha : a.isLeaf = true) :
    a.lowerMax x = l.maxKey := by
  have hmax := maxKey_eq_getElem? (n := 7) (hh.isLeaf ha) hh.numCells
  rw [hh.rows, List.getElem?_take, if_pos (by decide)] at hmax
  unfold Page.lowerMax rowsWith
  rw [show leafNodeLeftSplitCount - 1 = 7 from rfl, hmax]
  rfl

/-- The largest key the upper half will have. -/
theorem Halves.upperMax (hh : Halves a new (a.findCell x.1) x l r) : a.upperMax x = r.maxKey := by
  have hmax := maxKey_eq_getElem? (n := 7) hh.newLeaf hh.newCells
  rw [hh.newRows, List.getElem?_drop] at hmax
  unfold Page.upperMax rowsWith
  rw [show leafNodeMaxCells = 8 + 7 from rfl, hmax]
  rfl

end Page

variable {c fuel : ℕ} {s s' : Pager} {m : Mem} {lvl : ℕ → ℕ} {chain : List ℕ} {op : Insertion}
    {p : ℕ} {l r : Page}

namespace Grown

/-- The stale slot of the pages and that of the flat memory. -/
theorem hitsStaleSlot_iff (h : Grown c s m lvl chain)
    (hp : p = descend m.page op.key.toNat (lvl 0) 0) (hfull : (m.page p).numCells = 15)
    (hp0 : p ≠ 0) (hlt : m.numPages < filePagesNum)
    (hh : Halves (m.page p) m.numPages ((m.page p).findCell op.key.toNat) op.cell l r) :
    s.HitsStaleSlot op p ↔ Tree.HitsInvalidSlot m p l r := by
  obtain ⟨hpm, hl⟩ := h.tree.leaf_spec op.key.toNat
  rw [← hp] at hpm hl
  obtain ⟨hleaf, -, -⟩ := h.tree.leaf_facts hpm hl
  have hu0 := h.tree.shape.used_pos
  have hlvl0 : lvl 0 ≠ 0 := by
    have := h.tree.lt_root hpm hp0
    omega
  have hnode := (h.tree.shape.fits 0 hu0).node hlvl0 (Set.notMem_empty 0)
  have hrc := (h.tree.shape.kid_lt hu0 hnode.right_mem).1
  have hpage : ∀ {q}, q < m.numPages → s.page q = m.page q := fun hq => h.page (h.numPages ▸ hq)
  -- the two halves have the largest keys computed from the leaf before the split
  have hlow : (m.page p).lowerMax op.cell = l.maxKey := hh.lowerMax hleaf
  have hup : (m.page p).upperMax op.cell = r.maxKey := hh.upperMax
  have hroot : s.page rootPageNum = m.page 0 := hpage hu0
  constructor
  · rintro ⟨-, -, ⟨-, hpar⟩, hroom, -, hlast, hinv⟩
    rw [hroot] at hroom hlast hinv
    rw [hpage hpm] at hpar hlast
    rw [hpage hrc, hlow, hup] at hlast
    exact ⟨hpar, hroom, hlast, hinv⟩
  · rintro ⟨hpar, hroom, hlast, hinv⟩
    refine ⟨h.leadsTo_iff.2 hp, ?_, ⟨hp0, ?_⟩, ?_, ?_, ?_, ?_⟩
    · rw [hpage hpm]
      exact hfull
    · rw [hpage hpm]
      exact hpar
    · rw [hroot]
      exact hroom
    · rw [h.numPages]
      exact hlt
    · rw [hroot, hpage hpm, hpage hrc, hlow, hup]
      exact hlast
    · rw [hroot]
      exact hinv

/-- The keys of a root leaf are those of the table. -/
theorem keys_of_leaf (h : Grown c s m lvl chain) (hl : lvl 0 = 0) :
    (↑(m.page 0).keys : Multiset ℕ) = m.rows.map Prod.fst := by
  rw [h.tree.rows_eq, h.tree.chain_of_leaf hl]
  unfold Mem.rowsOn keys
  rw [List.flatMap_singleton, Multiset.map_coe]

/-- **An insertion of a new key ends the process** exactly if it hits a stale slot. -/
theorem insertRow_exit_iff (h : Grown c s m lvl chain) (hc : filePagesNum ≤ c)
    (hnew : (op.key.toNat ::ₘ m.rows.map Prod.fst).Nodup) :
    (∃ e s', (insertRow fuel op).run Pager.handler s = (.error (.exit e), s')) ↔
      ∃ q, s.HitsStaleSlot op q := by
  obtain ⟨hp, hl⟩ := h.tree.leaf_spec op.key.toNat
  have hleads : ∀ q, LeadsTo s.page op.key.toNat rootPageNum q ↔
      q = descend m.page op.key.toNat (lvl 0) 0 :=
    fun _ => h.leadsTo_iff
  obtain ⟨r, s₁, m', hrun, hflat, -⟩ :=
    h.sim.run_large (K := fun _ => True) hc (f := insertRow fuel op) fun _ =>
    match_insertRow fuel op
  rw [Pager.strict_true] at hrun
  generalize hdescend : descend m.page op.key.toNat (lvl 0) 0 = p at hp hl hleads
  obtain ⟨hleaf, hn, hsorted⟩ := h.tree.leaf_facts hp hl
  constructor
  · rintro ⟨e, s', hexit⟩
    rw [hexit] at hrun
    obtain ⟨rfl, -⟩ := Prod.mk.inj hrun
    refine wp_error (F := fun e _ => ∀ what, e = .exit what →
      ∃ q, s.HitsStaleSlot op q) (Q := fun _ _ => True) ?_ hflat e rfl
    refine h.tree.wp_insertRow_of (fun _ _ => trivial) (fun _ => id) hdescend ⟨fun _ _ => nofun,
      fun _ => nofun⟩
      (fun _ _ _ _ _ _ => nofun) (fun hfull hp0 l r hh hfirst => ?_)
      (fun hfull hp0 hT l r hh hits _ _ _ _ => ?_) fun _ _ _ _ _ _ => trivial
    · -- the smallest of 16 different keys is a valid page number
      subst hp0
      refine absurd hfirst (key_ne_invalid hh.numCells ?_)
      have hkeys := h.keys_of_leaf hl
      rw [← hkeys, Multiset.cons_coe, Multiset.coe_nodup] at hnew
      obtain ⟨hls, -⟩ := hh.sorted rfl hsorted
      have hperm : (l.keys ++ r.keys).Perm (op.key.toNat :: (m.page 0).keys) := by
        rw [hh.keys_append]
        exact List.perm_insertIdx _ _ (by rw [length_keys]; exact findCell_le _ _)
      have hnodup := (List.nodup_append.1 (hperm.nodup_iff.2 hnew)).1
      exact (List.pairwise_and_iff.2 ⟨hls, hnodup⟩).imp fun hab => lt_of_le_of_ne hab.1 hab.2
    -- the slot past the parent's last cell
    · exact ⟨p, (h.hitsStaleSlot_iff hdescend.symm hfull hp0 hT hh).2 hits⟩
  · rintro ⟨q, hits⟩
    obtain rfl := (hleads q).1 hits.leads
    have hfull : (m.page q).numCells = 15 := by
      rw [← h.page (h.numPages ▸ hp)]
      exact hits.full
    have hlt : m.numPages < filePagesNum := h.numPages ▸ hits.page
    have hwp : wp (Mem.handler (fun _ => True) OfFile) (insertRow fuel op) (fun _ _ => False)
        (fun e _ => ∃ what, e = .exit what) m := by
      unfold insertRow
      rw [wp_bind]
      refine h.tree.shape.wp_tableFind fuel op.key.toNat (fun _ _ => trivial) (fun m' _ hv => ?_)
        fun m' hfuel => ?_
      · rw [hv.eq_of_tight h.tree.tight, hdescend]
        exact h.tree.wp_leafNodeInsert_exit hp hl op.key.toNat_lt (fun _ _ => trivial) hlt hlt hfull
          hits.parent.1
          (fun l r hh => (h.hitsStaleSlot_iff hdescend.symm hfull hits.parent.1 hlt hh).1 hits)
          fun e _ => ⟨e, rfl⟩
      · -- the root is right above the leaf
        have hroot := ((h.tree.shape.fits q hp).parent hits.parent.1 (Set.notMem_empty q)).2
        rw [← h.page (h.numPages ▸ hp), hits.parent.2, hl] at hroot
        have hroot : lvl 0 = 1 := hroot
        omega
    rcases r with e | _
    · obtain ⟨what, rfl⟩ := wp_error hwp hflat
      exact ⟨what, s₁, hrun⟩
    · exact (wp_ok hwp hflat).elim

end Grown

/-- **A run ends the process** exactly if one of its insertions hits a stale slot. -/
theorem exits_iff {uninit : Addr → Page} {ops : List Insertion} (hc : filePagesNum ≤ c)
    (hkeys : (ops.map Insertion.key).Nodup) :
    (∃ e s', Program.run Pager.handler (do initializeTable; insertRows fuel ops)
        (Pager.init File.empty c uninit) = (.error (.exit e), s')) ↔
      ∃ pre op post s, ops = pre ++ op :: post ∧ Reaches c uninit fuel pre s ∧
        ∃ q, s.HitsStaleSlot op q := by
  -- a step from a state the run reaches
  have hstep : ∀ pre op post s, ops = pre ++ op :: post → Reaches c uninit fuel pre s →
      ((∃ e s', (insertRow fuel op).run Pager.handler s = (.error (.exit e), s')) ↔
        ∃ q, s.HitsStaleSlot op q) := by
    intro pre op post s hops hreach
    obtain ⟨m, lvl, chain, hg, hm⟩ := hreach.grown hc
    refine hg.insertRow_exit_iff hc ?_
    rw [hops, List.map_append, List.map_cons] at hkeys
    have happend : ((op.key :: pre.map Insertion.key) ++ post.map Insertion.key).Nodup :=
      List.nodup_middle.1 hkeys
    have hmiddle := happend.of_append_left
    rw [hm, Multiset.cons_coe, Multiset.coe_nodup]
    have hmap := hmiddle.map (f := UInt32.toNat) fun a b hab => UInt32.toNat_inj.1 hab
    rwa [List.map_cons, List.map_map] at hmap
  constructor
  · rintro ⟨e, hrun⟩
    obtain ⟨pre, op, post, s, hops, hreach, hfault⟩ := (reaches_error_iff hc).1 hrun
    exact ⟨pre, op, post, s, hops, hreach, (hstep pre op post s hops hreach).1 ⟨e, hfault⟩⟩
  · rintro ⟨pre, op, post, s, hops, hreach, hits⟩
    obtain ⟨e, hfault⟩ := (hstep pre op post s hops hreach).2 hits
    exact ⟨e, (reaches_error_iff hc).2 ⟨pre, op, post, s, hops, hreach, hfault⟩⟩

/-- The insertion of a row whose text is full of `0xFF`. -/
def solid (key : ℕ) : Insertion :=
  ⟨UInt32.ofNat key, ⟨UInt32.ofNat key, 255, ⟨BitVec.allOnes (8 * 255)⟩⟩⟩

theorem exits_iff_solid :
    (∃ e s', Program.run Pager.handler
        (do initializeTable; insertRows 0 ((List.range 24).map solid))
        (Pager.init File.empty filePagesNum fun _ => Bytes.zero pageSize) =
          (.error (.exit e), s')) ↔
      ∃ pre op post s, (List.range 24).map solid = pre ++ op :: post ∧
        Reaches filePagesNum (fun _ => Bytes.zero pageSize) 0 pre s ∧ ∃ q, s.HitsStaleSlot op q :=
  exits_iff le_rfl (by decide +kernel)

/-- **24 rows** end the process. -/
theorem not_exits_solid : (((List.range 24).map solid).map Insertion.key).Nodup ∧
    ∃ e s', Program.run Pager.handler (do initializeTable; insertRows 0 ((List.range 24).map solid))
      (Pager.init File.empty filePagesNum fun _ => Bytes.zero pageSize) =
        (.error (.exit e), s') := by
  refine ⟨by decide +kernel, "Tried to access child 1 of node, but was invalid page", ?_⟩
  rw [Pager.init_eq_new]
  exact run_of_fault (by decide +kernel)

end ToySQL
