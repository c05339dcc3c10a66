import ToySQL.Proof.Step

/-!
# Accesses stay inside the pages

* `Reaches.staysInside`: every access of a lookup and of an insertion that splits no internal
  node ends inside its page, and a key of an internal node is accessed at an index below
  `INTERNAL_NODE_MAX_CELLS`.
-/

namespace ToySQL

open Program Page Pager

variable {c fuel : ℕ} {uninit : Addr → Page} {ops : List Insertion} {s : Pager} {m : Mem}
    {lvl : ℕ → ℕ} {chain : List ℕ}

/-- What the run in flat memory says of the accesses of a run on the pager. -/
theorem Grown.always {α : Type} {f : Prog Addr α} {g : Prog ℕ α} (h : Grown c s m lvl chain)
    (hc : filePagesNum ≤ c)
    (hmatch : ∀ w, Match Eq' w f g)
    (hwp : wp (Mem.handler (· < internalNodeMaxCells) OfFile) g (fun _ _ => True)
      (fun e _ => e ≠ .outOfPage) m) :
    Always Pager.handler (Allowed (· < internalNodeMaxCells)) f s := by
  refine (always_of_guard (e := .outOfPage) f s fun s' hrun => ?_).1
  obtain ⟨r, s₁, m', hrun₁, hflat, -⟩ := h.sim.run_large (K := (· < internalNodeMaxCells)) hc hmatch
  unfold Pager.strict at hrun₁
  rw [hrun] at hrun₁
  obtain ⟨rfl, -⟩ := Prod.mk.inj hrun₁
  exact wp_error hwp hflat rfl

/-- **The accesses of a lookup and of an insertion that splits no internal node.** -/
theorem Reaches.staysInside (hc : filePagesNum ≤ c) (h : Reaches c uninit fuel ops s) :
    (∀ fuel' key,
      Always Pager.handler (Allowed (· < internalNodeMaxCells)) (tableFind fuel' key) s) ∧
      ∀ fuel' op, s.SplitsNoNode op.key.toNat →
        Always Pager.handler (Allowed (· < internalNodeMaxCells)) (insertRow fuel' op) s := by
  obtain ⟨m, lvl, chain, hg, -⟩ := h.grown hc
  refine ⟨fun fuel' key => ?_, fun fuel' op hsplits => ?_⟩
  · refine hg.always hc (fun _ => match_tableFind fuel' key) ?_
    exact hg.tree.shape.wp_tableFind _ _ (fun _ h => h) (fun _ _ _ => trivial) fun _ _ => nofun
  · refine hg.always hc (fun _ => match_insertRow fuel' op) ?_
    have hlt := hg.leaf_lt op.key.toNat
    obtain ⟨hp, hl⟩ := hg.tree.leaf_spec op.key.toNat
    have hleaf := hsplits _ (hg.leadsTo_iff.2 rfl)
    refine hg.tree.wp_insertRow_of (fun _ h => h) (fun _ => id) rfl ⟨fun _ _ => nofun,
      fun _ => nofun⟩
      (fun hfull hp0 h3 hT hT' => ?_) (fun _ _ _ _ _ _ _ => nofun) (fun _ _ _ _ _ _ _ _ => nofun)
      fun _ _ _ _ _ _ => trivial
    -- a full node above a full leaf would be split
    have hpar := ((hg.tree.shape.fits _ hp).parent hp0 (Set.notMem_empty _)).1
    rw [hg.page hlt, hg.page (hg.numPages ▸ hpar), hfull, h3, hg.numPages] at hleaf
    rcases hleaf with hroom | h0 | hroom | hout | ⟨hroot, hout⟩
    · exact absurd hroom (by decide)
    · exact absurd h0 hp0
    · exact absurd hroom (by decide)
    · exact absurd hT (not_lt.2 hout)
    · exact absurd (hT' hroot) (not_lt.2 hout)

/-- A pager that refuses an access refuses it in a run that does it. -/
theorem not_always {f : Prog Addr Unit} {C : PagerOp Addr → Pager → Prop} [∀ o s, Decidable (C o s)]
    (hguard : faultOf (f.run (Program.guard Pager.handler C .noReturn) s).1 = some .noReturn)
    (hrun : faultOf (f.run Pager.handler s).1 = some .outOfPage) :
    ¬ Always Pager.handler C f s := by
  intro halways
  rw [halways.run_guard, hrun] at hguard
  cases hguard

/-- 39 insertions in ascending order, of multiples of 100: the root and its last leaf are full. -/
@[irreducible]
def hundreds : Pager := (runTable filePagesNum 1 ((List.range 39).map fun i => plain (100 * i))).2

theorem reaches_hundreds :
    Reaches filePagesNum (fun _ => Bytes.zero pageSize) 1
      ((List.range 39).map fun i => plain (100 * i)) hundreds := by
  unfold hundreds
  exact reaches_runTable (by decide +kernel)

/-- An insertion into the table of the example, whose root leaf has room. -/
theorem staysInside_hundreds :
    Always Pager.handler (Allowed (· < internalNodeMaxCells)) (insertRow 1 (plain 5)) hundreds := by
  refine (Reaches.staysInside le_rfl reaches_hundreds).2 1 (plain 5) fun q hq => Or.inl ?_
  have hleaf : (hundreds.page (descend hundreds.page (plain 5).key.toNat 1 rootPageNum)).isLeaf =
      true := by decide +kernel
  rw [hq.eq_descend 1 hleaf]
  decide +kernel

/-- **The next key goes outside the page** of the root: its old maximum 2300 is taken for an
index. -/
theorem not_staysInside :
    Reaches filePagesNum (fun _ => Bytes.zero pageSize) 1
      ((List.range 39).map fun i => plain (100 * i)) hundreds ∧
      (∃ s', (insertRow 1 (plain 3900)).run Pager.handler hundreds = (.error .outOfPage, s')) ∧
      ¬ Always Pager.handler (Allowed (· < internalNodeMaxCells))
        (insertRow 1 (plain 3900)) hundreds := by
  exact ⟨reaches_hundreds, run_of_fault (by decide +kernel),
    not_always (by decide +kernel) (by decide +kernel)⟩

end ToySQL
