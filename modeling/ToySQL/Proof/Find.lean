import ToySQL.Proof.Insert

/-!
# Lookup, in flat memory

`descend` follows the separators from a page down to a leaf. `Forest.wp_tableFind`: that
is where `table_find` puts its cursor, if the recursion may go deep enough, and nothing
but the set of cached pages changes on the way.

In a later session of a table the cached pages are not those the counter counts:
`Mem.Visits` says which pages a lookup has asked for.
-/

namespace ToySQL

open Program

/-- The leaf a key belongs to, at most `n` levels below `p`. -/
def descend (page : ℕ → Page) (key : ℕ) : ℕ → ℕ → ℕ
  | 0, p => p
  | n + 1, p =>
    if (page p).isLeaf then p else descend page key n ((page p).childAt ((page p).findChild key))

namespace Mem

/-- Some pages below `used` asked for. -/
def Visits (used : ℕ) (m m' : Mem) : Prop := ∃ ps :
    List ℕ, (∀ p ∈ ps, p < used) ∧ m' = ps.foldl touch m

variable {m m' m'' : Mem} {used p : ℕ}

theorem Visits.touch (hp : p < used) : Visits used m (m.touch p) := ⟨[p], by simpa using hp, rfl⟩

theorem Visits.trans (h : Visits used m m') (h' : Visits used m' m'') : Visits used m m'' := by
  obtain ⟨ps, hps, rfl⟩ := h
  obtain ⟨qs, hqs, rfl⟩ := h'
  refine ⟨ps ++ qs, fun p hp => ?_, by rw [List.foldl_append]⟩
  rcases List.mem_append.1 hp with hp | hp
  · exact hps p hp
  · exact hqs p hp

theorem Visits.page (h : Visits used m m') : m'.page = m.page := by
  obtain ⟨ps, -, rfl⟩ := h
  induction ps generalizing m with
  | nil => rfl
  | cons p ps ih => rw [List.foldl_cons, ih, page_touch]

/-- A lookup among counted pages changes nothing. -/
theorem Visits.eq_of_tight (h : Visits m.numPages m m') (ht : m.Tight) : m' = m := by
  obtain ⟨ps, hps, rfl⟩ := h
  induction ps with
  | nil => rfl
  | cons p ps ih =>
    rw [List.foldl_cons, ht.touch_of_lt (hps p (List.mem_cons_self ..))]
    exact ih fun q hq => hps q (List.mem_cons_of_mem _ hq)

end Mem

namespace Forest

open Page Mem

variable {K T : ℕ → Prop} [DecidablePred K] [DecidablePred T] {m : Mem} {used : ℕ} {lvl : ℕ → ℕ}
  {pending : Multiset ℕ} {stale : Set ℕ} {p c key : ℕ} {F : Fault → Mem → Prop}
    {Q : Cursor → Mem → Prop}

section

omit [DecidablePred T]

/-- The search of a node leads to one of its children. -/
theorem childAt_mem (h : Forest T m used lvl pending stale ∅) (hp : p < used) (hl : lvl p ≠ 0)
    (i : ℕ) :
    (m.page p).childAt i ∈ (m.page p).kids := by
  have hnode := (h.fits p hp).node hl (Set.notMem_empty p)
  unfold childAt
  split
  · exact hnode.child_mem ‹_›
  · exact hnode.right_mem

/-- A path of the length of the level ends in a leaf. -/
theorem descend_leaf (h : Forest T m used lvl pending stale ∅) (key : ℕ) :
    ∀ n p, p < used → lvl p ≤ n →
    descend m.page key n p < used ∧ lvl (descend m.page key n p) = 0 := by
  intro n
  induction n with
  | zero => intro p hp hl; exact ⟨hp, Nat.le_zero.1 hl⟩
  | succ n ih =>
    intro p hp hl
    unfold descend
    by_cases hz : lvl p = 0
    · rw [if_pos ((h.fits p hp).leaf hz).1]; exact ⟨hp, hz⟩
    · have hnl := not_isLeaf_of_isInternal ((h.fits p hp).internal hz)
      rw [if_neg (by rw [hnl]; exact Bool.false_ne_true)]
      have hc := h.childAt_mem hp hz ((m.page p).findChild key)
      exact ih _ (h.kid_lt hp hc).1 (by have := h.kid_level hp hc; omega)

end

/-- Whichever slot it is, the child is read from it. -/
theorem wp_loadChild {Q : ℕ → Mem → Prop} {i : ℕ} (hnode : (m.page p).Node)
    (hi : i ≤ (m.page p).numKeys) :
    wp (handler K T) (internalNodeChild p i) (fun l s => wp (handler K T) (load p l) Q F s) F m ↔
      Q ((m.page p).childAt i) m := by
  have hle := hnode.le
  by_cases hlt : i < (m.page p).numKeys
  · rw [wp_internalNodeChild_cell hlt (by omega) (hnode.cell i hlt),
      wp_load (access_internalCell (by omega)),
      load_internalCell, childAt, if_pos hlt]
  · have heq : i = (m.page p).numKeys := le_antisymm hi (not_lt.1 hlt)
    rw [heq, wp_internalNodeChild_right hnode.right, wp_load (access_header .rightChild),
      load_rightChild,
      childAt, if_neg (lt_irrefl _)]

/-- The recursion of `internal_node_find`, from a page down to its leaf. It needs a call for each
level. -/
theorem wp_internalNodeFind (h : Forest T m used lvl pending stale ∅) (hK : ∀ i < 3, K i) :
    ∀ fuel p (m' : Mem), Visits used m m' → p < used → lvl p ≠ 0 →
      (∀ m'', lvl p ≤ fuel + 1 → Visits used m m'' →
        Q (makeCursor (descend m.page key (lvl p) p)
          ((m.page (descend m.page key (lvl p) p)).findCell key)) m'') →
      (∀ m'', fuel + 1 < lvl p → F .noReturn m'') →
      wp (handler K T) (internalNodeFind fuel p key) Q F m' := by
  -- one step: to the child, and down from there if the child is not a leaf
  have hstep : ∀ (next : ℕ → Prog ℕ Cursor) p (m' : Mem), Visits used m m' → p < used → lvl p ≠ 0 →
      (∀ m'', lvl p = 1 → Visits used m m'' →
        Q (makeCursor (descend m.page key (lvl p) p)
          ((m.page (descend m.page key (lvl p) p)).findCell key)) m'') →
      (∀ c m'', c < used → lvl c + 1 = lvl p → lvl c ≠ 0 → Visits used m m'' →
        descend m.page key (lvl p) p = descend m.page key (lvl c) c →
        wp (handler K T) (next c) Q F m'') →
      wp (handler K T) (internalNodeFindStep next p key) Q F m' := by
    intro next p m' hv hp hl hleaf hnext
    have hnode := (h.fits p hp).node hl (Set.notMem_empty p)
    have hc := h.childAt_mem hp hl ((m.page p).findChild key)
    obtain ⟨hcu, -⟩ := h.kid_lt hp hc
    have hcl := h.kid_level hp hc
    have hle := hnode.le
    have hv1 := hv.trans (Visits.touch hp)
    have hdesc : descend m.page key (lvl p) p =
        descend m.page key (lvl ((m.page p).childAt ((m.page p).findChild key)))
          ((m.page p).childAt ((m.page p).findChild key)) := by
      obtain ⟨k, hk⟩ : ∃ k, lvl p = k + 1 := ⟨lvl p - 1, by omega⟩
      rw [show lvl ((m.page p).childAt ((m.page p).findChild key)) = k by omega, hk]
      exact if_neg (by rw [hnode.not_isLeaf]; exact Bool.false_ne_true)
    rw [internalNodeFindStep_eq]
    simp only [wp_bind, wp_getPage (h.allowed p hp)]
    have hpage : (m'.touch p).page = m.page := hv1.page
    rw [wp_internalNodeFindChild (by rw [hpage]; omega) fun i hi =>
      access_internalKey (by rw [hpage] at hi; omega) (hK i (by rw [hpage] at hi; omega)), hpage]
    -- whichever slot it is, the child is read from it
    have hrest : wp (handler K T) (do
        let dataChild ← getPage ((m.page p).childAt ((m.page p).findChild key))
        childStage key next ((m.page p).childAt ((m.page p).findChild key)) dataChild) Q F
          (m'.touch p) := by
      have hv2 := hv1.trans (Visits.touch hcu)
      unfold childStage
      simp only [wp_bind, wp_getPage (h.allowed _ hcu), wp_getNodeType, hv2.page]
      by_cases hz : lvl ((m.page p).childAt ((m.page p).findChild key)) = 0
      · have hleafc := (h.fits _ hcu).leaf hz
        have htype : (m.page ((m.page p).childAt ((m.page p).findChild key))).type = .leaf := by
          have := hleafc.1
          unfold isLeaf at this
          exact of_decide_eq_true this
        rw [htype]
        simp only
        rw [wp_leafNodeFind (h.allowed _ hcu) (by rw [hv2.page]; exact hleafc.2), hv2.page]
        have hQ := hleaf _ (by omega) (hv2.trans (Visits.touch hcu))
        rw [hdesc, hz] at hQ
        exact hQ
      · have htype : (m.page ((m.page p).childAt ((m.page p).findChild key))).type = .internal := by
          have := (h.fits _ hcu).internal hz
          unfold isInternal at this
          exact of_decide_eq_true this
        rw [htype]
        exact hnext _ _ hcu hcl hz hv2 hdesc
    rw [← hpage] at hnode
    rw [← hpage, wp_loadChild hnode (findChild_le _ _), hpage]
    simp only [wp_bind] at hrest
    exact hrest
  intro fuel
  induction fuel with
  | zero =>
    intro p m' hv hp hl hQ hF
    refine hstep _ p m' hv hp hl (fun m'' hl1 hv' => hQ m'' (by omega) hv')
      fun c m'' _ hcl hz _ _ => ?_
    exact hF m'' (by omega)
  | succ fuel ih =>
    intro p m' hv hp hl hQ hF
    refine hstep _ p m' hv hp hl (fun m'' hl1 hv' => hQ m'' (by omega) hv')
      fun c m'' hc hcl hz hv' hd => ?_
    refine ih c m'' hv' hc hz (fun m3 hle hv3 => ?_) fun m3 hlt => hF m3 (by omega)
    have := hQ m3 (by omega) hv3
    rwa [hd] at this

/-- **`table_find` follows the separators.** -/
theorem wp_tableFind (fuel key : ℕ) (h : Forest T m used lvl pending stale ∅) (hK : ∀ i < 3, K i)
    (hQ : ∀ m', lvl 0 ≤ fuel + 1 → Visits used m m' →
      Q (makeCursor (descend m.page key (lvl 0) 0)
        ((m.page (descend m.page key (lvl 0) 0)).findCell key)) m')
    (hF : ∀ m', fuel + 1 < lvl 0 → F .noReturn m') :
    wp (handler K T) (tableFind fuel key) Q F m := by
  have h0 := h.used_pos
  have hv : Visits used m (m.touch 0) := Visits.touch h0
  unfold tableFind rootPageNum
  simp only [wp_bind, wp_getPage (h.allowed 0 h0), wp_getNodeType, hv.page]
  -- the root is a leaf in a table of one level
  by_cases hz : lvl 0 = 0
  · have hleaf := (h.fits 0 h0).leaf hz
    have htype : (m.page 0).type = .leaf := by
      have := hleaf.1
      unfold isLeaf at this
      exact of_decide_eq_true this
    rw [htype]
    simp only
    rw [wp_leafNodeFind (h.allowed 0 h0) (by rw [hv.page]; exact hleaf.2), hv.page]
    have := hQ _ (by omega) (hv.trans (Visits.touch h0))
    rw [hz] at this
    exact this
  · have htype : (m.page 0).type = .internal := by
      have := (h.fits 0 h0).internal hz
      unfold isInternal at this
      exact of_decide_eq_true this
    rw [htype]
    exact h.wp_internalNodeFind hK fuel 0 (m.touch 0) hv h0 hz hQ hF

end Forest

end ToySQL
