import ToySQL.Proof.Step

/-!
# Runs, insertion by insertion

* `reaches_prefixes`: an invariant of the states after every prefix of a run.
* `Sim.run_total`: a step of the invariant, from flat memory to the pager.
* `stepsOk_spec`: a condition on the steps of a run that can be evaluated.
-/

namespace ToySQL

open Program Page

variable {P : Type} {c fuel : ℕ} {uninit : Addr → Page} {ops pre : List Insertion} {op : Insertion}
    {s s' : Pager}

/-- Two lists of insertions, one after the other. -/
theorem insertRows_append (post : List Insertion) : ∀ pre : List Insertion,
    (insertRows fuel (pre ++ post) : Prog P Unit) = insertRows fuel pre >>= fun _ =>
      insertRows fuel post := by
  intro pre
  induction pre with
  | nil => rfl
  | cons op pre ih =>
    show (insertRow fuel op >>= fun _ => insertRows fuel (pre ++ post)) = _
    rw [ih]
    exact (bind_assoc _ _ _).symm

/-- The next insertion of a run. -/
theorem Reaches.snoc (h : Reaches c uninit fuel pre s)
    (hrun : (insertRow fuel op).run Pager.handler s = (.ok (), s')) :
    Reaches c uninit fuel (pre ++ [op]) s' := by
  have hone : (insertRows fuel [op] : Prog Addr Unit).run Pager.handler s = (.ok (), s') := by
    show (insertRow fuel op >>= fun _ => (pure () : Prog Addr Unit)).run Pager.handler s = _
    rw [run_bind, hrun]
    rfl
  unfold Reaches at h ⊢
  rw [insertRows_append, ← bind_assoc, run_bind, h]
  exact hone

/-- The state before the last insertion of a run. -/
theorem Reaches.exists_prev (h : Reaches c uninit fuel (pre ++ [op]) s') :
    ∃ s, Reaches c uninit fuel pre s ∧ (insertRow fuel op).run Pager.handler s = (.ok (), s') := by
  have hone : ∀ s, (insertRows fuel [op] : Prog Addr Unit).run Pager.handler s =
      (insertRow fuel op).run Pager.handler s := by
    intro s
    show (insertRow fuel op >>= fun _ => (pure () : Prog Addr Unit)).run Pager.handler s = _
    rw [run_bind]
    rcases (insertRow fuel op).run Pager.handler s with ⟨_ | _, _⟩
    · rfl
    · rfl
  unfold Reaches at h ⊢
  rw [insertRows_append, ← bind_assoc, run_bind] at h
  revert h
  rcases Program.run Pager.handler (do initializeTable; insertRows fuel pre)
    (Pager.init File.empty c uninit) with ⟨_ | _, s⟩
  · intro h
    cases h
  · intro h
    exact ⟨s, rfl, (hone s).symm.trans h⟩

/-- **An invariant of a run**: the insertions complete from one prefix to the next. -/
theorem reaches_prefixes {I : List Insertion → Pager → Prop}
    (hinit : ∃ s, Reaches c uninit fuel [] s ∧ I [] s)
    (hstep : ∀ pre op post s, ops = pre ++ op :: post → Reaches c uninit fuel pre s → I pre s →
      ∃ s', (insertRow fuel op).run Pager.handler s = (.ok (), s') ∧ I (pre ++ [op]) s') :
    ∀ pre post, ops = pre ++ post → ∃ s, Reaches c uninit fuel pre s ∧ I pre s := by
  intro pre
  induction pre using List.reverseRecOn with
  | nil => exact fun _ _ => hinit
  | append_singleton pre op ih =>
    intro post hops
    rw [List.append_assoc, List.singleton_append] at hops
    obtain ⟨s, hs, hI⟩ := ih (op :: post) hops
    obtain ⟨s', hrun, hI'⟩ := hstep pre op post s hops hs hI
    exact ⟨s', hs.snoc hrun, hI'⟩

/-- What completes in flat memory completes on the pager. -/
theorem Sim.run_total {α : Type} {m : Mem} {f : Prog Addr α} {g : Prog ℕ α} {Q : α → Mem → Prop}
    (h : Sim c OfFile ∅ s m)
    (hc : filePagesNum ≤ c) (hm : ∀ w, Match Eq' w f g)
    (hwp : wp (Mem.handler (fun _ => True) OfFile) g Q (fun _ _ => False) m) :
    ∃ a s' m', f.run Pager.handler s = (.ok a, s') ∧ Q a m' ∧ Sim c OfFile ∅ s' m' := by
  obtain ⟨r, s', m', hrun, hflat, hsim⟩ := h.run_large (K := fun _ => True) hc hm
  rw [Pager.strict_true] at hrun
  obtain ⟨a, m₁, hok, hQ⟩ := wp_total hwp
  obtain ⟨rfl, rfl⟩ := Prod.mk.inj (hok.symm.trans hflat)
  exact ⟨a, s', _, hrun, hQ, hsim⟩

/-! ## Conditions that can be evaluated -/

/-- The steps of a run meet the condition `ok`. -/
def stepsOk (fuel : ℕ) (ok : Pager → Insertion → Bool) : List Insertion → Pager → Bool
  | [], _ => true
  | op :: ops, s =>
    ok s op && match (insertRow fuel op).run Pager.handler s with
      | (.ok (), s') => stepsOk fuel ok ops s'
      | (.error _, _) => true

/-- The condition checked along a run holds before each of its steps. -/
theorem stepsOk_insertRows {ok : Pager → Insertion → Bool} :
    ∀ {ops : List Insertion} {s : Pager}, stepsOk fuel ok ops s = true →
    ∀ pre op post s', ops = pre ++ op :: post → (insertRows fuel pre).run Pager.handler s =
      (.ok (), s') → ok s' op = true := by
  intro ops
  induction ops with
  | nil =>
    intro s _ pre op post s' hops
    simp at hops
  | cons first ops ih =>
    intro s h pre op post s' hops hrun
    rw [stepsOk, Bool.and_eq_true] at h
    cases pre with
    | nil =>
      obtain ⟨rfl, rfl⟩ := List.cons.inj hops
      obtain ⟨-, rfl⟩ := Prod.mk.inj hrun
      exact h.1
    | cons _ pre =>
      obtain ⟨rfl, hrest⟩ := List.cons.inj hops
      change (insertRow fuel first >>= fun _ => insertRows fuel pre).run Pager.handler s = _ at hrun
      rw [run_bind] at hrun
      obtain ⟨-, h⟩ := h
      revert h hrun
      rcases (insertRow fuel first).run Pager.handler s with ⟨_ | _, s₁⟩
      · intro hrun
        cases hrun
      · exact fun hrun h => ih h pre op post s' hrest hrun

/-- **A run over a new file** whose steps can be evaluated. -/
theorem stepsOk_spec {ok : Pager → Insertion → Bool}
    (h : stepsOk fuel ok ops (runTable c fuel []).2 = true)
    (hinit : (runTable c fuel []).1.isOk = true) :
    ∀ pre op post s, ops = pre ++ op :: post → Reaches c (fun _ => Bytes.zero pageSize) fuel pre s →
      ok s op = true := by
  intro pre op post s hops hs
  have hstart : Reaches c (fun _ => Bytes.zero pageSize) fuel [] (runTable c fuel []).2 :=
    reaches_runTable hinit
  refine stepsOk_insertRows h pre op post s hops ?_
  unfold Reaches at hs hstart
  rw [← List.nil_append pre, insertRows_append, ← bind_assoc, run_bind, hstart] at hs
  exact hs

end ToySQL
