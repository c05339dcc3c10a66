import ToySQL.Lib.Program

/-!
# The moments of a run

The states that the run of a program passes: one before every operation, and the last one. A process
that is killed while it runs the program leaves the state of one of these moments.

* `mem_moments_bind`: the moments of a sequence are those of its parts.
* `Only.moments`: what the operations of a program keep holds at every moment.
* `Matches.moments`: a simulation holds at every moment.
-/

namespace ToySQL

namespace Program

variable {I J : Interface} {ε α α' β σ τ : Type} {h : Handler I ε σ} {s t : σ}

def moments (h : Handler I ε σ) : Program I ε α → σ → List σ
  | ret _, s => [s]
  | fail _, s => [s]
  | step o k, s =>
    s :: match h o s with
      | (.ok r, s') => moments h (k r) s'
      | (.error _, s') => [s']

@[simp] theorem moments_ret (a : α) : moments h (ret a : Program I ε α) s = [s] := rfl
@[simp] theorem moments_fail (e : ε) : moments h (fail e : Program I ε α) s = [s] := rfl

/-- The last moment. -/
theorem run_mem_moments (p : Program I ε α) : ∀ s, (p.run h s).2 ∈ moments h p s := by
  induction p with
  | ret a => exact fun s => List.mem_singleton_self s
  | fail e => exact fun s => List.mem_singleton_self s
  | step o k ih =>
    intro s
    simp only [run, moments]
    rcases h o s with ⟨_ | r, s'⟩
    · exact List.mem_cons_of_mem s (List.mem_singleton_self s')
    · exact List.mem_cons_of_mem s (ih r s')

/-- A moment of two programs is one of the first, or of the second from where the first ended. -/
theorem mem_moments_bind {p : Program I ε α} {f : α → Program I ε β} :
    ∀ {s}, t ∈ moments h (p >>= f) s →
    t ∈ moments h p s ∨ ∃ a s', p.run h s = (.ok a, s') ∧ t ∈ moments h (f a) s' := by
  induction p with
  | ret a => exact fun {s} ht => Or.inr ⟨a, s, rfl, ht⟩
  | fail e => exact fun ht => Or.inl ht
  | step o k ih =>
    intro s
    rw [bind_step]
    simp only [moments, run, List.mem_cons]
    rcases h o s with ⟨_ | r, s'⟩
    · rintro (rfl | ht)
      · exact Or.inl (Or.inl rfl)
      · exact Or.inl (Or.inr ht)
    · rintro (rfl | ht)
      · exact Or.inl (Or.inl rfl)
      · rcases ih r ht with ht | hnext
        · exact Or.inl (Or.inr ht)
        · exact Or.inr hnext

/-- What every operation of a program keeps holds at every moment. -/
theorem Only.moments {C : I.Op → Prop} {J : σ → Prop} (hstep : ∀ o s, C o → J s → J (h o s).2)
    {p : Program I ε α}
    (hp : Only C p) : ∀ {s}, J s → ∀ t ∈ moments h p s, J t := by
  induction p with
  | ret a =>
    intro s hs t ht
    rw [List.mem_singleton.1 ht]
    exact hs
  | fail e =>
    intro s hs t ht
    rw [List.mem_singleton.1 ht]
    exact hs
  | step o k ih =>
    intro s hs t ht
    have hs' := hstep o s hp.1 hs
    revert ht hs'
    simp only [Program.moments, List.mem_cons]
    rcases h o s with ⟨_ | r, s'⟩
    · rintro (rfl | ht) hs'
      · exact hs
      · rw [List.mem_singleton.1 ht]
        exact hs'
    · rintro (rfl | ht) hs'
      · exact hs
      · exact ih r (hp.2 r) hs' t ht

/-- **At every moment** a run is simulated. -/
theorem Matches.moments {W : Type} {R : Pairing I J W} {V : W → α → α' → Prop} {g : Handler J ε τ}
    {S : W → σ → τ → Prop}
    (hS : ∀ w s t o o', S w s t → R.ops w o o' →
      Agree (fun w' r r' => R.res w o o' r r' w') S (h o s) (g o' t))
    {w : W} {p : Program I ε α} {p' : Program J ε α'} (hp : Matches R V w p p') :
    ∀ {s t}, S w s t → ∀ s' ∈ moments h p s, ∃ w' t', S w' s' t' := by
  induction hp with
  | @ret w _ _ _ =>
    intro s t hst s' hs'
    rw [List.mem_singleton.1 hs']
    exact ⟨w, t, hst⟩
  | @fail w _ =>
    intro s t hst s' hs'
    rw [List.mem_singleton.1 hs']
    exact ⟨w, t, hst⟩
  | @step w o o' k k' ho _ ih =>
    intro s t hst s'
    have hagree := hS w s t o o' hst ho
    revert hagree
    simp only [Program.moments, List.mem_cons]
    rcases h o s with ⟨_ | r, s₁⟩ <;> rcases g o' t with ⟨_ | r', t₁⟩
    · rintro ⟨-, w', hst'⟩ (rfl | hs')
      · exact ⟨w, t, hst⟩
      · rw [List.mem_singleton.1 hs']
        exact ⟨w', t₁, hst'⟩
    · exact fun hagree => hagree.elim
    · exact fun hagree => hagree.elim
    · rintro ⟨w', hr, hst'⟩ (rfl | hs')
      · exact ⟨w, t, hst⟩
      · exact ih r r' w' hr hst' s' hs'

end Program

end ToySQL
