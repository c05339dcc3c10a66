import ToySQL.Lib.Program

/-!
# Programs that go deeper

A recursion that is cut off at a bound ends with the fault `e` there. With a larger bound it goes on
instead: `Deepens e p q` says that `q` does what `p` does, and anything where `p` ends with `e`.

* `Deepens.run`: a run that does not end with `e` is the same with the larger bound.
-/

namespace ToySQL

namespace Program

variable {I : Interface} {ε α β σ : Type} {e : ε}

/-- `q` does what `p` does, and anything where `p` ends with `e`. -/
inductive Deepens (e : ε) : Program I ε α → Program I ε α → Prop where
  | ret {a} : Deepens e (ret a) (ret a)
  | fail {e'} : Deepens e (fail e') (fail e')
  | cut {q} : Deepens e (fail e) q
  | step {o k k'} : (∀ r, Deepens e (k r) (k' r)) → Deepens e (step o k) (step o k')

namespace Deepens

theorem refl (p : Program I ε α) : Deepens e p p := by
  induction p with
  | ret a => exact .ret
  | fail e => exact .fail
  | step o k ih => exact .step ih

theorem bind {p q : Program I ε α} {f f' : α → Program I ε β} (hp : Deepens e p q)
    (hf : ∀ a, Deepens e (f a) (f' a)) :
    Deepens e (p >>= f) (q >>= f') := by
  induction hp with
  | ret => exact hf _
  | fail => exact .fail
  | cut => exact .cut
  | step _ ih => exact .step ih

/-- The same beginning. -/
theorem same (p : Program I ε α) {f f' : α → Program I ε β} (hf : ∀ a, Deepens e (f a) (f' a)) :
    Deepens e (p >>= f) (p >>= f') := (refl p).bind hf

/-- The same end. -/
theorem and_then {p q : Program I ε α} (hp : Deepens e p q) (f : α → Program I ε β) :
    Deepens e (p >>= f) (q >>= f) :=
  hp.bind fun a => refl (f a)

theorem ite {c : Prop} [Decidable c] {p p' q q' : Program I ε α} (hp : Deepens e p p')
    (hq : Deepens e q q') :
    Deepens e (if c then p else q) (if c then p' else q') := by
  split
  · exact hp
  · exact hq

/-- **A run that is not cut off** is the same run. -/
theorem run {p q : Program I ε α} (hp : Deepens e p q) {h : Handler I ε σ} :
    ∀ {s}, (p.run h s).1 ≠ .error e → q.run h s = p.run h s := by
  induction hp with
  | ret => exact fun _ => rfl
  | fail => exact fun _ => rfl
  | cut => exact fun hne => absurd rfl hne
  | @step o k k' _ ih =>
    intro s hne
    simp only [Program.run] at hne ⊢
    revert hne
    rcases h o s with ⟨e' | r, s'⟩
    · exact fun _ => rfl
    · exact fun hne => ih r hne

end Deepens

end Program

end ToySQL
