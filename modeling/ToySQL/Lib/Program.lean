import Mathlib

/-!
# Programs over an interface

A `Program I ε α` is a computation that asks an environment to perform the
operations of the interface `I` and ends with a value of `α` or a fault of `ε`.
A `Handler` gives the operations a meaning on a state, `run` is the resulting
execution, and one program can be run by several handlers.

* `wp`: weakest preconditions with two exits, one for the value and one for the
  fault; `wp_bind` is the composition rule and `wp_mono` the consequence rule.
* `run_invariant`: what every operation keeps, every program keeps; `run_map`: a
  program runs alike on states and on what a map of states makes of them.
* `Always`: every operation a run performs meets a condition; `always_of_guard`
  gets it from a run of the handler that refuses the other operations, and
  `always_bind` is the composition rule.
* `Only`: every operation a program may perform meets a condition; `Only.wp`: what these
  operations keep, the program keeps.
* `Extends`: a program that goes on where another one faults; `Extends.run`: it does the same
  where the other one does not.
* `Matches`: two programs, over two interfaces, that perform related operations
  in the same order; `Matches.run` turns a simulation of single operations into
  a simulation of whole runs, up to a point where the second run is lost.
-/

namespace ToySQL

/-- Operations and the type of their results. -/
structure Interface where
  Op : Type
  Res : Op → Type

/-- A computation over the operations of `I`. -/
inductive Program (I : Interface) (ε α : Type) where
  | ret (a : α)
  | fail (e : ε)
  | step (o : I.Op) (k : I.Res o → Program I ε α)

/-- A meaning of the operations on states `σ`. -/
abbrev Handler (I : Interface) (ε σ : Type) : Type := (o : I.Op) → σ → Except ε (I.Res o) × σ

namespace Program

variable {I J : Interface} {ε α β σ τ : Type}

def bind : Program I ε α → (α → Program I ε β) → Program I ε β
  | ret a, f => f a
  | fail e, _ => fail e
  | step o k, f => step o fun r => bind (k r) f

instance : Monad (Program I ε) where
  pure := ret
  bind := bind

/-- A single operation. -/
def perform (o : I.Op) : Program I ε (I.Res o) := step o ret

/-- The execution of a program. A fault keeps the state it was raised in. -/
def run (h : Handler I ε σ) : Program I ε α → σ → Except ε α × σ
  | ret a, s => (.ok a, s)
  | fail e, s => (.error e, s)
  | step o k, s =>
    match h o s with
    | (.ok r, s') => run h (k r) s'
    | (.error e, s') => (.error e, s')

@[simp] theorem pure_eq (a : α) : (pure a : Program I ε α) = ret a := rfl
@[simp] theorem bind_ret (a : α) (f : α → Program I ε β) : (ret a >>= f) = f a := rfl
@[simp] theorem bind_fail (e : ε) (f : α → Program I ε β) : (fail e >>= f) = fail e := rfl
theorem bind_step (o : I.Op) (k : I.Res o → Program I ε α) (f : α → Program I ε β) :
    (step o k >>= f) = step o fun r => k r >>= f := rfl

theorem bind_ret_right (p : Program I ε α) : (p >>= ret) = p := by
  induction p with
  | ret a => rfl
  | fail e => rfl
  | step o k ih => rw [bind_step]; congr 1; funext r; exact ih r

theorem bind_assoc {γ : Type} (p : Program I ε α) (f : α → Program I ε β)
    (g : β → Program I ε γ) : (p >>= f) >>= g = p >>= fun a => f a >>= g := by
  induction p with
  | ret a => rfl
  | fail e => rfl
  | step o k ih => simp only [bind_step]; congr 1; funext r; exact ih r

theorem ite_bind {c : Prop} [Decidable c] (p q : Program I ε α) (f : α → Program I ε β) :
    (if c then p else q) >>= f = if c then p >>= f else q >>= f := by
  split <;> rfl

/-- Running two programs, one after the other. -/
theorem run_bind (h : Handler I ε σ) (p : Program I ε α) (f : α → Program I ε β) (s : σ) :
    (p >>= f).run h s =
      match p.run h s with
      | (.ok a, s') => (f a).run h s'
      | (.error e, s') => (.error e, s') := by
  induction p generalizing s with
  | ret a => rfl
  | fail e => rfl
  | step o k ih =>
    rw [bind_step]
    simp only [run]
    rcases h o s with ⟨_ | r, s'⟩
    · rfl
    · exact ih r s'

/-! ## Weakest preconditions -/

variable {h : Handler I ε σ} {Q Q' : α → σ → Prop} {F F' : ε → σ → Prop} {s : σ}

/-- The run from `s` ends with a value and a state in `Q`, or with a fault and a
state in `F`. -/
def wp (h : Handler I ε σ) (p : Program I ε α) (Q : α → σ → Prop) (F : ε → σ → Prop) (s : σ) :
    Prop :=
  match p.run h s with
  | (.ok a, s') => Q a s'
  | (.error e, s') => F e s'

@[simp] theorem wp_ret (a : α) : wp h (ret a) Q F s ↔ Q a s := Iff.rfl
@[simp] theorem wp_fail (e : ε) : wp h (fail e) Q F s ↔ F e s := Iff.rfl

@[simp] theorem wp_bind {R : β → σ → Prop} (p : Program I ε α) (f : α → Program I ε β) :
    wp h (p >>= f) R F s ↔ wp h p (fun a s' => wp h (f a) R F s') F s := by
  unfold wp
  rw [run_bind]
  rcases p.run h s with ⟨_ | a, s'⟩ <;> exact Iff.rfl

theorem wp_ite {c : Prop} [Decidable c] {p q : Program I ε α} :
    wp h (if c then p else q) Q F s ↔ if c then wp h p Q F s else wp h q Q F s := by
  split <;> exact Iff.rfl

theorem wp_perform {o : I.Op} {R : I.Res o → σ → Prop} :
    wp h (perform o) R F s ↔
      match h o s with
      | (.ok r, s') => R r s'
      | (.error e, s') => F e s' := by
  unfold wp perform run
  rcases h o s with ⟨_ | r, s'⟩ <;> exact Iff.rfl

theorem wp_mono {p : Program I ε α} (hp : wp h p Q F s) (hQ : ∀ a s', Q a s' → Q' a s')
    (hF : ∀ e s', F e s' → F' e s') : wp h p Q' F' s := by
  unfold wp at hp ⊢
  revert hp
  rcases p.run h s with ⟨e | a, s'⟩
  · exact hF e s'
  · exact hQ a s'

/-- What holds after every run that ends holds after this one. -/
theorem wp_ok {p : Program I ε α} {a : α} {s' : σ} (hp : wp h p Q F s)
    (hr : p.run h s = (.ok a, s')) : Q a s' := by
  unfold wp at hp; rw [hr] at hp; exact hp

/-- What holds after every run that fails holds after this one. -/
theorem wp_error {p : Program I ε α} {e : ε} {s' : σ} (hp : wp h p Q F s)
    (hr : p.run h s = (.error e, s')) : F e s' := by
  unfold wp at hp; rw [hr] at hp; exact hp

/-- A condition on the last state alone. -/
theorem wp_state {C : σ → Prop} {p : Program I ε α} :
    wp h p (fun _ => C) (fun _ => C) s ↔ C (p.run h s).2 := by
  unfold wp
  rcases p.run h s with ⟨_ | a, s'⟩ <;> exact Iff.rfl

/-- A run that cannot fault ends with a value. -/
theorem wp_total {p : Program I ε α} (hp : wp h p Q (fun _ _ => False) s) :
    ∃ a s', p.run h s = (.ok a, s') ∧ Q a s' := by
  unfold wp at hp
  rcases hr : p.run h s with ⟨_ | a, s'⟩
  · rw [hr] at hp; exact hp.elim
  · rw [hr] at hp; exact ⟨a, s', rfl, hp⟩

/-- What every operation keeps, every program keeps. -/
theorem run_invariant {C : σ → Prop} (hstep : ∀ o s, C s → C (h o s).2)
    (p : Program I ε α) : ∀ s, C s → C (p.run h s).2 := by
  induction p with
  | ret a => intro s hs; exact hs
  | fail e => intro s hs; exact hs
  | step o k ih =>
    intro s hs
    have h1 := hstep o s hs
    simp only [run]
    revert h1
    rcases h o s with ⟨_ | r, s'⟩
    · exact id
    · exact ih r s'

/-! ## Conditions on every operation of a run -/

/-- Every operation the run from `s` performs meets `C`. -/
def Always (h : Handler I ε σ) (C : I.Op → σ → Prop) : Program I ε α → σ → Prop
  | ret _, _ => True
  | fail _, _ => True
  | step o k, s =>
    C o s ∧
      match h o s with
      | (.ok r, s') => Always h C (k r) s'
      | (.error _, _) => True

/-- The handler that refuses, with the fault `e`, the operations outside `C`. -/
def guard (h : Handler I ε σ) (C : I.Op → σ → Prop) [∀ o s, Decidable (C o s)] (e : ε) :
    Handler I ε σ :=
  fun o s => if C o s then h o s else (.error e, s)

/-- Nothing changes when the operations outside `C` are refused anyway. -/
theorem guard_eq {C : I.Op → σ → Prop} [∀ o s, Decidable (C o s)] {e : ε}
    (hC : ∀ o s, ¬ C o s → h o s = (.error e, s)) : guard h C e = h := by
  funext o s
  unfold guard
  split
  · rfl
  · exact (hC o s ‹_›).symm

/-- A handler that refuses what a run does not do makes no difference to the run. -/
theorem Always.run_guard {C : I.Op → σ → Prop} [∀ o s, Decidable (C o s)] {e : ε}
    {p : Program I ε α} :
    ∀ {s}, Always h C p s → p.run (guard h C e) s = p.run h s := by
  induction p with
  | ret a =>
    intro s _
    rfl
  | fail e =>
    intro s _
    rfl
  | step o k ih =>
    intro s hs
    simp only [Always] at hs
    obtain ⟨hC, hrest⟩ := hs
    simp only [run, guard, if_pos hC]
    rcases hr : h o s with ⟨_ | r, s'⟩
    · rfl
    · rw [hr] at hrest
      exact ih r hrest

/-- A run of the guarded handler that is not refused is a run of the handler, and
all its operations are in `C`. -/
theorem always_of_guard {C : I.Op → σ → Prop} [∀ o s, Decidable (C o s)] {e : ε}
    (p : Program I ε α) : ∀ s, (∀ s', p.run (guard h C e) s ≠ (.error e, s')) →
      Always h C p s ∧ p.run h s = p.run (guard h C e) s := by
  induction p with
  | ret a => intro s _; exact ⟨trivial, rfl⟩
  | fail e => intro s _; exact ⟨trivial, rfl⟩
  | step o k ih =>
    intro s hs
    by_cases hC : C o s
    · simp only [run, guard, if_pos hC, Always] at hs ⊢
      rcases hr : h o s with ⟨_ | r, s'⟩
      · exact ⟨⟨hC, trivial⟩, rfl⟩
      · rw [hr] at hs
        exact ⟨⟨hC, (ih r s' hs).1⟩, (ih r s' hs).2⟩
    · simp only [run, guard, if_neg hC] at hs
      exact absurd rfl (hs s)

/-- All operations of two programs are allowed if those of each are. -/
theorem always_bind {C : I.Op → σ → Prop} (p : Program I ε α) {f : α → Program I ε β} :
    ∀ {s}, Always h C (p >>= f) s ↔ Always h C p s ∧ ∀ a s', p.run h s = (.ok a, s') →
      Always h C (f a) s' := by
  induction p with
  | ret a =>
    intro s
    refine ⟨fun hf => ⟨trivial, fun b s' hr => ?_⟩, fun hf => hf.2 a s rfl⟩
    cases hr
    exact hf
  | fail e =>
    intro s
    exact ⟨fun _ => ⟨trivial, fun b s' hr => nomatch hr⟩, fun _ => trivial⟩
  | step o k ih =>
    intro s
    rw [bind_step]
    simp only [Always, run]
    rcases h o s with ⟨_ | r, s₁⟩
    · exact ⟨fun hf => ⟨⟨hf.1, trivial⟩, fun b s' hr => nomatch hr⟩, fun hf => ⟨hf.1.1, trivial⟩⟩
    · exact (and_congr Iff.rfl (ih r)).trans and_assoc.symm

/-- A condition may rest on what every operation keeps. -/
theorem Always.mono {C C' : I.Op → σ → Prop} {J : σ → Prop} (hstep : ∀ o s, J s → J (h o s).2)
    (hC : ∀ o s, J s → C o s → C' o s) {p : Program I ε α} :
    ∀ {s}, J s → Always h C p s → Always h C' p s := by
  induction p with
  | ret a =>
    intro s _ _
    trivial
  | fail e =>
    intro s _ _
    trivial
  | step o k ih =>
    intro s hs halways
    have hs' := hstep o s hs
    simp only [Always] at halways ⊢
    refine ⟨hC o s hs halways.1, ?_⟩
    have hrest := halways.2
    revert hs' hrest
    rcases h o s with ⟨_ | r, s₁⟩
    · exact fun _ _ => trivial
    · exact fun hs' hrest => ih r hs' hrest

/-- A condition on what a map of states, respected by all operations, makes of them. -/
theorem Always.map {g : Handler I ε τ} (f : σ → τ)
    (hstep : ∀ o s, (h o s).1 = (g o (f s)).1 ∧ f (h o s).2 = (g o (f s)).2) {C : I.Op → τ → Prop}
    {p : Program I ε α} :
    ∀ {s}, Always h (fun o s => C o (f s)) p s → Always g C p (f s) := by
  induction p with
  | ret a =>
    intro s _
    trivial
  | fail e =>
    intro s _
    trivial
  | step o k ih =>
    intro s halways
    obtain ⟨h1, h2⟩ := hstep o s
    simp only [Always] at halways ⊢
    refine ⟨halways.1, ?_⟩
    have hrest := halways.2
    revert h1 h2 hrest
    rcases h o s with ⟨e | r, s₁⟩ <;> rcases g o (f s) with ⟨e' | r', t₁⟩
    · exact fun _ _ _ => trivial
    · exact fun h1 => nomatch h1
    · exact fun h1 => nomatch h1
    · rintro ⟨⟩ rfl hrest
      exact ih r hrest

/-! ## Conditions on every operation of a program -/

/-- Every operation the program may perform is in `C`, whatever the results are. -/
def Only (C : I.Op → Prop) : Program I ε α → Prop
  | ret _ => True
  | fail _ => True
  | step o k => C o ∧ ∀ r, Only C (k r)

theorem only_true (p : Program I ε α) : Only (fun _ => True) p := by
  induction p with
  | ret a => trivial
  | fail e => trivial
  | step o k ih => exact ⟨trivial, ih⟩

/-- Two programs of such operations, one after the other. -/
theorem Only.bind {C : I.Op → Prop} {p : Program I ε α} {f : α → Program I ε β} (hp : Only C p)
    (hf : ∀ a, Only C (f a)) : Only C (p >>= f) := by
  induction p with
  | ret a => exact hf a
  | fail e => trivial
  | step o k ih => exact ⟨hp.1, fun r => ih r (hp.2 r)⟩

theorem Only.ite {C : I.Op → Prop} {c : Prop} [Decidable c] {p q : Program I ε α} (hp : Only C p)
    (hq : Only C q) :
    Only C (if c then p else q) := by
  split
  · exact hp
  · exact hq

/-- Operations that are allowed everywhere are allowed along a run. -/
theorem Only.always {C : I.Op → Prop} {p : Program I ε α} (hp : Only C p) :
    Always h (fun o _ => C o) p s := by
  induction p generalizing s with
  | ret a => trivial
  | fail e => trivial
  | step o k ih =>
    simp only [Always]
    refine ⟨hp.1, ?_⟩
    rcases h o s with ⟨_ | r, s'⟩
    · trivial
    · exact ih r (hp.2 r)

/-- **What the operations of a program keep**, the program keeps. -/
theorem Only.wp {C : I.Op → Prop} {J : σ → Prop} (hstep : ∀ o s, C o → J s → J (h o s).2)
    {p : Program I ε α}
    (hp : Only C p) (hQ : ∀ a s', J s' → Q a s') (hF : ∀ e s', J s' → F e s') (hs : J s) :
    wp h p Q F s := by
  induction p generalizing s with
  | ret a => exact hQ a s hs
  | fail e => exact hF e s hs
  | step o k ih =>
    have h1 := hstep o s hp.1 hs
    unfold Program.wp at ih ⊢
    simp only [run]
    revert h1
    rcases h o s with ⟨e | r, s'⟩
    · exact hF e s'
    · exact ih r (hp.2 r)

/-- **Abstraction.** A map of states that the operations of a program respect is respected by
its runs. -/
theorem Only.run_map {C : I.Op → Prop} {J : σ → Prop} {h : Handler I ε σ} {g : Handler I ε τ}
    (f : σ → τ)
    (hstep : ∀ o s, C o → J s → (h o s).1 = (g o (f s)).1 ∧ f (h o s).2 = (g o (f s)).2 ∧
      J (h o s).2)
    {p : Program I ε α} (hp : Only C p) :
    ∀ s, J s → (p.run h s).1 = (p.run g (f s)).1 ∧ f (p.run h s).2 = (p.run g (f s)).2 := by
  induction p with
  | ret a => intro s _; exact ⟨rfl, rfl⟩
  | fail e => intro s _; exact ⟨rfl, rfl⟩
  | step o k ih =>
    intro s hs
    obtain ⟨h1, h2, h3⟩ := hstep o s hp.1 hs
    simp only [run]
    revert h1 h2 h3
    rcases h o s with ⟨e | r, s'⟩ <;> rcases g o (f s) with ⟨e' | r', t'⟩
    · rintro ⟨⟩ h2 -; exact ⟨rfl, h2⟩
    · rintro ⟨⟩
    · rintro ⟨⟩
    · rintro ⟨⟩ rfl h3; exact ih r (hp.2 r) s' h3

/-- A map of states that all operations respect. -/
theorem run_map {h : Handler I ε σ} {g : Handler I ε τ} {J : σ → Prop} (f : σ → τ)
    (hstep : ∀ o s, J s → (h o s).1 = (g o (f s)).1 ∧ f (h o s).2 = (g o (f s)).2 ∧ J (h o s).2)
    (p : Program I ε α) :
    ∀ s, J s → (p.run h s).1 = (p.run g (f s)).1 ∧ f (p.run h s).2 = (p.run g (f s)).2 :=
  (only_true p).run_map f fun o s _ hs => hstep o s hs

/-! ## Programs that fault less -/

/-- `q` does what `p` does, and anything where `p` faults. -/
inductive Extends : Program I ε α → Program I ε α → Prop where
  | ret {a} : Extends (ret a) (ret a)
  | fail {e q} : Extends (fail e) q
  | step {o k k'} : (∀ r, Extends (k r) (k' r)) → Extends (step o k) (step o k')

namespace Extends

theorem refl (p : Program I ε α) : Extends p p := by
  induction p with
  | ret a => exact .ret
  | fail e => exact .fail
  | step o k ih => exact .step ih

theorem bind {p q : Program I ε α} {f f' : α → Program I ε β} (hp : Extends p q)
    (hf : ∀ a, Extends (f a) (f' a)) :
    Extends (p >>= f) (q >>= f') := by
  induction hp with
  | ret => exact hf _
  | fail => exact .fail
  | step _ ih => exact .step ih

/-- The same beginning. -/
theorem bind_same (p : Program I ε α) {f f' : α → Program I ε β} (hf : ∀ a, Extends (f a) (f' a)) :
    Extends (p >>= f) (p >>= f') := (refl p).bind hf

theorem ite {c : Prop} [Decidable c] {p p' q q' : Program I ε α} (hp : Extends p p')
    (hq : Extends q q') :
    Extends (if c then p else q) (if c then p' else q') := by
  split
  · exact hp
  · exact hq

/-- **A run that does not fault** is a run of the extended program. -/
theorem run {p q : Program I ε α} (hp : Extends p q) {h : Handler I ε σ} {a : α} {s' : σ} :
    ∀ {s}, p.run h s = (.ok a, s') → q.run h s = (.ok a, s') := by
  induction hp with
  | ret => exact id
  | fail => intro s hr; cases hr
  | @step o k k' _ ih =>
    intro s
    simp only [Program.run]
    rcases h o s with ⟨e | r, s₁⟩
    · exact id
    · exact ih r

end Extends

/-! ## Programs that match -/

/-- When two operations match in a world `w`, and what then is known of their
results and of the world after them. -/
structure Pairing (I J : Interface) (W : Type) where
  ops : W → I.Op → J.Op → Prop
  res : W → (o : I.Op) → (o' : J.Op) → I.Res o → J.Res o' → W → Prop

/-- Two programs that perform matching operations in the same order, whatever
matching results they get. -/
inductive Matches {W : Type} (R : Pairing I J W) {α' : Type} (V : W → α → α' → Prop) :
    W → Program I ε α → Program J ε α' → Prop where
  | ret {w a a'} : V w a a' → Matches R V w (ret a) (ret a')
  | fail {w e} : Matches R V w (fail e) (fail e)
  | step {w o o' k k'} : R.ops w o o' →
      (∀ r r' w', R.res w o o' r r' w' → Matches R V w' (k r) (k' r')) →
      Matches R V w (step o k) (step o' k')

section Matches

variable {W : Type} {R : Pairing I J W} {α' β' : Type} {V : W → α → α' → Prop}
  {U : W → β → β' → Prop}

/-- Matching programs compose, in worlds that only grow. -/
theorem Matches.bind [Preorder W] (hle : ∀ w o o' r r' w', R.res w o o' r r' w' → w ≤ w') {w : W}
    {p : Program I ε α} {p' : Program J ε α'} {f : α → Program I ε β} {f' : α' → Program J ε β'}
    (hp : Matches R V w p p') :
    (∀ a a' w', w ≤ w' → V w' a a' → Matches R U w' (f a) (f' a')) →
      Matches R U w (p >>= f) (p' >>= f') := by
  induction hp with
  | ret hv => intro hf; exact hf _ _ _ le_rfl hv
  | fail => intro _; exact Matches.fail
  | step ho _ ih =>
    intro hf
    refine Matches.step ho fun r r' w' hr => ih r r' w' hr fun a a' w'' hw hv => ?_
    exact hf a a' w'' (le_trans (hle _ _ _ _ _ _ hr) hw) hv

/-- Matching programs compose where the values say all about the world. -/
theorem Matches.bind_values {w : W} {p : Program I ε α} {p' : Program J ε α'}
    {f : α → Program I ε β} {f' : α' → Program J ε β'}
    (hp : Matches R V w p p') (hf : ∀ a a' w', V w' a a' → Matches R U w' (f a) (f' a')) :
    Matches R U w (p >>= f) (p' >>= f') := by
  induction hp with
  | ret hv => exact hf _ _ _ hv
  | fail => exact Matches.fail
  | step ho _ ih =>
    apply Matches.step ho
    intro r r' w' hr
    exact ih r r' w' hr

/-- Two outcomes agree: equal faults or related values, in related states. -/
def Agree (V : W → α → α' → Prop) (S : W → σ → τ → Prop) :
    Except ε α × σ → Except ε α' × τ → Prop
  | (.ok a, s), (.ok a', t) => ∃ w, V w a a' ∧ S w s t
  | (.error e, s), (.error e', t) => e = e' ∧ ∃ w, S w s t
  | _, _ => False

/-- An outcome after which a simulation says nothing: `lost none` for a value, and
`lost (some e)` for the fault `e`. -/
def Lost (lost : Option ε → τ → Prop) : Except ε α' × τ → Prop
  | (.ok _, t) => lost none t
  | (.error e, t) => lost (some e) t

/-- What is lost stays lost. -/
theorem lost_run {g : Handler J ε τ} {lost : Option ε → τ → Prop}
    (hlost : ∀ o t, lost none t → Lost lost (g o t)) (hfail : ∀ e t, lost none t → lost (some e) t)
    (p : Program J ε α') : ∀ t, lost none t → Lost lost (p.run g t) := by
  induction p with
  | ret a => intro t ht; exact ht
  | fail e => intro t ht; exact hfail e t ht
  | step o k ih =>
    intro t ht
    have h1 := hlost o t ht
    simp only [Program.run]
    revert h1
    rcases g o t with ⟨_ | r, t'⟩
    · exact id
    · exact ih r t'

/-- **Simulation.** If matching operations take related states to agreeing outcomes,
matching programs do, until the second run is lost. -/
theorem Matches.run {h : Handler I ε σ} {g : Handler J ε τ} {S : W → σ → τ → Prop}
    {lost : Option ε → τ → Prop} (hlost : ∀ o t, lost none t → Lost lost (g o t))
    (hfail : ∀ e t, lost none t → lost (some e) t)
    (hS : ∀ w s t o o', S w s t → R.ops w o o' →
      Agree (fun w' r r' => R.res w o o' r r' w') S (h o s) (g o' t) ∨ Lost lost (g o' t))
    {w : W} {p : Program I ε α} {p' : Program J ε α'} (hp : Matches R V w p p') :
    ∀ s t, S w s t → Agree V S (p.run h s) (p'.run g t) ∨ Lost lost (p'.run g t) := by
  induction hp with
  | ret hv => intro s t hst; exact Or.inl ⟨_, hv, hst⟩
  | fail => intro s t hst; exact Or.inl ⟨rfl, _, hst⟩
  | @step w o o' k k' ho _ ih =>
    intro s t hst
    have h1 := hS w s t o o' hst ho
    simp only [Program.run]
    revert h1
    rcases h o s with ⟨_ | r, s'⟩ <;> rcases g o' t with ⟨_ | r', t'⟩
    · exact id
    · rintro (h1 | h1)
      · exact h1.elim
      · exact Or.inr (lost_run hlost hfail (k' r') t' h1)
    · rintro (h1 | h1)
      · exact h1.elim
      · exact Or.inr h1
    · rintro (⟨w', hr, hst'⟩ | h1)
      · exact ih r r' w' hr s' t' hst'
      · exact Or.inr (lost_run hlost hfail (k' r') t' h1)

/-- The simulation when nothing is lost. -/
theorem Matches.simulates {h : Handler I ε σ} {g : Handler J ε τ} {S : W → σ → τ → Prop}
    (hS : ∀ w s t o o', S w s t → R.ops w o o' →
      Agree (fun w' r r' => R.res w o o' r r' w') S (h o s) (g o' t))
    {w : W} {p : Program I ε α} {p' : Program J ε α'} (hp : Matches R V w p p') {s : σ} {t : τ}
    (hst : S w s t) :
    Agree V S (p.run h s) (p'.run g t) := by
  have hrun : Agree V S (p.run h s) (p'.run g t) ∨ Lost (fun _ _ => False) (p'.run g t) :=
    hp.run (fun _ _ => False.elim) (fun _ _ => False.elim)
      (fun w s t o o' hst ho => Or.inl (hS w s t o o' hst ho)) s t hst
  apply hrun.resolve_right
  rcases p'.run g t with ⟨_ | _, _⟩
  · exact id
  · exact id

/-- **Every operation** of a run that is simulated meets what the relation says of it. -/
theorem Matches.always {C : I.Op → σ → Prop} {h : Handler I ε σ} {g : Handler J ε τ}
    {S : W → σ → τ → Prop}
    (hS : ∀ w s t o o', S w s t → R.ops w o o' →
      Agree (fun w' r r' => R.res w o o' r r' w') S (h o s) (g o' t))
    (hC : ∀ w s t o o', S w s t → R.ops w o o' → C o s) {w : W} {p : Program I ε α}
    {p' : Program J ε α'}
    (hp : Matches R V w p p') : ∀ {s t}, S w s t → Always h C p s := by
  induction hp with
  | ret _ => exact fun _ => trivial
  | fail => exact fun _ => trivial
  | @step w o o' k k' ho _ ih =>
    intro s t hst
    have hagree := hS w s t o o' hst ho
    simp only [Always]
    refine ⟨hC w s t o o' hst ho, ?_⟩
    revert hagree
    rcases h o s with ⟨_ | r, s'⟩ <;> rcases g o' t with ⟨_ | r', t'⟩
    · exact fun _ => trivial
    · exact fun _ => trivial
    · exact False.elim
    · rintro ⟨w', hr, hst'⟩
      exact ih r r' w' hr hst'

end Matches

end Program

end ToySQL
