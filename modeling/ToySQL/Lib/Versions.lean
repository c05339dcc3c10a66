import Mathlib.Data.Nat.Find
import Mathlib.Order.Monotone.Basic

/-!
# Versions of what is written back

Values are kept under keys. They change all the time, and now and then one of them is stored: then
what is stored is what was current. `WritesBack` says so of a whole history, and the **version** of
what is stored is the latest time at which it was current.

* `WritesBack.current_version`: what is stored was current at its version.
* `WritesBack.version_mono`: versions never go back.
* `version_of_eq`: where the current value is stored, the version is the present.
-/

namespace ToySQL

variable {K V : Type}

/-- What is stored changes only to what was current a step before. -/
structure WritesBack (current stored : ℕ → K → V) : Prop where
  start : ∀ k, stored 0 k = current 0 k
  step : ∀ n k, stored (n + 1) k = stored n k ∨ stored (n + 1) k = current n k

variable [DecidableEq V] {current stored : ℕ → K → V} {n m : ℕ} {k : K}

/-- The latest time up to `n` at which the value stored at `n` was the current one. -/
def version (current stored : ℕ → K → V) (n : ℕ) (k : K) : ℕ :=
  Nat.findGreatest (fun i => current i k = stored n k) n

/-- A stored version is not newer than the current one. -/
theorem version_le : version current stored n k ≤ n := Nat.findGreatest_le n

/-- A stored value that is the current one has the current version. -/
theorem version_of_eq (h : stored n k = current n k) : version current stored n k = n :=
  Nat.findGreatest_eq h.symm

theorem le_version (hm : m ≤ n) (h : stored n k = current m k) : m ≤ version current stored n k :=
  Nat.le_findGreatest hm h.symm

namespace WritesBack

/-- **What is stored** was current once. -/
theorem current_version (h : WritesBack current stored) (n : ℕ) (k : K) :
    current (version current stored n k) k = stored n k := by
  have hex : ∃ i ≤ n, current i k = stored n k := by
    induction n with
    | zero => exact ⟨0, le_rfl, (h.start k).symm⟩
    | succ n ih =>
      rcases h.step n k with hkeep | hnow
      · obtain ⟨i, hi, heq⟩ := ih
        exact ⟨i, Nat.le_succ_of_le hi, heq.trans hkeep.symm⟩
      · exact ⟨n, Nat.le_succ n, hnow.symm⟩
  obtain ⟨i, hi, heq⟩ := hex
  exact Nat.findGreatest_spec (P := fun i => current i k = stored n k) hi heq

/-- Stored versions do not go back. -/
theorem version_le_succ (h : WritesBack current stored) (n : ℕ) (k : K) :
    version current stored n k ≤ version current stored (n + 1) k := by
  rcases h.step n k with hkeep | hnow
  · exact le_version (Nat.le_succ_of_le version_le) (hkeep.trans (h.current_version n k).symm)
  · exact version_le.trans (le_version (Nat.le_succ n) hnow)

/-- **Versions never go back.** -/
theorem version_mono (h : WritesBack current stored) (k : K) :
    Monotone fun n => version current stored n k :=
  monotone_nat_of_le_succ fun n => h.version_le_succ n k

/-- What was stored when it was current is not older later. -/
theorem le_version_of_eq (h : WritesBack current stored) (heq : stored n k = current n k)
    (hm : n ≤ m) :
    n ≤ version current stored m k :=
  calc n = version current stored n k := (version_of_eq heq).symm
    _ ≤ version current stored m k := h.version_mono k hm

/-- What is stored was current at some time, and not before a time at which it was the current
value. -/
theorem exists_version (h : WritesBack current stored) (n : ℕ) (k : K) :
    ∃ i ≤ n, stored n k = current i k ∧ ∀ m ≤ n, stored m k = current m k → m ≤ i :=
  ⟨version current stored n k, version_le, (h.current_version n k).symm,
    fun _ hm heq => h.le_version_of_eq heq hm⟩

end WritesBack

end ToySQL
