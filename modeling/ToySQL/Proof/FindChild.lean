import ToySQL.Lib.Search
import ToySQL.Spec.Table

/-!
# The searches among the keys of a node

`KeysAt` is all that the search needs of an internal node: what the loads of its keys answer.
Over any environment with that, `internal_node_find_child` is the binary search of `Lib/Search`,
and so is the routine that stops where an index would wrap around
(`internalNodeFindChildChecked`). `CellsAt` is the same for `leaf_node_find`.
-/

namespace ToySQL

open Program

variable {P σ : Type}

/-- The node at `p` has `n` keys, and reading them changes nothing. -/
structure KeysAt (h : Handler (pagerInterface P) Fault σ) (s : σ) (p : P) (n : ℕ) (key : ℕ → ℕ) :
    Prop where
  numKeys : h (.load p .numKeys) s = (.ok n, s)
  key : ∀ i < n, h (.load p (.internalKey i)) s = (.ok (key i), s)

/-! ## Without wrap-around -/

/-- An unsigned value, unless it wraps around. -/
def noWrap (n : ℕ) : Prog P ℕ := if n < 2 ^ 32 then return n else fault (.outOfRange "wrap-around")

/-- `n - 1`, unless it wraps around. -/
def noWrapPred (n : ℕ) : Prog P ℕ :=
  if n = 0 then fault (.outOfRange "wrap-around") else return n - 1

/-- The loop of `internal_node_find_child`, up to the first wrap-around. -/
def internalNodeFindChildLoopChecked (node : P) (key : ℕ) : ℕ → ℕ → ℕ → ℕ → Prog P ℕ
  | 0, _, _, _ => fault .noReturn
  | rounds + 1, minIndex, maxIndex, ans =>
    if minIndex ≤ maxIndex then do
      let index := (← noWrap (minIndex + maxIndex)) / 2
      let keyToRight ← load node (.internalKey index)
      if key ≤ keyToRight then
        if index = 0 then return index
        else do
          let maxIndex ← noWrapPred index
          internalNodeFindChildLoopChecked node key rounds minIndex maxIndex index
      else do
        let minIndex ← noWrap (index + 1)
        internalNodeFindChildLoopChecked node key rounds minIndex maxIndex ans
    else return ans

/-- `internal_node_find_child`, up to the first wrap-around. -/
def internalNodeFindChildChecked (node : P) (key : ℕ) : Prog P ℕ := do
  let numKeys ← load node .numKeys
  if numKeys ≠ 0 then do
    let maxIndex ← noWrapPred numKeys
    internalNodeFindChildLoopChecked node key (numKeys + 1) 0 maxIndex numKeys
  else return numKeys

/-- A check for overflow, removed. -/
theorem extends_noWrap {α : Type} {n : ℕ} {f : ℕ → Prog P α} {q : Prog P α}
    (hf : n < 2 ^ 32 → Extends (f n) q) :
    Extends (noWrap n >>= f) q := by
  unfold noWrap
  rw [ite_bind]
  split_ifs with hn
  · exact hf hn
  · exact .fail

/-- A check for a subtraction below zero, removed. -/
theorem extends_noWrapPred {α : Type} {n : ℕ} {f : ℕ → Prog P α} {q : Prog P α}
    (hf : n ≠ 0 → Extends (f (n - 1)) q) :
    Extends (noWrapPred n >>= f) q := by
  unfold noWrapPred
  rw [ite_bind]
  split_ifs with hn
  · exact .fail
  · exact hf hn

theorem u32_of_lt {n : ℕ} (h : n < 2 ^ 32) : u32 n = n := Nat.mod_eq_of_lt h

/-- The loop does what its checked form does, where that does not fault. -/
theorem extends_internalNodeFindChildLoop (node : P) (key : ℕ) : ∀ rounds lo hi ans,
    Extends (internalNodeFindChildLoopChecked node key rounds lo hi ans)
      (internalNodeFindChildLoop node key rounds lo hi ans) := by
  intro rounds
  induction rounds with
  | zero =>
    intro lo hi ans
    exact .fail
  | succ rounds ih =>
    intro lo hi ans
    unfold internalNodeFindChildLoopChecked internalNodeFindChildLoop
    refine Extends.ite (extends_noWrap fun hsum => ?_) .ret
    rw [u32_of_lt hsum]
    refine Extends.bind_same _ fun keyToRight =>
      Extends.ite (Extends.ite .ret (extends_noWrapPred fun _ => ih _ _ _))
      (extends_noWrap fun hnext => ?_)
    rw [u32_of_lt hnext]
    exact ih _ _ _

/-- The search does what its checked form does, where that does not fault. -/
theorem extends_internalNodeFindChild (node : P) (key : ℕ) :
    Extends (internalNodeFindChildChecked node key) (internalNodeFindChild node key) :=
  Extends.bind_same _ fun _ =>
    Extends.ite (extends_noWrapPred fun _ => extends_internalNodeFindChildLoop node key _ _ _ _)
      .ret

/-! ## The search -/

variable {h : Handler (pagerInterface P) Fault σ} {s : σ} {p : P} {n : ℕ} {key : ℕ → ℕ}

/-- How a key compares with the entries: `.lt` from the first one that is not smaller. -/
def cmpLe (key : ℕ → ℕ) (k i : ℕ) : Ordering := if k ≤ key i then .lt else .gt

/-- No index wraps around below `2 ^ 31`. -/
theorem run_internalNodeFindChildLoop (hkeys : KeysAt h s p n key) (hn : n < 2 ^ 31) (k : ℕ) :
    ∀ rounds lo hi ans, lo ≤ n → hi < n →
      (internalNodeFindChildLoopChecked p k rounds lo hi ans).run h s =
        match search (cmpLe key k) rounds lo hi ans with
        | some r => (.ok r, s)
        | none => (.error .noReturn, s) := by
  intro rounds
  induction rounds with
  | zero =>
    intro lo hi ans _ _
    rfl
  | succ rounds ih =>
    intro lo hi ans hlo hhi
    unfold internalNodeFindChildLoopChecked search
    by_cases hle : lo ≤ hi
    swap
    · simp only [if_neg hle]
      rfl
    -- the checks for overflow hold, as `n < 2 ^ 31`
    have hsum : lo + hi < 2 ^ 32 := by omega
    have hnext : (lo + hi) / 2 + 1 < 2 ^ 32 := by omega
    have hload : ∀ {f : ℕ → Prog P ℕ}, (load p (.internalKey ((lo + hi) / 2)) >>= f).run h s =
        (f (key ((lo + hi) / 2))).run h s := by
      intro f
      rw [run_bind, load]
      simp only [perform, run, hkeys.key ((lo + hi) / 2) (by omega)]
    simp only [if_pos hle, noWrap, if_pos hsum, pure_eq, bind_ret, hload]
    by_cases hk : k ≤ key ((lo + hi) / 2)
    · have hc : cmpLe key k ((lo + hi) / 2) = .lt := if_pos hk
      simp only [if_pos hk, hc]
      -- at 0 the loop breaks instead of taking `mid - 1`
      by_cases h0 : (lo + hi) / 2 = 0
      · simp only [if_pos h0]
        rfl
      · simp only [if_neg h0, noWrapPred, pure_eq, bind_ret]
        exact ih _ _ _ hlo (by omega)
    · have hc : cmpLe key k ((lo + hi) / 2) = .gt := if_neg hk
      simp only [if_neg hk, hc, if_pos hnext, bind_ret]
      exact ih _ _ _ (by omega) hhi

/-- **`internal_node_find_child` is a binary search**, and nothing wraps around. -/
theorem run_internalNodeFindChildChecked (hkeys : KeysAt h s p n key) (hn : n < 2 ^ 31) (k : ℕ) :
    (internalNodeFindChildChecked p k).run h s = (.ok (searchAll (cmpLe key k) n), s) := by
  have hload : ∀ {f : ℕ → Prog P ℕ}, (load p .numKeys >>= f).run h s = (f n).run h s := by
    intro f
    rw [run_bind, load]
    simp only [perform, run, hkeys.numKeys]
  unfold internalNodeFindChildChecked
  rw [hload]
  by_cases h0 : n = 0
  · rw [if_neg (not_not_intro h0), searchAll, if_pos h0, h0]
    rfl
  · have hloop := run_internalNodeFindChildLoop hkeys hn k (n + 1) 0 (n - 1) n (by omega) (by omega)
    rw [searchAll_eq _ h0] at hloop
    simp only [ne_eq, h0, not_false_eq_true, if_true, noWrapPred, if_false, pure_eq, bind_ret]
    exact hloop

/-- The search of the code is the abstract search over all cells. -/
theorem run_internalNodeFindChild (hkeys : KeysAt h s p n key) (hn : n < 2 ^ 31) (k : ℕ) :
    (internalNodeFindChild p k).run h s = (.ok (searchAll (cmpLe key k) n), s) :=
  (extends_internalNodeFindChild p k).run (run_internalNodeFindChildChecked hkeys hn k)

/-! ## The search in a leaf -/

/-- The leaf at `p` has `n` cells, and reading their keys changes nothing. -/
structure CellsAt (h : Handler (pagerInterface P) Fault σ) (s : σ) (p : P) (n : ℕ) (key : ℕ → ℕ) :
    Prop where
  numCells : h (.load p .numCells) s = (.ok n, s)
  key : ∀ i < n, h (.load p (.leafKey i)) s = (.ok (key i), s)

/-- How a key compares with the keys of a leaf. -/
def cmpEq (key : ℕ → ℕ) (k i : ℕ) : Ordering := if k = key i then .eq else if k < key i then
    .lt else .gt

/-- The loop of the code is the abstract search, and runs out of rounds where that does. -/
theorem run_leafNodeFindLoop (hcells : CellsAt h s p n key) (hn : n < 2 ^ 31) (k : ℕ) :
    ∀ rounds lo hi ans, lo ≤ n → hi < n →
      (leafNodeFindLoop p k rounds lo hi ans).run h s =
        match search (cmpEq key k) rounds lo hi ans with
        | some r => (.ok r, s)
        | none => (.error .noReturn, s) := by
  intro rounds
  induction rounds with
  | zero =>
    intro lo hi ans _ _
    rfl
  | succ rounds ih =>
    intro lo hi ans hlo hhi
    unfold leafNodeFindLoop search
    by_cases hle : lo ≤ hi
    swap
    · simp only [if_neg hle]
      rfl
    -- nothing wraps around, as `n < 2 ^ 31`
    have hsum : u32 (lo + hi) = lo + hi := u32_of_lt (by omega)
    have hnext : u32 ((lo + hi) / 2 + 1) = (lo + hi) / 2 + 1 := u32_of_lt (by omega)
    have hload : ∀ {f : ℕ → Prog P ℕ}, (load p (.leafKey ((lo + hi) / 2)) >>= f).run h s =
        (f (key ((lo + hi) / 2))).run h s := by
      intro f
      rw [run_bind, load]
      simp only [perform, run, hcells.key ((lo + hi) / 2) (by omega)]
    simp only [if_pos hle, hsum, hnext, hload]
    by_cases he : k = key ((lo + hi) / 2)
    · have hc : cmpEq key k ((lo + hi) / 2) = .eq := if_pos he
      simp only [if_pos he, hc]
      rfl
    by_cases hk : k < key ((lo + hi) / 2)
    · have hc : cmpEq key k ((lo + hi) / 2) = .lt := (if_neg he).trans (if_pos hk)
      simp only [if_neg he, if_pos hk, hc]
      -- at 0 the loop breaks instead of taking `mid - 1`
      by_cases h0 : (lo + hi) / 2 = 0
      · simp only [if_pos h0]
        rfl
      · simp only [if_neg h0]
        exact ih _ _ _ hlo (by omega)
    · have hc : cmpEq key k ((lo + hi) / 2) = .gt := (if_neg he).trans (if_neg hk)
      simp only [if_neg he, if_neg hk, hc]
      exact ih _ _ _ (by omega) hhi

/-- **`leaf_node_find` is a binary search.** -/
theorem run_leafNodeFind {s' : σ} {q : ℕ} (hget : h (.getPage q) s = (.ok p, s'))
    (hcells : CellsAt h s' p n key)
    (hn : n < 2 ^ 31) (k : ℕ) :
    (leafNodeFind q k : Prog P Cursor).run h s =
      (.ok (makeCursor q (searchAll (cmpEq key k) n)), s') := by
  unfold leafNodeFind
  rw [run_bind, getPage]
  simp only [perform, run, hget]
  rw [run_bind, load]
  simp only [perform, run, hcells.numCells]
  by_cases h0 : n = 0
  · rw [if_pos h0, searchAll, if_pos h0]
    rfl
  · have hloop := run_leafNodeFindLoop hcells hn k (n + 1) 0 (n - 1) n (by omega) (by omega)
    rw [searchAll_eq _ h0] at hloop
    rw [if_neg h0, run_bind, hloop]
    rfl

end ToySQL
