import Mathlib

/-!
# Binary search with an early exit at index 0

`search cmp rounds lo hi ans` halves `[lo, hi]` by a three-way comparison of the
sought key with the entry at an index: `.eq` returns the index, `.lt` remembers
it and goes left, `.gt` goes right. Going left from index 0 stops, since
`hi = 0 - 1` would wrap around on an unsigned index.

* `search_isSome`: `hi + 1 - lo` rounds and one more are enough.
* `searchAll_found`: on a monotone comparison the result separates the `.gt` entries
  from the rest, and is an `.eq` entry if there is one.
-/

namespace ToySQL

/-- Binary search; `none` when the rounds do not suffice. -/
def search (cmp : ℕ → Ordering) : ℕ → ℕ → ℕ → ℕ → Option ℕ
  | 0, _, _, _ => none
  | rounds + 1, lo, hi, ans =>
    if lo ≤ hi then
      let index := (lo + hi) / 2
      match cmp index with
      | .eq => some index
      | .lt => if index = 0 then some index else search cmp rounds lo (index - 1) index
      | .gt => search cmp rounds (index + 1) hi ans
    else some ans

/-- Whatever the comparison, the search ends, with `ans` or an index it visited. -/
theorem search_isSome (cmp : ℕ → Ordering) : ∀ rounds lo hi ans, hi + 1 - lo < rounds →
    ∃ r, search cmp rounds lo hi ans = some r ∧ (r = ans ∨ lo ≤ r ∧ r ≤ hi) := by
  intro rounds
  induction rounds with
  | zero => intro lo hi ans h; omega
  | succ rounds ih =>
    intro lo hi ans h
    unfold search
    by_cases hle : lo ≤ hi
    · simp only [if_pos hle]
      cases cmp ((lo + hi) / 2) with
      | eq => exact ⟨_, rfl, Or.inr ⟨by omega, by omega⟩⟩
      | lt =>
        by_cases h0 : (lo + hi) / 2 = 0
        · simp only [if_pos h0]; exact ⟨_, rfl, Or.inr ⟨by omega, by omega⟩⟩
        · simp only [if_neg h0]
          obtain ⟨r, hr, hb⟩ := ih lo ((lo + hi) / 2 - 1) ((lo + hi) / 2) (by omega)
          exact ⟨r, hr, by omega⟩
      | gt =>
        obtain ⟨r, hr, hb⟩ := ih ((lo + hi) / 2 + 1) hi ans (by omega)
        exact ⟨r, hr, by omega⟩
    · exact ⟨ans, by simp [hle], Or.inl rfl⟩

/-- Only the comparisons with the entries matter. -/
theorem search_congr {cmp cmp' : ℕ → Ordering} {n : ℕ} (h : ∀ i < n, cmp i = cmp' i) :
    ∀ rounds lo hi ans, hi < n →
    search cmp rounds lo hi ans = search cmp' rounds lo hi ans := by
  intro rounds
  induction rounds with
  | zero =>
    intro lo hi ans _
    rfl
  | succ rounds ih =>
    intro lo hi ans hhi
    unfold search
    by_cases hle : lo ≤ hi
    · simp only [if_pos hle]
      rw [h _ (show (lo + hi) / 2 < n by omega),
        ih lo ((lo + hi) / 2 - 1) ((lo + hi) / 2) (by omega),
        ih ((lo + hi) / 2 + 1) hi ans hhi]
    · simp only [if_neg hle]

/-- A comparison of one key with ascending entries: `.gt` first, `.lt` last. -/
structure Monotone3 (cmp : ℕ → Ordering) (n : ℕ) : Prop where
  gt : ∀ i j, i ≤ j → j < n → cmp j = .gt → cmp i = .gt
  lt : ∀ i j, i ≤ j → j < n → cmp i = .lt → cmp j = .lt

/-- The result of a search: no `.lt` entry below it and no `.gt` entry from it
on; if it is not an `.eq` entry there is none. -/
structure Found (cmp : ℕ → Ordering) (n r : ℕ) : Prop where
  le : r ≤ n
  below : ∀ i < r, cmp i ≠ .lt
  above : ∀ i, r ≤ i → i < n → cmp i ≠ .gt
  eq : (∃ i < n, cmp i = .eq) → r < n ∧ cmp r = .eq

/-- **Lower bound.** With the entries below `lo` all `.gt` and those from `ans`
on all `.lt`, the search finds the place of the key. -/
theorem search_found {cmp : ℕ → Ordering} {n : ℕ} (hm : Monotone3 cmp n) :
    ∀ rounds lo hi ans, hi + 1 - lo < rounds → hi < n → lo ≤ ans → ans ≤ n →
      (ans = hi + 1) → (∀ i < lo, cmp i = .gt) → (∀ i, ans ≤ i → i < n → cmp i = .lt) →
      ∃ r, search cmp rounds lo hi ans = some r ∧ Found cmp n r := by
  intro rounds
  induction rounds with
  | zero => intro lo hi ans h; omega
  | succ rounds ih =>
    intro lo hi ans h hn hlo hans hah hgt hlt
    unfold search
    by_cases hle : lo ≤ hi
    · simp only [if_pos hle]
      cases hc : cmp ((lo + hi) / 2) with
      | eq =>
        refine ⟨_, rfl, by omega, ?_, ?_, fun _ => ⟨by omega, hc⟩⟩
        · intro i hi' h'
          have := hm.lt i _ hi'.le (by omega) h'
          rw [hc] at this; cases this
        · intro i hi' hin h'
          have := hm.gt _ i hi' hin h'
          rw [hc] at this; cases this
      | lt =>
        have hup : ∀ i, (lo + hi) / 2 ≤ i → i < n → cmp i = .lt :=
          fun i h1 h2 => hm.lt _ i h1 h2 hc
        by_cases h0 : (lo + hi) / 2 = 0
        · simp only [if_pos h0]
          refine ⟨_, rfl, by omega, fun i hi' => by omega, ?_, ?_⟩
          · intro i h1 h2; rw [hup i h1 h2]; decide
          · rintro ⟨i, h1, h2⟩
            rw [hup i (by omega) h1] at h2; cases h2
        · simp only [if_neg h0]
          exact ih lo ((lo + hi) / 2 - 1) ((lo + hi) / 2) (by omega) (by omega) (by omega)
            (by omega)
            (by omega) hgt hup
      | gt =>
        refine ih ((lo + hi) / 2 + 1) hi ans (by omega) hn (by omega) hans hah ?_ hlt
        intro i hi'
        exact hm.gt i _ (by omega) (by omega) hc
    · refine ⟨ans, by simp [hle], hans, ?_, ?_, ?_⟩
      · intro i hi'; rw [hgt i (by omega)]; decide
      · intro i h1 h2; rw [hlt i h1 h2]; decide
      · rintro ⟨i, h1, h2⟩
        rcases lt_or_ge i ans with h3 | h3
        · rw [hgt i (by omega)] at h2; cases h2
        · rw [hlt i h3 h1] at h2; cases h2

/-- The whole search over `n` entries. -/
def searchAll (cmp : ℕ → Ordering) (n : ℕ) : ℕ :=
  if n = 0 then 0 else (search cmp (n + 1) 0 (n - 1) n).getD n

/-- The loop ends within `n + 1` rounds. -/
theorem searchAll_eq (cmp : ℕ → Ordering) {n : ℕ} (hn : n ≠ 0) :
    search cmp (n + 1) 0 (n - 1) n = some (searchAll cmp n) := by
  obtain ⟨r, hr, -⟩ := search_isSome cmp (n + 1) 0 (n - 1) n (by omega)
  simp [searchAll, hn, hr]

/-- The search depends on the comparisons with the elements only. -/
theorem searchAll_congr {cmp cmp' : ℕ → Ordering} {n : ℕ} (h : ∀ i < n, cmp i = cmp' i) :
    searchAll cmp n = searchAll cmp' n := by
  unfold searchAll
  split
  · rfl
  · rw [search_congr h _ _ _ _ (by omega)]

/-- The search ends at an element or past the last. -/
theorem searchAll_le (cmp : ℕ → Ordering) (n : ℕ) : searchAll cmp n ≤ n := by
  rcases Nat.eq_zero_or_pos n with rfl | hn
  · simp [searchAll]
  · obtain ⟨r, hr, hb⟩ := search_isSome cmp (n + 1) 0 (n - 1) n (by omega)
    rw [searchAll, if_neg hn.ne', hr, Option.getD_some]
    omega

/-- **The search finds the place of the key** among ascending entries. -/
theorem searchAll_found {cmp : ℕ → Ordering} {n : ℕ} (hm : Monotone3 cmp n) :
    Found cmp n (searchAll cmp n) := by
  rcases Nat.eq_zero_or_pos n with rfl | hn
  · refine ⟨by simp [searchAll], ?_, fun i _ h => absurd h (by omega), ?_⟩
    · intro i hi; simp [searchAll] at hi
    · rintro ⟨i, h, -⟩; omega
  · obtain ⟨r, hr, hf⟩ :=
      search_found hm (n + 1) 0 (n - 1) n (by omega) (by omega) (by omega) le_rfl
      (by omega) (fun i hi => by omega) (fun i h1 h2 => by omega)
    rw [searchAll, if_neg hn.ne', hr, Option.getD_some]
    exact hf

end ToySQL
