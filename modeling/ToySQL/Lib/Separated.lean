import Mathlib

/-!
# Separated lists

`Separated item sep ts as`: the symbols `ts` are `item {sep item}`, and the items stand
for `as`. A reader takes a prefix off a list of symbols; `Reads` says that it takes
exactly the items.

* `readSeparated_iff`: reading items as long as separators follow takes exactly the
  separated lists that no separator follows.
-/

namespace ToySQL

variable {τ α : Type}

inductive Separated (item : List τ → α → Prop) (sep : τ → Prop) : List τ → List α → Prop
  | one {ts a} : item ts a → Separated item sep ts [a]
  | cons {ts a c rest as} : item ts a → sep c → Separated item sep rest as →
      Separated item sep (ts ++ c :: rest) (a :: as)

/-- `read` takes the prefix that is an item, if there is one. -/
def Reads (read : List τ → Option (α × List τ)) (item : List τ → α → Prop) : Prop :=
  ∀ ts a rest, read ts = some (a, rest) ↔ ∃ front, item front a ∧ ts = front ++ rest

/-- Read an item, and go on after a separator. -/
def readSeparated (read : List τ → Option (α × List τ)) (sep : τ → Prop) [DecidablePred sep] :
    ℕ → List τ → Option (List α × List τ)
  | 0, _ => none
  | n + 1, ts =>
    match read ts with
    | none => none
    | some (a, []) => some ([a], [])
    | some (a, c :: rest) =>
      if sep c then (readSeparated read sep n rest).map fun r => (a :: r.1, r.2)
      else some ([a], c :: rest)

variable {read : List τ → Option (α × List τ)} {item : List τ → α → Prop} {sep : τ → Prop}
  [DecidablePred sep]

/-- What is read is a separated list. By induction on the bound. -/
theorem readSeparated_sound (h : Reads read item) : ∀ n ts {as rest},
    readSeparated read sep n ts = some (as, rest) →
      ∃ front, Separated item sep front as ∧ ts = front ++ rest ∧ ∀ t ∈ rest.head?, ¬ sep t := by
  intro n
  induction n with
  | zero => intro ts as rest hr; cases hr
  | succ n ih =>
    intro ts as rest hr
    unfold readSeparated at hr
    rcases hread : read ts with _ | ⟨a, _ | ⟨c, after⟩⟩
    · rw [hread] at hr; cases hr
    · rw [hread] at hr
      obtain ⟨rfl, rfl⟩ := Prod.mk.inj (Option.some.inj hr)
      obtain ⟨front, hitem, rfl⟩ := (h _ _ _).1 hread
      exact ⟨front, .one hitem, rfl, by simp⟩
    · rw [hread] at hr
      obtain ⟨front, hitem, rfl⟩ := (h _ _ _).1 hread
      by_cases hc : sep c
      · simp only [if_pos hc, Option.map_eq_some_iff] at hr
        obtain ⟨⟨as', rest'⟩, hr', heq⟩ := hr
        obtain ⟨rfl, rfl⟩ := Prod.mk.inj heq
        obtain ⟨front', hsep, rfl, hend⟩ := ih after hr'
        exact ⟨front ++ c :: front', .cons hitem hc hsep, by simp, hend⟩
      · simp only [if_neg hc] at hr
        obtain ⟨rfl, rfl⟩ := Prod.mk.inj (Option.some.inj hr)
        exact ⟨front, .one hitem, rfl, by simpa using hc⟩

/-- A separated list is read, given a bound above its length. -/
theorem readSeparated_complete (h : Reads read item) {front : List τ} {as : List α}
    (hs : Separated item sep front as) : ∀ n rest, (front ++ rest).length < n →
      (∀ t ∈ rest.head?, ¬ sep t) → readSeparated read sep n (front ++ rest) = some (as, rest) := by
  induction hs with
  | @one ts a hitem =>
    intro n rest hn hend
    obtain ⟨n, rfl⟩ : ∃ k, n = k + 1 := ⟨n - 1, by omega⟩
    have hread := (h (ts ++ rest) a rest).2 ⟨ts, hitem, rfl⟩
    unfold readSeparated
    rw [hread]
    cases rest with
    | nil => rfl
    | cons c rest => simp only [if_neg (hend c rfl)]
  | @cons ts a c rest' as hitem hc _ ih =>
    intro n rest hn hend
    obtain ⟨n, rfl⟩ : ∃ k, n = k + 1 := ⟨n - 1, by omega⟩
    have hread := (h (ts ++ (c :: rest') ++ rest) a (c :: (rest' ++ rest))).2 ⟨ts, hitem, by simp⟩
    have hlen : (rest' ++ rest).length < n := by simp at hn ⊢; omega
    unfold readSeparated
    rw [hread]
    simp only [if_pos hc, ih n rest hlen hend, Option.map_some]

/-- **Reading a separated list.** -/
theorem readSeparated_iff (h : Reads read item) {n : ℕ} {ts : List τ} {as : List α} {rest : List τ}
    (hn : ts.length < n) :
    readSeparated read sep n ts = some (as, rest) ↔
      ∃ front, Separated item sep front as ∧ ts = front ++ rest ∧ ∀ t ∈ rest.head?, ¬ sep t := by
  constructor
  · exact readSeparated_sound h n ts
  · rintro ⟨front, hs, rfl, hend⟩
    exact readSeparated_complete h hs n rest hn hend

end ToySQL
