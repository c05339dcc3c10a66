import ToySQL.Spec.WQueue

/-!
# The work queue keeps its items and its waiters

* `WQueue.Run.queue`: over any interleaving, the items removed are a prefix of the items
  added, in order, and the queue holds the others; no section pops an empty list; while a
  thread waits, the queue has no more items than there are threads on their way back from
  the condition variable.
-/

namespace ToySQL

variable {τ α : Type} [DecidableEq τ] {s s' : WQueue τ α} {event : WEvent τ α}
  {events : List (WEvent τ α)} {item : α} {rest mQueue : List α}

/-- The oldest item is taken. -/
theorem removeSection_item : removeSection mQueue = .item item rest ↔ mQueue = item :: rest := by
  cases mQueue <;> simp [removeSection]

theorem removeSection_wait : removeSection mQueue = .wait ↔ mQueue = [] := by
  cases mQueue <;> simp [removeSection]

/-- No item is taken from an empty queue. -/
theorem removeSection_defined : removeSection mQueue ≠ .undefined := by
  cases mQueue <;> simp [removeSection]

namespace WQueue

/-- Of the threads that take part, each waits or was woken, and while one waits there are
enough woken ones for the items of the queue. -/
structure Awake (s : WQueue τ α) : Prop where
  disjoint : Disjoint s.waiting s.woken
  enough : s.waiting.Nonempty → s.mQueue.length ≤ s.woken.card

/-- Waking enough workers leaves none asleep beside an item. -/
theorem Awake.wake {ts : Finset τ} (h : Disjoint s.waiting s.woken) (hts : ts ⊆ s.waiting)
    (hq : s.waiting.Nonempty → s.mQueue.length ≤ s.woken.card + ts.card) : (s.wake ts).Awake := by
  have hdisj : Disjoint s.woken ts := (h.mono_left hts).symm
  constructor
  · rw [Finset.disjoint_left]
    intro t ht ht'
    obtain ⟨hw, hn⟩ := Finset.mem_sdiff.1 ht
    rcases Finset.mem_union.1 ht' with h' | h'
    · exact Finset.disjoint_left.1 h hw h'
    · exact hn h'
  · intro hne
    have hwait : s.waiting.Nonempty := hne.mono Finset.sdiff_subset
    have hcard : (s.wake ts).woken.card = s.woken.card + ts.card :=
      Finset.card_union_of_disjoint hdisj
    rw [hcard]
    exact hq hwait

/-- **A step**: the queue changes as its ends do, and no waiter is stranded. -/
theorem Step.awake (h : Step s event s') (hs : s.Awake) : s'.Awake := by
  cases h with
  | @add t item ts _ _ hsig =>
    have hdisj : Disjoint ({ s with mQueue := s.mQueue ++ [item] } : WQueue τ α).waiting
        ({ s with mQueue := s.mQueue ++ [item] } : WQueue τ α).woken := hs.disjoint
    apply Awake.wake hdisj hsig.1
    intro hne
    -- a sleeping worker is woken for the new item
    have hpos := (hsig.2 hne).card_pos
    have hle := hs.enough hne
    have hone : (s.mQueue ++ [item]).length ≤ s.woken.card + ts.card := by
      rw [List.length_append, List.length_singleton]
      omega
    exact hone
  | @remove t item rest hw hq =>
    rw [removeSection_item] at hq
    refine ⟨hs.disjoint.mono_right (Finset.erase_subset _ _), fun hne => ?_⟩
    have hle := hs.enough hne
    -- the worker that took the item was one of those awake
    have hcard := Finset.pred_card_le_card_erase (s := s.woken) (a := t)
    rw [hq, List.length_cons] at hle
    have hrest : rest.length ≤ (s.woken.erase t).card := by omega
    exact hrest
  | @wait t hw hq =>
    rw [removeSection_wait] at hq
    constructor
    · rw [Finset.disjoint_left]
      intro u hu hu'
      obtain ⟨hne, hwoken⟩ := Finset.mem_erase.1 hu'
      rcases Finset.mem_insert.1 hu with h' | h'
      · exact hne h'
      · exact Finset.disjoint_left.1 hs.disjoint h' hwoken
    · intro _
      have hnone : s.mQueue.length ≤ (s.woken.erase t).card := by simp [hq]
      exact hnone
  | undefined _ hq => exact absurd hq removeSection_defined
  | spurious hts =>
    exact Awake.wake hs.disjoint hts fun hne =>
      (hs.enough hne).trans (Nat.le_add_right _ _)
  | size _ _ => exact hs

/-- The items that go in and come out at a step. -/
theorem Step.items (h : Step s event s') :
    s.mQueue ++ added [event] = removed [event] ++ s'.mQueue := by
  cases h with
  | add _ _ _ => rfl
  | remove _ hq =>
    rw [removeSection_item] at hq
    simp [added, removed, hq]
  | wait _ _ => simp [added, removed]
  | undefined _ hq => exact absurd hq removeSection_defined
  | spurious _ => simp [added, removed, wake]
  | size _ _ => simp [added, removed]

omit [DecidableEq τ] in
theorem added_append (es es' : List (WEvent τ α)) : added (es ++ es') = added es ++ added es' :=
  List.filterMap_append

omit [DecidableEq τ] in
theorem removed_append (es es' : List (WEvent τ α)) :
    removed (es ++ es') = removed es ++ removed es' :=
  List.filterMap_append

/-- While a worker sleeps there is one awake for each item. By induction on the run. -/
theorem Run.awake (h : Run events s) : s.Awake := by
  induction h with
  | start => exact ⟨Finset.disjoint_empty_left _, fun h => absurd h Finset.not_nonempty_empty⟩
  | step _ hstep ih => exact hstep.awake ih

/-- What was added was removed or is still queued, in order. -/
theorem Run.items (h : Run events s) : added events = removed events ++ s.mQueue := by
  induction h with
  | start => rfl
  | step _ hstep ih =>
    rw [added_append, removed_append, ih, List.append_assoc, List.append_assoc, hstep.items]

/-- **The work queue** loses nothing, duplicates nothing, keeps the order and strands no
waiter, over every interleaving. -/
theorem Run.queue (h : Run events s) :
    removed events <+: added events ∧ added events = removed events ++ s.mQueue ∧
      (∀ t s', ¬ Step s (.undefined t) s') ∧
      (s.waiting.Nonempty → s.mQueue.length ≤ s.woken.card) := by
  refine ⟨⟨s.mQueue, h.items.symm⟩, h.items, fun t s' hstep => ?_, h.awake.enough⟩
  cases hstep with
  | undefined _ hq => exact removeSection_defined hq

/-- A thread that waits is woken by an `add` and takes the item. -/
theorem Run.queue_woken :
    removed [.wait 0, .add 1 7, .remove 0 7] <+: added [.wait 0, .add 1 7, WEvent.remove 0 7] ∧
      added [.wait 0, .add 1 7, .remove 0 7] =
        removed [.wait 0, .add 1 7, WEvent.remove 0 7] ++ [] ∧
      (∀ (t : ℕ) s', ¬ Step ({} : WQueue ℕ ℕ) (.undefined t) s') ∧
      (({} : WQueue ℕ ℕ).waiting.Nonempty →
        ([] : List ℕ).length ≤ ({} : WQueue ℕ ℕ).woken.card) := by
  have hwait : Step ({} : WQueue ℕ ℕ) (.wait 0) ⟨[], {0}, ∅⟩ := .wait (by decide) rfl
  have hwoken : (⟨[7], {0}, ∅⟩ : WQueue ℕ ℕ).wake {0} = ⟨[7], ∅, {0}⟩ := rfl
  have hadd : Step (⟨[], {0}, ∅⟩ : WQueue ℕ ℕ) (.add 1 7) ⟨[7], ∅, {0}⟩ :=
    hwoken ▸ .add (by decide) (by decide) ⟨by decide, fun _ => by decide⟩
  have hremove : Step (⟨[7], ∅, {0}⟩ : WQueue ℕ ℕ) (.remove 0 7) {} := .remove (by decide) rfl
  exact Run.queue (((Run.start.step hwait).step hadd).step hremove)

end WQueue

end ToySQL
