import Mathlib

/-!
# The work queue

`wqueue` of `wqueue.h`, for items `α` and any number of threads `τ`. The steps are the
sections under the mutex, one for each pass of a thread through it: `pthread_cond_wait`
ends the section of the thread, which comes back with another section after it was woken.
A signal wakes at least one waiting thread if there is one, and a thread may also wake up
without a signal.
-/

namespace ToySQL

variable {τ α : Type} [DecidableEq τ]

/-- How a section of `remove` ends. -/
inductive Removal (α : Type) where
  /-- in `pthread_cond_wait` -/
  | wait
  | item (front : α) (rest : List α)
  /-- in `front` of an empty list -/
  | undefined

/-- A section of `remove`: `while (m_queue.empty()) wait`, then `front` and `pop_front`. -/
def removeSection (mQueue : List α) : Removal α :=
  if mQueue.isEmpty then .wait
  else
    match mQueue with
    | [] => .undefined
    | front :: rest => .item front rest

structure WQueue (τ α : Type) where
  mQueue : List α := []
  /-- The threads in `pthread_cond_wait`. -/
  waiting : Finset τ := ∅
  /-- The threads that were woken and do not hold the mutex again yet. -/
  woken : Finset τ := ∅

/-- What a section does, as the callers see it. -/
inductive WEvent (τ α : Type) where
  | add (t : τ) (item : α)
  | remove (t : τ) (item : α)
  | wait (t : τ)
  | wake (ts : Finset τ)
  | size (t : τ) (size : ℕ)
  | undefined (t : τ)

namespace WQueue

/-- The threads `ts` leave the condition variable. -/
def wake (s : WQueue τ α) (ts : Finset τ) : WQueue τ α :=
  { s with waiting := s.waiting \ ts, woken := s.woken ∪ ts }

/-- The threads `ts` that a signal may wake. -/
def Signals (s : WQueue τ α) (ts : Finset τ) : Prop :=
  ts ⊆ s.waiting ∧ (s.waiting.Nonempty → ts.Nonempty)

/-- A section of some thread that does not wait, or the waking of threads without a
signal. A woken thread takes up its `remove` again. -/
inductive Step : WQueue τ α → WEvent τ α → WQueue τ α → Prop
  | add {s t item ts} : t ∉ s.waiting → t ∉ s.woken → s.Signals ts →
      Step s (.add t item) ({ s with mQueue := s.mQueue ++ [item] }.wake ts)
  | remove {s t item rest} : t ∉ s.waiting → removeSection s.mQueue = .item item rest →
      Step s (.remove t item) { s with mQueue := rest, woken := s.woken.erase t }
  | wait {s t} : t ∉ s.waiting → removeSection s.mQueue = .wait →
      Step s (.wait t) { s with waiting := insert t s.waiting, woken := s.woken.erase t }
  | undefined {s t} : t ∉ s.waiting → removeSection s.mQueue = .undefined → Step s (.undefined t) s
  | spurious {s ts} : ts ⊆ s.waiting → Step s (.wake ts) (s.wake ts)
  | size {s t} : t ∉ s.waiting → t ∉ s.woken → Step s (.size t s.mQueue.length) s

/-- An interleaving of sections, from the constructor on. -/
inductive Run : List (WEvent τ α) → WQueue τ α → Prop
  | start : Run [] {}
  | step {events s event s'} : Run events s → Step s event s' → Run (events ++ [event]) s'

end WQueue

/-- The items added, in the order of their sections. -/
def added (events : List (WEvent τ α)) : List α :=
  events.filterMap fun
    | .add _ item => some item
    | _ => none

/-- The items removed, in the order of their sections. -/
def removed (events : List (WEvent τ α)) : List α :=
  events.filterMap fun
    | .remove _ item => some item
    | _ => none

end ToySQL
