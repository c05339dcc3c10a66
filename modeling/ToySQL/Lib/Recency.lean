import Mathlib

/-!
# Lists ordered by recency

A history of requests, the last one first, orders the keys it names by their last
request. `Recency requests l` says that `l` lists keys of the history in that order, the
most recent one first, as a least-recently-used list does.

* `Recency.front`: a request moves its key to the front, and keys may drop out behind it.
* `Recency.other`: a request for a key outside the list changes nothing.
* `Recency.oldest`: the last request for the last key is the oldest.
-/

namespace ToySQL

variable {α : Type} [DecidableEq α] {requests l kept : List α} {p q : α}

structure Recency (requests l : List α) : Prop where
  requested : ∀ p ∈ l, p ∈ requests
  order : l.Pairwise fun p q => requests.idxOf p < requests.idxOf q

namespace Recency

theorem nil : Recency requests [] :=
  ⟨fun _ hp => absurd hp List.not_mem_nil, List.Pairwise.nil⟩

/-- A request for another key makes both last requests one request older. -/
theorem idxOf_cons_lt {r : α} (hr : r ≠ q) (h : requests.idxOf p < requests.idxOf q) :
    (r :: requests).idxOf p < (r :: requests).idxOf q := by
  rw [List.idxOf_cons_ne _ hr]
  by_cases hpr : r = p
  · rw [hpr, List.idxOf_cons_self]
    exact Nat.succ_pos _
  · rw [List.idxOf_cons_ne _ hpr]
    exact Nat.succ_lt_succ h

/-- A request for a key outside the list leaves the order. -/
theorem other (h : Recency requests l) (hp : p ∉ l) : Recency (p :: requests) l := by
  refine ⟨fun q hq => List.mem_cons_of_mem p (h.requested q hq), ?_⟩
  apply h.order.imp_of_mem
  intro q r _ hr hlt
  apply idxOf_cons_lt _ hlt
  rintro rfl
  exact hp hr

/-- Dropping keys leaves the order. -/
theorem sublist (h : Recency requests l) (hsub : kept.Sublist l) : Recency requests kept :=
  ⟨fun q hq => h.requested q (hsub.subset hq), h.order.sublist hsub⟩

/-- The key just requested comes first. -/
theorem front (h : Recency requests l) (hsub : kept.Sublist l) (hp : p ∉ kept) :
    Recency (p :: requests) (p :: kept) := by
  have hkept := (h.sublist hsub).other hp
  refine ⟨fun q hq => ?_, List.pairwise_cons.2 ⟨fun q hq => ?_, hkept.order⟩⟩
  · rcases List.mem_cons.1 hq with rfl | hq
    · exact List.mem_cons_self
    · exact hkept.requested q hq
  · have hne : p ≠ q := by
      rintro rfl
      exact hp hq
    rw [List.idxOf_cons_self, List.idxOf_cons_ne _ hne]
    exact Nat.succ_pos _

/-- The last of the list was requested longest ago. -/
theorem oldest (h : Recency requests (kept ++ [q])) (hp : p ∈ kept) :
    requests.idxOf p < requests.idxOf q :=
  (List.pairwise_append.1 h.order).2.2 p hp q (List.mem_singleton_self q)

end Recency

end ToySQL
