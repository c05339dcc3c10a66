import Mathlib

/-!
# Chains linked by a successor function

`Linked next stop l`: the successor of each entry of `l` is the one after it, and that of
the last one is `stop`, which marks the end.

* `Linked.insertAfter`: an entry linked in behind another one.
* `Linked.head_unique`: in a chain without repetitions, and where `stop` can only be the
  first entry, the first entry is the only one that is no successor.
-/

namespace ToySQL

variable {α : Type}

def Linked (next : α → α) (stop : α) : List α → Prop
  | [] => False
  | [p] => next p = stop
  | p :: q :: rest => next p = q ∧ Linked next stop (q :: rest)

namespace Linked

variable {next next' : α → α} {stop p q : α} {l l₁ l₂ : List α}

theorem ne_nil (h : Linked next stop l) : l ≠ [] := by rintro rfl; exact h

/-- A chain does not depend on links outside it. -/
theorem congr :
    ∀ {l : List α}, Linked next stop l → (∀ p ∈ l, next' p = next p) → Linked next' stop l
  | [], h, _ => h
  | [p], h, he => (he p (by simp)).trans h
  | p :: q :: rest, h, he =>
    ⟨(he p (by simp)).trans h.1, congr h.2 fun x hx => he x (List.mem_cons_of_mem _ hx)⟩

/-- **An entry is linked in behind another one.** -/
theorem insertAfter {new : α} : ∀ (l₁ : List α), Linked next stop (l₁ ++ p :: l₂) →
    (∀ q ∈ l₁ ++ l₂, next' q = next q) → next' p = new → next' new = next p →
    Linked next' stop (l₁ ++ p :: new :: l₂)
  | [], h, he, hp, hn => by
    refine ⟨hp, ?_⟩
    cases l₂ with
    | nil => exact hn.trans h
    | cons q rest => exact ⟨hn.trans h.1, h.2.congr he⟩
  | [a], h, he, hp, hn => by
    refine ⟨(he a (by simp)).trans h.1, ?_⟩
    exact insertAfter [] h.2 (fun q hq => he q (by simp_all)) hp hn
  | a :: b :: rest, h, he, hp, hn => by
    refine ⟨(he a (by simp)).trans h.1, ?_⟩
    exact insertAfter (b :: rest) h.2 (fun q hq => he q (List.mem_cons_of_mem _ hq)) hp hn

theorem isChain : ∀ {l : List α}, Linked next stop l → l.IsChain fun p q => next p = q
  | [], h => h.elim
  | [_], _ => .singleton _
  | _ :: _ :: _, h => .cons_cons h.1 (isChain h.2)

/-- The last element is linked to the stop. -/
theorem last : ∀ {l : List α} (h : Linked next stop l), next (l.getLast h.ne_nil) = stop
  | [], h => h.elim
  | [_], h => h
  | _ :: _ :: _, h => by rw [List.getLast_cons (List.cons_ne_nil _ _)]; exact last h.2

/-- The rest of a chain is a chain. -/
theorem of_suffix : ∀ {l l' : List α}, Linked next stop l' → l <:+ l' → l ≠ [] → Linked next stop l
  | _, [], h, _, _ => h.elim
  | l, [q], h, hs, hne => by
    rcases List.suffix_cons_iff.1 hs with rfl | hs
    · exact h
    · exact absurd (List.suffix_nil.1 hs) hne
  | l, q :: q' :: rest, h, hs, hne => by
    rcases List.suffix_cons_iff.1 hs with rfl | hs
    · exact h
    · exact of_suffix h.2 hs hne

/-- Every entry but the first is the successor of an entry. -/
theorem exists_prev :
    ∀ {l : List α} {a : α}, Linked next stop (a :: l) → ∀ q ∈ l, ∃ p ∈ a :: l, next p = q
  | [], _, _, q, hq => absurd hq (List.not_mem_nil)
  | b :: rest, a, h, q, hq => by
    rcases List.mem_cons.1 hq with rfl | hq
    · exact ⟨a, by simp, h.1⟩
    · obtain ⟨p, hp, he⟩ := exists_prev h.2 q hq
      exact ⟨p, List.mem_cons_of_mem _ hp, he⟩

/-- The successor of an entry is the end or a later entry. -/
theorem next_mem :
    ∀ {l : List α} {a : α}, Linked next stop (a :: l) → ∀ p ∈ a :: l, next p = stop ∨ next p ∈ l
  | [], a, h, p, hp => by
    rw [List.mem_singleton] at hp
    subst hp
    exact Or.inl h
  | b :: rest, a, h, p, hp => by
    rcases List.mem_cons.1 hp with rfl | hp
    · exact Or.inr (by rw [h.1]; simp)
    · exact (next_mem h.2 p hp).imp id fun hm => List.mem_cons_of_mem _ hm

/-- **The first entry is the only one that no entry leads to.** -/
theorem head_unique {a : α} (h : Linked next stop (a :: l)) (hnd : (a :: l).Nodup) (hs : stop ∉ l) :
    ∀ q ∈ a :: l, (∀ p ∈ a :: l, next p = q → q = stop) ↔ q = a := by
  intro q hq
  constructor
  · intro hno
    rcases List.mem_cons.1 hq with rfl | hql
    · rfl
    · obtain ⟨p, hp, he⟩ := h.exists_prev q hql
      exact absurd (hno p hp he ▸ hql) hs
  · rintro rfl p hp he
    rcases h.next_mem p hp with hst | hm
    · exact he.symm.trans hst
    · rw [he] at hm
      exact absurd hm (List.nodup_cons.1 hnd).1

end Linked

end ToySQL
