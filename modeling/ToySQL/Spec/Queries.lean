import ToySQL.Spec.Insertion

/-!
# What a table answers

A lookup of a stored key, and the insertions that keep all stored keys where the lookups
go. A scan of the table, and where it starts.
-/

namespace ToySQL

/-- The first child of `p`, the first child of that one and so on end in the leaf `q`. -/
inductive FirstLeaf (page : ℕ → Page) : ℕ → ℕ → Prop where
  | leaf {p} : (page p).isLeaf = true → FirstLeaf page p p
  | node {p q} : (page p).isLeaf = false → FirstLeaf page ((page p).childAt 0) q →
    FirstLeaf page p q

namespace Pager

/-- `table_find` returns a cell of a leaf that has the key. -/
def Finds (s : Pager) (fuel key : ℕ) : Prop :=
  ∃ cursor s', (tableFind fuel key).run handler s = (.ok cursor, s') ∧
    (s'.page cursor.pageNum).isLeaf = true ∧
    cursor.cellNum < (s'.page cursor.pageNum).numCells ∧
      (s'.page cursor.pageNum).key cursor.cellNum = key

instance (s : Pager) (fuel key : ℕ) : Decidable (s.Finds fuel key) :=
  match hrun : (tableFind fuel key).run handler s with
  | (.ok cursor, s') =>
    decidable_of_iff ((s'.page cursor.pageNum).isLeaf = true ∧
        cursor.cellNum < (s'.page cursor.pageNum).numCells ∧
        (s'.page cursor.pageNum).key cursor.cellNum = key)
      ⟨fun h => ⟨cursor, s', hrun, h⟩, fun ⟨_, _, hrun', h⟩ => by
        obtain ⟨hcursor, rfl⟩ := Prod.mk.inj (hrun.symm.trans hrun')
        obtain rfl := Except.ok.inj hcursor
        exact h⟩
  | (.error _, _) => isFalse fun ⟨_, _, hrun', _⟩ => by
    rw [hrun] at hrun'
    cases hrun'

/-- The leaf the key goes to has room, or it is the root, or it is the right child of a root that
takes another cell, in a slot that does not hold `INVALID_PAGE_NUM`. -/
def SplitsInOrder (s : Pager) (key : ℕ) : Prop :=
  ∀ q, LeadsTo s.page key rootPageNum q →
    (s.page q).numCells < leafNodeMaxCells ∨ q = rootPageNum ∨
      q = (s.page rootPageNum).rightChild ∧ (s.page rootPageNum).numKeys < internalNodeMaxCells ∧
        (s.page rootPageNum).child (s.page rootPageNum).numKeys ≠ invalidPageNum

/-- The scan comes to its end, and has seen these keys. -/
def ScansTo (s : Pager) (keys : List ℕ) : Prop :=
  ∃ n, ∀ fuel ≥ n, ∀ steps ≥ n, ∃ s', (scan fuel steps).run handler s = (.ok keys, s')

/-- The first leaf of the tree is no other one's next leaf. -/
def StartsFirst (s : Pager) : Prop := ∀ q, FirstLeaf s.page rootPageNum q →
    ∀ p ∈ s.leaves, ¬ s.Successor p q

/-- The key goes to a leaf from whose keys no key of another leaf separates it. -/
def InPlace (s : Pager) (key : ℕ) : Prop :=
  ∀ q, LeadsTo s.page key rootPageNum q → ∀ p ∈ s.leaves, p ≠ q →
    ∀ a ∈ (s.page p).keys, ∀ b ∈ (s.page q).keys, a < key ↔ a < b

end Pager

end ToySQL
