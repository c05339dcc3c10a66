import ToySQL.Spec.View

/-!
# A table that is a B+tree

The shape alone: the kinds and sizes of the nodes, and the pointers between them. Nothing is
said about the order of the keys, the cache or the counter.
-/

namespace ToySQL

/-- The page `p` is the root of a tree of pages below `n`. -/
inductive BTree (page : ℕ → Page) (n : ℕ) : ℕ → Prop where
  | leaf {p} : p < n → (page p).isLeaf = true → (page p).numCells ≤ leafNodeMaxCells →
    BTree page n p
  | node {p} : p < n → (page p).isInternal = true → 1 ≤ (page p).numKeys →
    (page p).numKeys ≤ internalNodeMaxCells →
      (∀ q ∈ (page p).children, (page q).parent = p) → (∀ q ∈ (page p).children, BTree page n q) →
        BTree page n p

namespace Pager

/-- `table_find` returns the cursor. -/
def Locates (s : Pager) (fuel key : ℕ) (cursor : Cursor) : Prop :=
  ∃ s', (tableFind fuel key).run handler s = (.ok cursor, s')

/-- The pages of the table are as they were, and every lookup that had a result has it still. -/
structure Unchanged (s s' : Pager) : Prop where
  page : ∀ p, s.Reachable p → s'.page p = s.page p
  located : ∀ fuel key cursor, s.Locates fuel key cursor → s'.Locates fuel key cursor

/-- Once `table_find` has looked the key up, the counter is at the end of the file. -/
def NoPageLeft (s : Pager) (fuel key : ℕ) : Prop :=
  ∀ cursor s', (tableFind fuel key).run handler s = (.ok cursor, s') → filePagesNum ≤ s'.numPages

/-- The cache takes all pages, and the pages of the table and of the cache are counted. Page 0 is
marked as the root, and no other leaf is named as the parent of a page. -/
structure OneSession (s : Pager) : Prop where
  large : filePagesNum ≤ s.cache.maxPages
  counted : ∀ p a, s.cache.pageMap.lookup p = some a → p < s.numPages
  tree : BTree s.page s.numPages rootPageNum
  isRoot : (s.page rootPageNum).isRoot = true
  parent : ∀ p, p ≠ rootPageNum → (s.page p).isLeaf = true → ∀ q < filePagesNum,
    (s.page q).parent ≠ p

end Pager

end ToySQL
