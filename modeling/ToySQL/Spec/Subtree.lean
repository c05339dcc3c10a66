import ToySQL.Spec.View

/-!
# Subtrees and their largest keys

What `Table::get_node_max_key` is for: the largest key of the leaves below a node. And what
`Table::internal_node_insert` does with it: the children of a node are in the order of these
keys.
-/

namespace ToySQL

/-- `Table::get_node_max_key` of the node on page `q` is `k`, if the recursion may go deep
enough. -/
def Pager.MaxKey (s : Pager) (q k : ℕ) : Prop :=
  ∃ bound, ∀ fuel ≥ bound, ∃ s',
    Program.run Pager.handler (do getNodeMaxKey fuel (← ToySQL.getPage q)) s = (.ok k, s')

/-- A well-formed subtree of any height, with the keys of its leaves. The keys of the children
of a node ascend, and the separator of each child but the right one is its largest key. -/
inductive Subtree (page : ℕ → Page) : ℕ → Set ℕ → Prop where
  | leaf {q} : q < filePagesNum → (page q).isLeaf = true → (page q).numCells ≤ leafNodeMaxCells →
      (page q).keys ≠ [] → (page q).keys.Pairwise (· < ·) → Subtree page q {k | k ∈ (page q).keys}
  | node {q} {keys : ℕ → Set ℕ} : q < filePagesNum → (page q).isInternal = true →
      internalNodeHeaderSize + (page q).numKeys * internalNodeCellSize ≤ pageSize →
      (∀ i ≤ (page q).numKeys, Subtree page ((page q).childAt i) (keys i)) →
      (∀ i < (page q).numKeys, IsGreatest (keys i) ((page q).sep i)) →
      (∀ i < (page q).numKeys, ∀ k ∈ keys i, ∀ k' ∈ keys (i + 1), k < k') →
      Subtree page q {k | ∃ i ≤ (page q).numKeys, k ∈ keys i}

/-- No node from `q` down to the leaf below it has a key: `q` is the leaf, or its right child
leads there. -/
inductive Keyless (page : ℕ → Page) : ℕ → Prop where
  | leaf {q} : (page q).isLeaf = true → Keyless page q
  | node {q} : (page q).isLeaf = false → (page q).numKeys = 0 → Keyless page (page q).rightChild →
    Keyless page q

/-- The pages `get_node_max_key` gets, from the one of the node on. -/
inductive MaxVisits (page : ℕ → Page) : ℕ → List ℕ → Prop where
  | last {q} : (page q).isLeaf = true ∨ (page q).numKeys ≠ 0 → MaxVisits page q [q]
  | right {q l} : (page q).isLeaf = false → (page q).numKeys = 0 →
    MaxVisits page (page q).rightChild l →
      MaxVisits page q (q :: l)

/-- An internal node whose children have the last keys `maxs`, in ascending order. Below a child
no node is the node itself. -/
structure OrderedNode (s : Pager) (p : ℕ) (maxs : List ℕ) : Prop where
  lt : p < filePagesNum
  internal : (s.page p).isInternal = true
  right : (s.page p).rightChild ≠ invalidPageNum
  length : maxs.length = (s.page p).numKeys + 1
  maxKey : ∀ i k, maxs[i]? = some k → s.MaxKey ((s.page p).childAt i) k
  sep : ∀ i < (s.page p).numKeys, maxs[i]? = some ((s.page p).sep i)
  ascending : maxs.Pairwise (· < ·)
  acyclic : ∀ i < (s.page p).numKeys, ∀ l, MaxVisits s.page ((s.page p).childAt i) l → p ∉ l

/-- The child `c`, with the last key `m`, was put in its place among the children of `p`, and
nothing else has changed. -/
structure InsertsChild (s s' : Pager) (p c m : ℕ) (maxs : List ℕ) : Prop where
  numKeys : (s'.page p).numKeys = (s.page p).numKeys + 1
  children : (s'.page p).children = (s.page p).children.insertIdx (maxs.countP (· < m)) c
  rightChild : (s'.page p).rightChild = c ↔ ∃ k, s.MaxKey (s.page p).rightChild k ∧ k < m
  ordered : OrderedNode s' p (maxs.insertIdx (maxs.countP (· < m)) m)
  type : (s'.page p).type = (s.page p).type
  isRoot : (s'.page p).isRoot = (s.page p).isRoot
  parent : (s'.page p).parent = (s.page p).parent
  others : ∀ q < filePagesNum, q ≠ p → s'.page q = s.page q

end ToySQL
