import ToySQL.Spec.View

/-!
# An internal node above leaves

A node `g` whose children are leaves, in the order of their keys, and what the splits of
one of the leaves and of the node itself are for.
-/

namespace ToySQL

/-- The child of the node `g` in slot `i`. -/
def below (page : ℕ → Page) (g i : ℕ) : Page := page ((page g).childAt i)

/-- The children of `g` are leaves in ascending order, and the separator of each but the
last one is its largest key. All pages are counted. -/
structure LeafParent (page : ℕ → Page) (numPages g : ℕ) : Prop where
  pages : numPages ≤ filePagesNum
  lt : g < numPages
  internal : (page g).isInternal = true
  numKeys : (page g).numKeys ≤ internalNodeMaxCells
  childLt : ∀ i ≤ (page g).numKeys, (page g).childAt i < numPages
  leaf : ∀ i ≤ (page g).numKeys, (below page g i).isLeaf = true
  isRoot : ∀ i ≤ (page g).numKeys, (below page g i).isRoot = false
  parent : ∀ i ≤ (page g).numKeys, (below page g i).parent = g
  numCells : ∀ i ≤ (page g).numKeys, (below page g i).numCells ≤ leafNodeMaxCells
  sorted : ∀ i ≤ (page g).numKeys, (below page g i).keys.Pairwise (· < ·)
  sep : ∀ i < (page g).numKeys, (below page g i).keys.getLast? = some ((page g).sep i)
  ascending : ∀ i < (page g).numKeys, ∀ key ∈ (below page g (i + 1)).keys, (page g).sep i < key

instance (page : ℕ → Page) (numPages g : ℕ) : Decidable (LeafParent page numPages g) :=
  decidable_of_iff
    (numPages ≤ filePagesNum ∧ g < numPages ∧ (page g).isInternal = true ∧
      (page g).numKeys ≤ internalNodeMaxCells ∧
      (∀ i ≤ (page g).numKeys, (page g).childAt i < numPages ∧ (below page g i).isLeaf = true ∧
        (below page g i).isRoot = false ∧ (below page g i).parent = g ∧
        (below page g i).numCells ≤ leafNodeMaxCells ∧ (below page g i).keys.Pairwise (· < ·)) ∧
      ∀ i < (page g).numKeys, (below page g i).keys.getLast? = some ((page g).sep i) ∧
        ∀ key ∈ (below page g (i + 1)).keys, (page g).sep i < key)
    ⟨fun ⟨h1, h2, h3, h4, h5, h6⟩ =>
      ⟨h1, h2, h3, h4, fun i hi => (h5 i hi).1, fun i hi => (h5 i hi).2.1,
        fun i hi => (h5 i hi).2.2.1,
        fun i hi => (h5 i hi).2.2.2.1, fun i hi => (h5 i hi).2.2.2.2.1, fun i hi =>
        (h5 i hi).2.2.2.2.2,
        fun i hi => (h6 i hi).1, fun i hi => (h6 i hi).2⟩,
    fun h => ⟨h.pages, h.lt, h.internal, h.numKeys,
      fun i hi => ⟨h.childLt i hi, h.leaf i hi, h.isRoot i hi, h.parent i hi, h.numCells i hi,
        h.sorted i hi⟩,
      fun i hi => ⟨h.sep i hi, h.ascending i hi⟩⟩⟩

/-- The leaf `p` below `g` was split when `key` was inserted: `new` follows it and has the
upper half of its keys, and the separators separate the children. -/
structure SplitsLeaf (page page' : ℕ → Page) (g p new key : ℕ) : Prop where
  children : (page' g).children = (page g).children.flatMap fun q => if q = p then [p, new] else [q]
  lower : (page' p).numCells = leafNodeLeftSplitCount
  upper : (page' new).numCells = leafNodeRightSplitCount
  keys : ((page' p).keys ++ (page' new).keys).Perm (key :: (page p).keys)
  sorted : ((page' p).keys ++ (page' new).keys).Pairwise (· < ·)
  le_sep : ∀ i < (page' g).numKeys, ∀ k ∈ (below page' g i).keys, k ≤ (page' g).sep i
  sep_lt : ∀ i < (page' g).numKeys, ∀ k ∈ (below page' g (i + 1)).keys, (page' g).sep i < k

instance (page page' : ℕ → Page) (g p new key : ℕ) :
    Decidable (SplitsLeaf page page' g p new key) :=
  decidable_of_iff
    ((page' g).children = ((page g).children.flatMap fun q => if q = p then [p, new] else [q]) ∧
      (page' p).numCells = leafNodeLeftSplitCount ∧ (page' new).numCells = leafNodeRightSplitCount ∧
      ((page' p).keys ++ (page' new).keys).Perm (key :: (page p).keys) ∧
      ((page' p).keys ++ (page' new).keys).Pairwise (· < ·) ∧
      ∀ i < (page' g).numKeys, (∀ k ∈ (below page' g i).keys, k ≤ (page' g).sep i) ∧
        ∀ k ∈ (below page' g (i + 1)).keys, (page' g).sep i < k)
    ⟨fun ⟨h1, h2, h3, h4, h5, h6⟩ => ⟨h1, h2, h3, h4, h5, fun i hi => (h6 i hi).1,
      fun i hi => (h6 i hi).2⟩,
    fun h => ⟨h.children, h.lower, h.upper, h.keys, h.sorted,
      fun i hi => ⟨h.le_sep i hi, h.sep_lt i hi⟩⟩⟩

/-- A leaf that is to become a child of `x`: its keys lie between those of two children,
or before or behind all of them. -/
structure NewLeaf (page : ℕ → Page) (numPages x child : ℕ) : Prop where
  lt : child < numPages
  leaf : (page child).isLeaf = true
  numCells : (page child).numCells ≤ leafNodeMaxCells
  sorted : (page child).keys.Pairwise (· < ·)
  ne_nil : (page child).keys ≠ []
  apart : ∀ i ≤ (page x).numKeys,
    (∀ k ∈ (page child).keys, ∀ k' ∈ (below page x i).keys, k < k') ∨
      ∀ k ∈ (page child).keys, ∀ k' ∈ (below page x i).keys, k' < k

/-- A node with room above nodes. -/
structure RoomAbove (page : ℕ → Page) (numPages g : ℕ) : Prop where
  lt : g < numPages
  internal : (page g).isInternal = true
  numKeys : (page g).numKeys < internalNodeMaxCells
  childLt : ∀ i ≤ (page g).numKeys, (page g).childAt i < numPages ∧ (page g).childAt i ≠ g
  inner : ∀ i ≤ (page g).numKeys, (below page g i).isInternal = true ∧
    1 ≤ (below page g i).numKeys ∧
    (below page g i).numKeys ≤ internalNodeMaxCells

/-- The node `x` was split into `left` and `right` when `child` was inserted, in the order
of the keys, and the separator of `left` in the node above separates the two. -/
structure SplitsNode (page page' : ℕ → Page) (x child above left right : ℕ) : Prop where
  children : ((page' left).children ++ (page' right).children).Perm (child :: (page x).children)
  keys : ∀ q ∈ child :: (page x).children, (page' q).keys = (page q).keys
  ascending : ((page' left).children ++ (page' right).children).Pairwise fun p q =>
    ∀ k ∈ (page' p).keys, ∀ k' ∈ (page' q).keys, k < k'
  sepLeft : ∀ i < (page' left).numKeys, (below page' left i).keys.getLast? =
    some ((page' left).sep i)
  sepRight : ∀ i < (page' right).numKeys, (below page' right i).keys.getLast? =
    some ((page' right).sep i)
  above : ∃ i < (page' above).numKeys, (page' above).child i = left ∧
    (∀ q ∈ (page' left).children, ∀ k ∈ (page' q).keys, k ≤ (page' above).sep i) ∧
      ∀ q ∈ (page' right).children, ∀ k ∈ (page' q).keys, (page' above).sep i < k

end ToySQL
