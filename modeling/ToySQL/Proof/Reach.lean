import ToySQL.Proof.Counted
import ToySQL.Proof.Run

/-!
# The states of a table

With a cache for all pages the pager of a table refines a flat memory whose pages form a
tree. `Grown` is this relation; `Reaches.grown` says it of every state a table gets to,
and the lemmas after it read the leaves and rows off either side.
-/

namespace ToySQL

open Program Page

/-- The pages of the file. -/
abbrev OfFile (n : ℕ) : Prop := n < filePagesNum

/-- A pager that refines a tree. -/
structure Grown (c : ℕ) (s : Pager) (m : Mem) (lvl : ℕ → ℕ) (chain : List ℕ) : Prop where
  sim : Sim c OfFile ∅ s m
  tree : Tree OfFile m lvl chain

variable {c fuel : ℕ} {uninit : Addr → Page} {ops : List Insertion} {s : Pager} {m : Mem}
    {lvl : ℕ → ℕ}
  {chain : List ℕ} {p : ℕ}

/-- **Every state of a table refines a tree**, whose keys are those that were inserted. -/
theorem Reaches.grown (hc : filePagesNum ≤ c) (h : Reaches c uninit fuel ops s) :
    ∃ m lvl chain, Grown c s m lvl chain ∧
      m.rows.map Prod.fst = ↑(ops.map fun op => op.key.toNat) := by
  obtain ⟨r, s', m', hrun, hflat, hsim⟩ :=
    (sim_init c uninit OfFile).run_large (K := fun _ => True) hc
    (f := do initializeTable; insertRows fuel ops) fun _ =>
      match_bind match_initializeTable fun _ _ _ => match_insertRows fuel ops
  rw [Pager.strict_true, h] at hrun
  obtain ⟨rfl, rfl⟩ := Prod.mk.inj hrun
  have hwp := wp_newTable (K := fun _ => True) (T := OfFile) fuel ops
    (Q := fun _ m => ∃ lvl chain, Tree OfFile m lvl chain ∧
      m.rows.map Prod.fst = ↑(ops.map fun op => op.key.toNat))
    (fun _ _ => trivial) (fun _ => id) (by decide) fun m' lvl' chain' ht hk =>
      ⟨lvl', chain', ht, hk⟩
  obtain ⟨lvl', chain', ht, hk⟩ := wp_ok hwp hflat
  exact ⟨m', lvl', chain', ⟨hsim, ht⟩, hk⟩

namespace Grown

theorem numPages (h : Grown c s m lvl chain) : s.numPages = m.numPages := h.sim.numPages

/-- The pages of the table are those of the memory it follows. -/
theorem page (h : Grown c s m lvl chain) (hp : p < s.numPages) : s.page p = m.page p := by
  refine h.sim.page p ?_
  have := h.tree.shape.used_le
  rw [h.numPages] at hp
  omega

/-- The leaves of the table are those of the memory it follows. -/
theorem leaves (h : Grown c s m lvl chain) : s.leaves = m.leaves := by
  unfold Pager.leaves Mem.leaves
  rw [h.numPages]
  refine List.filter_congr fun p hp => ?_
  rw [h.page (by rw [h.numPages]; exact List.mem_range.1 hp)]

/-- The leaves of the table are the pages of level 0. -/
theorem mem_leaves (h : Grown c s m lvl chain) : p ∈ s.leaves ↔ p < s.numPages ∧ lvl p = 0 := by
  rw [h.leaves, h.tree.leaves_perm.mem_iff, h.tree.leaves.mem, h.numPages]

/-- The rows of the table are those of the memory it follows. -/
theorem rows (h : Grown c s m lvl chain) : s.rows = m.rows := by
  unfold Pager.rows Mem.rows Mem.rowsOn
  rw [h.leaves, List.flatMap_congr fun p hp => ?_]
  rw [h.page ((h.mem_leaves.1 (by rw [h.leaves]; exact hp)).1)]

theorem isLeaf_iff (h : Grown c s m lvl chain) (hp : p < s.numPages) :
    (s.page p).isLeaf = true ↔ lvl p = 0 := by
  rw [h.page hp]
  exact h.tree.isLeaf_iff (h.numPages ▸ hp)

/-- The internal nodes are the pages above level 0. -/
theorem isInternal_iff (h : Grown c s m lvl chain) (hp : p < s.numPages) :
    (s.page p).isInternal = true ↔ lvl p ≠ 0 := by
  have hf := h.tree.shape.fits p (h.numPages ▸ hp)
  rw [h.page hp]
  refine ⟨fun hi hl => ?_, hf.internal⟩
  have := not_isLeaf_of_isInternal hi
  rw [(hf.leaf hl).1] at this
  cases this

/-- An internal node has all its parts. -/
theorem node (h : Grown c s m lvl chain) (hp : p < s.numPages) (hi : (s.page p).isInternal = true) :
    (s.page p).Node := by
  have hl := (h.isInternal_iff hp).1 hi
  rw [h.page hp]
  exact (h.tree.shape.fits p (h.numPages ▸ hp)).node hl (Set.notMem_empty p)

end Grown

/-- The pages in the cache of a table are counted. -/
theorem Reaches.counted {c fuel : ℕ} {uninit : Addr → Page} {ops : List Insertion} {s : Pager}
    (hc : filePagesNum ≤ c) (h : Reaches c uninit fuel ops s) : s.Counted := by
  obtain ⟨m, lvl, chain, hg, -⟩ := h.grown hc
  refine ⟨hg.sim.wf, fun p a ha => ?_⟩
  have hcached := hg.sim.cached p a ha
  rw [hg.tree.tight p, decide_eq_true_iff] at hcached
  rwa [hg.numPages]

/-! ## Runs that can be evaluated -/

/-- The pager over a new file, with the contents of the file written out. -/
def Pager.new (c : ℕ) : Pager :=
  ⟨⟨⟨filePagesNum * pageSize, 0⟩, filePagesNum * pageSize, false, false⟩, .init c, 0, [],
    fun _ => Bytes.zero pageSize⟩

/-- Over an empty file and cleared memory the pager starts as `new`. -/
theorem Pager.init_eq_new (c : ℕ) :
    Pager.init File.empty c (fun _ => Bytes.zero pageSize) = Pager.new c := by
  obtain ⟨f, hf, heof, hfail, -, hcontent⟩ := FStream.write_zeros (filePagesNum * pageSize)
  have hpos : f.pos = filePagesNum * pageSize ∧ f.file.size = filePagesNum * pageSize := by
    rw [← hf]
    refine ⟨Nat.zero_add _, ?_⟩
    show max 0 (0 + _) = _
    omega
  have hinit : Pager.init File.empty c (fun _ => Bytes.zero pageSize) =
      ⟨f, .init c, 0, [], fun _ => Bytes.zero pageSize⟩ := by rw [← hf]; rfl
  rw [hinit, Pager.new]
  congr 1
  obtain ⟨⟨size, content⟩, pos, eof, fail⟩ := f
  obtain ⟨rfl, rfl⟩ := hpos
  obtain rfl : content = 0 := hcontent
  obtain rfl : eof = false := heof
  obtain rfl : fail = false := hfail
  rfl

theorem run_of_isOk {f : Prog Addr Unit} {s : Pager} (h : (f.run Pager.handler s).1.isOk = true) :
    f.run Pager.handler s = (.ok (), (f.run Pager.handler s).2) := by
  revert h
  rcases f.run Pager.handler s with ⟨_ | _, s'⟩
  · intro h
    cases h
  · exact fun _ => rfl

/-- The fault a run ends in. -/
def faultOf : Except Fault Unit → Option Fault
  | .error e => some e
  | .ok _ => none

theorem run_of_fault {f : Prog Addr Unit} {h : Handler (pagerInterface Addr) Fault Pager}
    {s : Pager} {e : Fault}
    (hrun : faultOf (f.run h s).1 = some e) : ∃ s', f.run h s = (.error e, s') := by
  revert hrun
  rcases f.run h s with ⟨e' | _, s'⟩
  · intro hrun
    rw [Option.some.inj hrun]
    exact ⟨s', rfl⟩
  · intro hrun
    cases hrun

/-- Insertions into a table over a new file. -/
def runTable (c fuel : ℕ) (ops : List Insertion) : Except Fault Unit × Pager :=
  Program.run Pager.handler (do initializeTable; insertRows fuel ops) (Pager.new c)

/-- A run that completes reaches a table. -/
theorem reaches_runTable {c fuel : ℕ} {ops : List Insertion}
    (h : (runTable c fuel ops).1.isOk = true) :
    Reaches c (fun _ => Bytes.zero pageSize) fuel ops (runTable c fuel ops).2 := by
  unfold Reaches
  rw [Pager.init_eq_new]
  exact run_of_isOk h

/-- The insertion of a row with its key as `id` and no text. -/
def plain (key : ℕ) : Insertion := ⟨UInt32.ofNat key, ⟨UInt32.ofNat key, 0, Bytes.zero 255⟩⟩

/-! ## Tables with given pages -/

/-- A leaf with one key. -/
def oneKey (parent key : ℕ) : Page :=
  (((Page.initLeaf (Bytes.zero pageSize)).store .parent parent).store .numCells 1).store
    (.leafKey 0) key

/-- An internal node with the given cells. -/
def nodeOf (parent right : ℕ) (cells : List (ℕ × ℕ)) : Page :=
  cells.zipIdx.foldl (fun a e => (a.store (.internalCell e.2) e.1.1).store (.internalKey e.2) e.1.2)
    ((((Page.initInternal (Bytes.zero pageSize)).store .parent parent).store .numKeys
      cells.length).store .rightChild right)

/-- A pager over a file with the given pages, all of them in use. -/
def stored (pages : List Page) : Pager :=
  ⟨⟨⟨filePagesNum * pageSize,
    pages.zipIdx.foldl (fun n e => n + e.1.toNat <<< (8 * (e.2 * pageSize))) 0⟩, 0, false, false⟩,
    .init filePagesNum, pages.length, [], fun _ => Bytes.zero pageSize⟩

theorem stored_counted (pages : List Page) : (stored pages).Counted := by
  have hcached : (stored pages).Cached := Pager.Cached.init rfl
  refine ⟨⟨hcached, ⟨⟨rfl, rfl⟩, le_rfl⟩⟩, fun p a ha => ?_⟩
  exact absurd ((hcached.lookup p a).1 ha).1 List.not_mem_nil

/-- The pages of a file with one page that is not blank. -/
theorem stored_page (pg : Page) (p : ℕ) :
    (stored [pg]).page p = if p = 0 then pg else Bytes.zero pageSize := by
  have hpage : (stored [pg]).page p = (stored [pg]).file.file.bytes (p * pageSize) pageSize :=
    Pager.page_of_none (AList.lookup_empty p)
  have hcontent : (stored [pg]).file.file.content = pg.toNat := by
    show 0 + pg.toNat <<< (8 * (0 * pageSize)) = pg.toNat
    rw [Nat.zero_mul, Nat.mul_zero, Nat.shiftLeft_zero, Nat.zero_add]
  rw [hpage, File.bytes, hcontent]
  split
  · rename_i hp
    rw [hp, Nat.zero_mul, Nat.mul_zero, Nat.shiftRight_zero]
    exact Bytes.ofNat_toNat pg
  · rename_i hp
    have hlt : pg.toNat < 2 ^ (8 * (p * pageSize)) := by
      refine pg.toNat_lt.trans_le (Nat.pow_le_pow_right (by decide) (Nat.mul_le_mul_left 8 ?_))
      exact Nat.le_mul_of_pos_left _ (Nat.pos_of_ne_zero hp)
    rw [Nat.shiftRight_eq_div_pow, Nat.div_eq_of_lt hlt]
    rfl

end ToySQL
