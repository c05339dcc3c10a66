import ToySQL.Spec.Session

/-!
# Flat memory

What a pager that never evicts is to the code of `btree.cpp`: one page for each page
number, the pages that have been asked for, and the allocation counter. A pointer is
the page number itself, so there is no pointer to go stale.

The handler takes the indices `K` at which a key of an internal node may be accessed
and the pages `T` that may be asked for. With every index and the pages of the file it
is the memory of the program; a run that does not fault under a smaller `K` stays inside
the cells of the nodes, and under a smaller `T` it needs no other page.

The `wp_…` rules compute the weakest precondition of one operation.
-/

namespace ToySQL

open Program

@[ext]
structure Mem where
  page : ℕ → Page
  cached : ℕ → Bool
  numPages : ℕ

namespace Mem

/-- The effect of `get_page` on the counter: the first access to the page after the
last one counts it. -/
def touch (m : Mem) (n : ℕ) : Mem :=
  if m.cached n then m
  else
    { m with
      cached := Function.update m.cached n true
      numPages := if n = m.numPages then m.numPages + 1 else m.numPages }

def set (m : Mem) (p : ℕ) (data : Page) : Mem := { m with page := Function.update m.page p data }

/-- The access through `l` ends inside the page; a key of an internal node is accessed
at an index in `K`. -/
def Access (K : ℕ → Prop) (data : Page) (l : Loc) : Prop :=
  l.offset + l.width ≤ pageSize ∧
    ∀ i, l = .internalKey i → data.load .nodeType = NodeType.internal.toByte → K i

instance (K : ℕ → Prop) [DecidablePred K] (data : Page) (l : Loc) : Decidable (Access K data l) :=
  match l with
  | .internalKey i =>
    decidable_of_iff (_ ∧ (data.load .nodeType = NodeType.internal.toByte → K i))
      (and_congr_right fun _ => ⟨fun h j hj => by cases hj; exact h, fun h => h i rfl⟩)
  | .start | .nodeType | .isRoot | .parent | .numCells | .nextLeaf | .leafCell _ | .leafKey _
  | .leafValue _ | .numKeys | .rightChild | .internalCell _ =>
    decidable_of_iff (_ ≤ pageSize) ⟨fun h => ⟨h, fun _ hj => by cases hj⟩, fun h => h.1⟩

def handler (K T : ℕ → Prop) [DecidablePred K] [DecidablePred T] :
    Handler (pagerInterface ℕ) Fault Mem
  | .getPage n, m =>
    if T n then (.ok n, m.touch n) else (.error (.outOfRange "Page number exceeding"), m)
  | .getUnusedPage, m => (.ok m.numPages, m)
  | .load p l, m =>
    if Access K (m.page p) l then (.ok ((m.page p).load l), m) else (.error .outOfPage, m)
  | .store p l v, m =>
    if Access K (m.page p) l then (.ok (), m.set p ((m.page p).store l v))
    else (.error .outOfPage, m)
  | .memcpy dst dl src sl n, m =>
    if dl.offset + n ≤ pageSize ∧ sl.offset + n ≤ pageSize then
      (.ok (), m.set dst ((m.page dst).splice dl.offset ((m.page src).slice sl.offset n)))
    else (.error .outOfPage, m)
  | .fill dst dl n buffer, m =>
    if dl.offset + n ≤ pageSize then (.ok (), m.set dst ((m.page dst).splice dl.offset buffer))
    else (.error .outOfPage, m)

/-! ## States -/

/-- The pages of a new file. -/
def empty : Mem := ⟨fun _ => Bytes.zero pageSize, fun _ => false, 0⟩

variable (m : Mem) (p q n : ℕ) (a b : Page)

@[simp] theorem page_set : (m.set p a).page = Function.update m.page p a := rfl
@[simp] theorem cached_set : (m.set p a).cached = m.cached := rfl
@[simp] theorem numPages_set : (m.set p a).numPages = m.numPages := rfl

theorem page_set_self : (m.set p a).page p = a := by simp
theorem page_set_ne {p q : ℕ} (h : q ≠ p) : (m.set p a).page q = m.page q := by simp [h]

/-- The later of two writes to a page counts. -/
@[simp] theorem set_set : (m.set p a).set p b = m.set p b := by simp [set]

/-- Writes to different pages commute. -/
theorem set_comm {p q : ℕ} (h : p ≠ q) : (m.set p a).set q b = (m.set q b).set p a := by
  simp only [set, Function.update_comm h]

/-- Writes to two pages, each of them twice. -/
theorem set_pair {p q : ℕ} (h : p ≠ q) (c d : Page) :
    (((m.set p a).set q b).set p c).set q d = (m.set p c).set q d := by
  rw [set_comm _ _ _ h.symm, set_set, set_set]

@[simp] theorem page_touch : (m.touch n).page = m.page := by
  unfold touch; split <;> rfl

@[simp] theorem set_page_self : m.set p (m.page p) = m := by simp [set]

/-- Getting a cached page does nothing. -/
theorem touch_of_cached {m : Mem} {n : ℕ} (h : m.cached n = true) : m.touch n = m := by
  simp [touch, h]

/-- In the first session of a table the cached pages are those the counter counts. -/
def Tight (m : Mem) : Prop := ∀ p, m.cached p = decide (p < m.numPages)

/-- In a tight memory the counted pages are cached. -/
theorem Tight.touch_of_lt {m : Mem} (hm : m.Tight) {n : ℕ} (h : n < m.numPages) :
    m.touch n = m := touch_of_cached (by simp [hm n, h])

/-- Whether a memory is tight does not depend on the pages. -/
theorem Tight.set {m : Mem} (hm : m.Tight) : (m.set p a).Tight := hm

/-- Taking the unused page. -/
def alloc (m : Mem) : Mem := m.touch m.numPages

@[simp] theorem page_alloc : m.alloc.page = m.page := page_touch m _

theorem alloc_set : (m.set p a).alloc = m.alloc.set p a := by
  unfold alloc touch; simp only [cached_set, numPages_set]; split <;> rfl

theorem Tight.numPages_alloc {m : Mem} (hm : m.Tight) : m.alloc.numPages = m.numPages + 1 := by
  simp [alloc, touch, hm m.numPages]

theorem Tight.alloc {m : Mem} (hm : m.Tight) : m.alloc.Tight := by
  intro p
  rw [hm.numPages_alloc]
  simp only [Mem.alloc, touch, hm m.numPages, lt_irrefl, decide_false, Bool.false_eq_true, if_false]
  by_cases h : p = m.numPages
  · simp [h]
  · simp only [Function.update_of_ne h, hm p, decide_eq_decide]; omega

theorem Tight.cached_alloc {m : Mem} (hm : m.Tight) {q : ℕ} (hq : q ≤ m.numPages) :
    m.alloc.cached q = true := by
  rw [hm.alloc q, hm.numPages_alloc]; exact decide_eq_true (by omega)

/-! ## Weakest preconditions of the operations -/

section Wp

variable {K T : ℕ → Prop} [DecidablePred K] [DecidablePred T] {m : Mem} {p n : ℕ} {l : Loc}
  {F : Fault → Mem → Prop}

theorem wp_getPage {Q : ℕ → Mem → Prop} (h : T n) :
    wp (handler K T) (getPage n) Q F m ↔ Q n (m.touch n) := by
  unfold getPage; rw [wp_perform]; simp [handler, h]

/-- `get_page` throws for a page it may not ask for. -/
theorem wp_getPage_of_not {Q : ℕ → Mem → Prop} (h : ¬ T n) :
    wp (handler K T) (getPage n) Q F m ↔ F (.outOfRange "Page number exceeding") m := by
  unfold getPage; rw [wp_perform]; simp [handler, h]

/-- The unused page is the one the counter names. -/
@[simp] theorem wp_getUnusedPage {Q : ℕ → Mem → Prop} :
    wp (handler K T) getUnusedPage Q F m ↔ Q m.numPages m := Iff.rfl

theorem wp_load {Q : ℕ → Mem → Prop} (h : Access K (m.page p) l) :
    wp (handler K T) (load p l) Q F m ↔ Q ((m.page p).load l) m := by
  unfold load; rw [wp_perform]; simp [handler, h]

theorem wp_store {Q : Unit → Mem → Prop} {v : ℕ} (h : Access K (m.page p) l) :
    wp (handler K T) (store p l v) Q F m ↔ Q () (m.set p ((m.page p).store l v)) := by
  unfold store; rw [wp_perform]; simp [handler, h]

theorem wp_store_of_not {Q : Unit → Mem → Prop} {v : ℕ} (h : ¬ Access K (m.page p) l) :
    wp (handler K T) (store p l v) Q F m ↔ F .outOfPage m := by
  unfold store; rw [wp_perform]; simp [handler, h]

theorem wp_memcpy {Q : Unit → Mem → Prop} {dst src : ℕ} {dl sl : Loc}
    (h : dl.offset + n ≤ pageSize ∧ sl.offset + n ≤ pageSize) :
    wp (handler K T) (memcpy dst dl src sl n) Q F m ↔
      Q () (m.set dst ((m.page dst).splice dl.offset ((m.page src).slice sl.offset n))) := by
  unfold memcpy; rw [wp_perform]; simp [handler, h]

theorem wp_fill {Q : Unit → Mem → Prop} {buffer : Bytes n} (h : l.offset + n ≤ pageSize) :
    wp (handler K T) (fill p l buffer) Q F m ↔
      Q () (m.set p ((m.page p).splice l.offset buffer)) := by
  unfold fill; rw [wp_perform]; simp [handler, h]

@[simp] theorem wp_fault {α : Type} {Q : α → Mem → Prop} {e : Fault} :
    wp (handler K T) (fault e) Q F m ↔ F e m := Iff.rfl

end Wp

end Mem

end ToySQL
