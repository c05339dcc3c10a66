import ToySQL.Spec.View

/-!
# A session with flushes

Rows are inserted into a table, and `flush_all` is called in between. An insertion that
ends in an exception leaves the pager in the state it was raised in, and the session may go
on from there.
-/

namespace ToySQL

inductive SessionStep where
  | insert (op : Insertion)
  | flushAll
deriving DecidableEq

namespace Pager

/-- A new file, with page 0 initialised. -/
def openNew (cacheSize : ℕ) (uninit : Addr → Page) : Pager :=
  (Program.run handler initializeTable (Pager.init File.empty cacheSize uninit)).2

def doStep (fuel : ℕ) (s : Pager) : SessionStep → Pager
  | .insert op => (Program.run handler (insertRow fuel op) s).2
  | .flushAll => s.flushAll

def doSteps (fuel : ℕ) (s : Pager) (steps : List SessionStep) : Pager := steps.foldl (doStep fuel) s

/-- The operation uses pointers to entries of the cache only. An entry that is evicted is deleted;
the model keeps it, and a pointer to it must not be used any more. -/
def Live : PagerOp Addr → Pager → Prop
  | .getPage _, _ => True
  | .getUnusedPage, _ => True
  | .load a _, s => a ∈ s.cache.lruList
  | .store a _ _, s => a ∈ s.cache.lruList
  | .memcpy dst _ src _ _, s => dst ∈ s.cache.lruList ∧ src ∈ s.cache.lruList
  | .fill a _ _ _, s => a ∈ s.cache.lruList

instance : ∀ o s, Decidable (Live o s)
  | .getPage _, _ => .isTrue trivial
  | .getUnusedPage, _ => .isTrue trivial
  | .load _ _, _ => inferInstanceAs (Decidable (_ ∈ _))
  | .store _ _ _, _ => inferInstanceAs (Decidable (_ ∈ _))
  | .memcpy _ _ _ _ _, _ => inferInstanceAs (Decidable (_ ∧ _))
  | .fill _ _ _ _, _ => inferInstanceAs (Decidable (_ ∈ _))

/-- The file has the bytes of every cached page, at the place of the page. -/
def Durable (s : Pager) : Prop :=
  ∀ p a, s.cache.pageMap.lookup p = some a → s.file.file.bytes (p * pageSize) pageSize =
    (s.heap.entry a).data

end Pager

/-- Every `flush_all` of a session makes the cached pages durable. -/
def FlushesDurably (fuel : ℕ) (s : Pager) (steps : List SessionStep) : Prop :=
  ∀ pre post, steps = pre ++ .flushAll :: post → (s.doSteps fuel (pre ++ [.flushAll])).Durable

/-- The insertion is refused before it writes: `table_find` returns no cursor, or the leaf it
finds is full and no page is left for the split. -/
def Pager.Refuses (s : Pager) (fuel : ℕ) (op : Insertion) : Prop :=
  ∀ cursor s', (tableFind fuel op.key.toNat).run Pager.handler s = (.ok cursor, s') →
    leafNodeMaxCells ≤ (s.page cursor.pageNum).numCells ∧ filePagesNum ≤ s.numPages

/-- Every insertion between two calls of `flush_all` is refused. -/
def RefusedBetweenFlushes (fuel : ℕ) (s : Pager) (steps : List SessionStep) : Prop :=
  ∀ pre op post, steps = pre ++ .insert op :: post → .flushAll ∈ pre → .flushAll ∈ post →
    (s.doSteps fuel pre).Refuses fuel op

/-- No row is inserted between two calls of `flush_all`. -/
def InsertsBeforeFlushes (steps : List SessionStep) : Prop :=
  ∀ pre op post, steps = pre ++ .insert op :: post → .flushAll ∈ pre → .flushAll ∉ post

end ToySQL
