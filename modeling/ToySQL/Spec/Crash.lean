import ToySQL.Lib.Moments
import ToySQL.Lib.Versions
import ToySQL.Spec.Visits

/-!
# Killing the process

The file of a table is written when `get_page` evicts an entry and when `flush_all` is called, so
that a process that is killed leaves a file with older and newer pages. The moments at which it can
be killed are those between two operations of the pager, and between two rounds of `flush_all`. What
`write` was given counts as being in the file: the buffer of the stream itself is not modelled.
-/

namespace ToySQL

/-! ## Arbitrary use of a pager -/

/-- An operation, or the first rounds of the loop of `flush_all`. -/
inductive Event where
  | op (o : PagerOp Addr)
  | flush (rounds : ℕ)

namespace Pager

def happen (s : Pager) : Event → Pager
  | .op o => (handler o s).2
  | .flush rounds => s.flushList (s.cache.lruList.take rounds)

def after (s : Pager) (events : List Event) : Pager := events.foldl happen s

/-- Every operation uses pointers to entries that are in the cache at the time. -/
def UsesLive : List Event → Pager → Prop
  | [], _ => True
  | .op o :: events, s => Live o s ∧ UsesLive events (s.happen (.op o))
  | .flush rounds :: events, s => UsesLive events (s.happen (.flush rounds))

instance decidableUsesLive : (events : List Event) → (s : Pager) → Decidable (s.UsesLive events)
  | [], _ => .isTrue trivial
  | .op o :: events, s =>
    have := decidableUsesLive events (s.happen (.op o))
    inferInstanceAs (Decidable (Live o s ∧ (s.happen (.op o)).UsesLive events))
  | .flush rounds :: events, s => decidableUsesLive events (s.happen (.flush rounds))

/-- The page of an entry. -/
def pageOf (s : Pager) (a : Addr) : ℕ := (s.heap.entry a).pageNum

/-- The pages after an event: a write inside a page changes the page of the entry it goes to, and
nothing else changes a page. -/
def pagesAfter (s : Pager) : Event → ℕ → Page
  | .op (.store a l v) =>
    if l.offset + l.width ≤ pageSize then
      Function.update s.page (s.pageOf a) ((s.page (s.pageOf a)).store l v)
    else s.page
  | .op (.memcpy dst dl src sl n) =>
    if dl.offset + n ≤ pageSize ∧ sl.offset + n ≤ pageSize then
      Function.update s.page (s.pageOf dst)
        ((s.page (s.pageOf dst)).splice dl.offset ((s.page (s.pageOf src)).slice sl.offset n))
    else s.page
  | .op (.fill a l n buffer) =>
    if l.offset + n ≤ pageSize then
      Function.update s.page (s.pageOf a) ((s.page (s.pageOf a)).splice l.offset buffer)
    else s.page
  | _ => s.page

/-- The number of events after which a page was what the file has of it after `n` events. -/
def fileVersion (s : Pager) (events : List Event) (n p : ℕ) : ℕ :=
  version (fun i => (s.after (events.take i)).page)
    (fun i q => (s.after (events.take i)).file.file.bytes (q * pageSize) pageSize) n p

end Pager

/-! ## Sessions -/

/-- What a session does with a table. -/
inductive Work where
  | newTable
  | insert (op : Insertion)
  | find (key : ℕ)
  | scan (steps : ℕ)
  | flushAll
deriving DecidableEq

/-- The code that uses the pager; `flush_all` is part of the pager. -/
def Work.code {P : Type} (fuel : ℕ) : Work → Prog P Unit
  | .newTable => initializeTable
  | .insert op => insertRow fuel op
  | .find key => do let _ ← tableFind fuel key
  | .scan steps => do let _ ← ToySQL.scan fuel steps
  | .flushAll => pure ()

namespace Pager

def work (s : Pager) (fuel : ℕ) : Work → Pager
  | .flushAll => s.flushAll
  | w => ((w.code fuel).run handler s).2

/-- The works of a session, one after the other. After an exception the next one is done all the
same. -/
def works (s : Pager) (fuel : ℕ) (ws : List Work) : Pager := ws.foldl (fun s w => s.work fuel w) s

/-- The moments of a work. -/
def moments (s : Pager) (fuel : ℕ) : Work → List Pager
  | .flushAll => (List.range (s.cache.lruList.length + 1)).map fun rounds =>
    s.flushList (s.cache.lruList.take rounds)
  | w => Program.moments handler (w.code fuel) s

/-- The leaf that an insertion finds has room. -/
def FindsRoom (s : Pager) (fuel : ℕ) : Work → Prop
  | .insert op => s.HasRoom fuel (.insert op)
  | _ => True

instance (s : Pager) (fuel : ℕ) : (w : Work) → Decidable (s.FindsRoom fuel w)
  | .insert op => inferInstanceAs (Decidable (s.HasRoom fuel (.insert op)))
  | .newTable | .find _ | .scan _ | .flushAll => .isTrue trivial

/-- Every insertion of a session finds room. -/
def FindRoom (fuel : ℕ) : List Work → Pager → Prop
  | [], _ => True
  | w :: ws, s => s.FindsRoom fuel w ∧ FindRoom fuel ws (s.work fuel w)

instance decidableFindRoom (fuel : ℕ) :
    (ws : List Work) → (s : Pager) → Decidable (s.FindRoom fuel ws)
  | [], _ => .isTrue trivial
  | w :: ws, s =>
    have := decidableFindRoom fuel ws (s.work fuel w)
    inferInstanceAs (Decidable (s.FindsRoom fuel w ∧ (s.work fuel w).FindRoom fuel ws))

end Pager

/-! ## What a page may gain -/

/-- A leaf may have more rows, between those it had. Any other page is the same. -/
structure Page.Gains (pg pg' : Page) : Prop where
  leaf : pg.isLeaf = true → pg'.isLeaf = true ∧ pg.rows.Sublist pg'.rows
  other : pg.isLeaf = false → pg' = pg

end ToySQL
