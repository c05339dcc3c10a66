import ToySQL.Spec.View

/-!
# A client of the pager

Code that gets pages from a pager, changes the bytes of the entry it got last, and
flushes the cache. `Pages` is what the client is to see: a page keeps the bytes it was
left with.
-/

namespace ToySQL

/-- One thing a client does. `change` gives the entry returned last new bytes. -/
inductive PagerStep where
  | getPage (pageNum : ℕ)
  | change (data : Page)
  | flushAll
deriving DecidableEq

/-- The page a step asks for. -/
def PagerStep.request : PagerStep → Option ℕ
  | getPage pageNum => some pageNum
  | _ => none

/-- The entries behind the one `get_page` returns: those there were, in their order, without
its own and, where a new one finds no room, without the last. -/
def Pager.behind (s : Pager) (pageNum : ℕ) : List Addr :=
  match s.cache.pageMap.lookup pageNum with
  | some a => s.cache.lruList.filter (· ≠ a)
  | none =>
    if s.cache.lruList.length < max 1 s.cache.maxPages then
      s.cache.lruList else s.cache.lruList.dropLast

/-- A pager and the entry its client holds: the one the last `get_page` returned. -/
structure PagerClient where
  pager : Pager
  entry : Option Addr

namespace PagerClient

/-- A client of a pager that was just opened. -/
def init (file : File) (cacheSize : ℕ) (uninit : Addr → Page) : PagerClient :=
  ⟨.init file cacheSize uninit, none⟩

/-- The bytes of the page, or what `get_page` throws. -/
def getPage (c : PagerClient) (pageNum : ℕ) : Except Fault Page × PagerClient :=
  match c.pager.getPage pageNum with
  | (.ok a, pager) => (.ok (pager.heap.entry a).data, ⟨pager, some a⟩)
  | (.error e, pager) => (.error e, ⟨pager, none⟩)

def change (c : PagerClient) (data : Page) : PagerClient :=
  match c.entry with
  | some a => { c with pager := c.pager.setData a data }
  | none => c

def flushAll (c : PagerClient) : PagerClient := { c with pager := c.pager.flushAll }

/-- What the `get_page` calls of the steps give, and the client after them. -/
def run : List PagerStep → PagerClient → List (Except Fault Page) × PagerClient
  | [], c => ([], c)
  | .getPage pageNum :: rest, c =>
    let (data, c) := c.getPage pageNum
    let (answers, c) := run rest c
    (data :: answers, c)
  | .change data :: rest, c => run rest (c.change data)
  | .flushAll :: rest, c => run rest c.flushAll

end PagerClient

/-! ## What the client is to see -/

/-- The bytes of all pages as they were left, the page got last and the pages that were
changed. -/
structure Pages where
  page : ℕ → Page
  last : Option ℕ
  changed : List ℕ

namespace Pages

/-- The pages of a file that was just opened. -/
def init (file : File) : Pages := ⟨fun p => file.bytes (p * pageSize) pageSize, none, []⟩

def getPage (m : Pages) (pageNum : ℕ) : Pages := { m with last := some pageNum }

def change (m : Pages) (data : Page) : Pages :=
  match m.last with
  | some p => { m with page := Function.update m.page p data, changed := p :: m.changed }
  | none => m

/-- What the `get_page` calls of the steps are to give. -/
def run : List PagerStep → Pages → List Page
  | [], _ => []
  | .getPage pageNum :: rest, m => m.page pageNum :: run rest (m.getPage pageNum)
  | .change data :: rest, m => run rest (m.change data)
  | .flushAll :: rest, m => run rest m

end Pages

/-- The client is served safely, over a pager that opened `file`: `get_page` throws, or
it returns the bytes of a page of the file, as they were left; and a last `flush_all`
brings all changed pages to the file. -/
def PagerClient.Safe (file : File) : List PagerStep → PagerClient → Pages → Prop
  | [], c, m => ∀ p ∈ m.changed, c.flushAll.pager.file.file.bytes (p * pageSize) pageSize = m.page p
  | .getPage pageNum :: rest, c, m =>
    match c.getPage pageNum with
    | (.error _, c) => Safe file rest c { m with last := none }
    | (.ok data, c) =>
      (pageNum * pageSize + pageSize ≤ file.size ∧ data = m.page pageNum) ∧
        Safe file rest c (m.getPage pageNum)
  | .change data :: rest, c, m => Safe file rest (c.change data) (m.change data)
  | .flushAll :: rest, c, m => Safe file rest c.flushAll m

end ToySQL
