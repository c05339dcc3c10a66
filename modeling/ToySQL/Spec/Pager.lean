import ToySQL.Lib.Program
import ToySQL.Spec.Layout

/-!
# The pager

`page.cpp` and the pager part of `ds.h`: the file stream, the LRU page cache and
`Pager::get_page` / `Pager::flush_all`. Cache entries live on a heap and are named
by their address, so that a pointer kept after its entry was evicted and deleted
still denotes the entry, whose bytes no longer reach the file.

`pagerInterface P` is what `btree.cpp` asks of the pager, for pointers of type `P`;
`Pager.handler` answers it.
-/

namespace ToySQL

/-- What ends a run before its last statement: an exception, `exit(EXIT_FAILURE)`, an
access past the end of a page, or a recursion that does not come back. -/
inductive Fault where
  | outOfRange (what : String)
  | ioFailure (what : String)
  | exit (message : String)
  | outOfPage
  | noReturn
deriving DecidableEq

/-! ## The file stream -/

/-- A file: its length and its bytes, byte `i` in bits `8 i .. 8 i + 7`. -/
structure File where
  size : ℕ
  content : ℕ
deriving DecidableEq

namespace File

def empty : File := ⟨0, 0⟩

/-- The `n` bytes at `pos` (zeros past the end). -/
def bytes (f : File) (pos n : ℕ) : Bytes n := ⟨BitVec.ofNat (8 * n) (f.content >>> (8 * pos))⟩

/-- The `n` bytes at `pos` replaced by `b`; a write past the end lengthens the file. -/
def write (f : File) (pos : ℕ) {n : ℕ} (b : Bytes n) : File where
  size := max f.size (pos + n)
  content := f.content % 2 ^ (8 * pos) ||| b.toNat <<< (8 * pos) |||
    (f.content >>> (8 * (pos + n))) <<< (8 * (pos + n))

end File

/-- A `std::fstream`: the file, the position and the two state bits a short read
sets. -/
structure FStream where
  file : File
  pos : ℕ := 0
  eof : Bool := false
  fail : Bool := false
deriving DecidableEq

namespace FStream

/-- `seekg` clears `eofbit` first; a failed stream does not move. -/
def seekg (f : FStream) (pos : ℕ) : FStream :=
  if f.fail then { f with eof := false } else { f with eof := false, pos }

def seekp (f : FStream) (pos : ℕ) : FStream := if f.fail then f else { f with pos }

/-- `read` into `buffer`. A short read fills what there is and sets both bits. -/
def read (f : FStream) {n : ℕ} (buffer : Bytes n) : Bytes n × FStream :=
  if f.eof || f.fail then (buffer, { f with fail := true })
  else
    let available := f.file.size - f.pos
    if n ≤ available then (f.file.bytes f.pos n, { f with pos := f.pos + n })
    else
      (buffer.splice 0 (f.file.bytes f.pos available),
        { f with pos := f.pos + available, eof := true, fail := true })

def write (f : FStream) {n : ℕ} (b : Bytes n) : FStream :=
  if f.eof || f.fail then { f with fail := true }
  else { f with file := f.file.write f.pos b, pos := f.pos + n }

end FStream

/-! ## The cache -/

/-- The address of a `CacheEntry` on the heap. Addresses are not reused. -/
abbrev Addr : Type := ℕ

structure CacheEntry where
  pageNum : ℕ
  data : Page
  dirty : Bool
deriving DecidableEq

/-- Every entry allocated so far, at its address; deleting an entry leaves it. -/
abbrev Heap : Type := List CacheEntry

/-- The entry at an address. -/
def Heap.entry (heap : Heap) (a : Addr) : CacheEntry :=
  heap.getD a ⟨0, Bytes.zero pageSize, false⟩

structure PageCache where
  maxPages : ℕ
  pageMap : AList fun _ : ℕ => Addr
  lruList : List Addr

namespace PageCache

def init (maxPages : ℕ) : PageCache := ⟨maxPages, ∅, []⟩

/-- The entry of a cached page moves to the front of the list. -/
def getPage (cache : PageCache) (pageNum : ℕ) : Option Addr × PageCache :=
  match cache.pageMap.lookup pageNum with
  | some obj => (some obj, { cache with lruList := obj :: cache.lruList.filter (· ≠ obj) })
  | none => (none, cache)

/-- The oldest entry, if any, leaves the cache and is returned. -/
def evict (cache : PageCache) (heap : Heap) : Option Addr × PageCache :=
  match cache.lruList.getLast? with
  | none => (none, cache)
  | some lru =>
    (some lru,
      { cache with
        pageMap := cache.pageMap.erase (heap.entry lru).pageNum
        lruList := cache.lruList.dropLast })

def addPage (cache : PageCache) (heap : Heap) (page : Addr) : Option Addr × PageCache :=
  let (evicted, cache) :=
    if cache.pageMap.keys.length ≥ cache.maxPages then cache.evict heap else (none, cache)
  (evicted,
    { cache with
      pageMap := cache.pageMap.insert (heap.entry page).pageNum page
      lruList := page :: cache.lruList })

end PageCache

/-! ## The pager -/

/-- `uninit` is what a fresh allocation holds before it is filled. -/
structure Pager where
  file : FStream
  cache : PageCache
  numPages : ℕ
  heap : Heap
  uninit : Addr → Page

namespace Pager

/-- The constructor, on the file `file` (`File.empty` where it did not exist: it is
created first). An empty file is filled with zero pages. -/
def init (file : File) (cacheSize : ℕ) (uninit : Addr → Page) : Pager where
  file :=
    let stream := (FStream.mk file 0 false false)
    if u32 file.size = 0 then
      (stream.seekp 0).write (Bytes.zero (filePagesNum * pageSize))
    else { stream with pos := file.size }
  cache := .init cacheSize
  numPages := 0
  heap := []
  uninit := uninit

/-- Writing an entry back to its place in the file. -/
def writeBack (s : Pager) (entry : CacheEntry) : Pager :=
  { s with file := (s.file.seekp (u32 (entry.pageNum * pageSize))).write entry.data }

def getUnusedPage (s : Pager) : ℕ := s.numPages

def getPage (s : Pager) (pageNum : ℕ) : Except Fault Addr × Pager :=
  if pageNum ≥ filePagesNum then (.error (.outOfRange "Page number exceeding"), s)
  else
    match s.cache.getPage pageNum with
    | (some entry, cache) => (.ok entry, { s with cache })
    | (none, cache) =>
      let file := s.file.seekg (u32 (pageNum * pageSize))
      if file.fail then
        (.error (.ioFailure ("Failed to seek to page " ++ toString pageNum)),
          { s with file, cache })
      else
        let entry : Addr := s.heap.length
        let (data, file) := file.read (s.uninit entry)
        let heap := s.heap ++ [⟨pageNum, data, true⟩]
        let (ret, cache) := cache.addPage heap entry
        let s := { s with file, cache, heap }
        let s := match ret with
          | some lru => s.writeBack (heap.entry lru)
          | none => s
        (.ok entry, if pageNum = s.getUnusedPage then { s with numPages := s.numPages + 1 } else s)

/-- The bytes of the entry at `a` replaced. The dirty flag is left as it is. -/
def setData (s : Pager) (a : Addr) (data : Page) : Pager :=
  { s with heap := s.heap.set a { s.heap.entry a with data } }

/-- `flush_all` on the entries of a list: dirty entries are written and made clean. -/
def flushList (s : Pager) : List Addr → Pager
  | [] => s
  | a :: rest =>
    if (s.heap.entry a).dirty then
      let s := s.writeBack (s.heap.entry a)
      flushList { s with heap := s.heap.set a { s.heap.entry a with dirty := false } } rest
    else flushList s rest

def flushAll (s : Pager) : Pager := s.flushList s.cache.lruList

end Pager

/-! ## The interface of the pager -/

/-- What the code of `btree.cpp` does with the pager and with the pages it gets:
`load` and `store` go through a location, `memcpy` between two locations and `fill`
from a buffer. -/
inductive PagerOp (P : Type) where
  | getPage (pageNum : ℕ)
  | getUnusedPage
  | load (node : P) (l : Loc)
  | store (node : P) (l : Loc) (v : ℕ)
  | memcpy (dst : P) (dl : Loc) (src : P) (sl : Loc) (n : ℕ)
  | fill (dst : P) (dl : Loc) (n : ℕ) (buffer : Bytes n)

@[reducible] def PagerOp.Res {P : Type} : PagerOp P → Type
  | getPage _ => P
  | getUnusedPage => ℕ
  | load _ _ => ℕ
  | store _ _ _ => Unit
  | memcpy _ _ _ _ _ => Unit
  | fill _ _ _ _ => Unit

abbrev pagerInterface (P : Type) : Interface := ⟨PagerOp P, PagerOp.Res⟩

/-- Code that runs on a pager with pointers of type `P`. -/
abbrev Prog (P α : Type) : Type := Program (pagerInterface P) Fault α

section

variable {P : Type}

def getPage (pageNum : ℕ) : Prog P P := .perform (I := pagerInterface P) (.getPage pageNum)

def getUnusedPage : Prog P ℕ := .perform (I := pagerInterface P) .getUnusedPage

def load (node : P) (l : Loc) : Prog P ℕ := .perform (I := pagerInterface P) (.load node l)

def store (node : P) (l : Loc) (v : ℕ) : Prog P Unit :=
  .perform (I := pagerInterface P) (.store node l v)

def memcpy (dst : P) (dl : Loc) (src : P) (sl : Loc) (n : ℕ) : Prog P Unit :=
  .perform (I := pagerInterface P) (.memcpy dst dl src sl n)

def fill (dst : P) (dl : Loc) {n : ℕ} (buffer : Bytes n) : Prog P Unit :=
  .perform (I := pagerInterface P) (.fill dst dl n buffer)

def fault {α : Type} (e : Fault) : Prog P α := .fail e

end

/-- The pager answers. An access that does not end inside the page is a fault. -/
def Pager.handler : Handler (pagerInterface Addr) Fault Pager
  | .getPage pageNum, s => s.getPage pageNum
  | .getUnusedPage, s => (.ok s.getUnusedPage, s)
  | .load a l, s =>
    if l.offset + l.width ≤ pageSize then (.ok ((s.heap.entry a).data.load l), s)
    else (.error .outOfPage, s)
  | .store a l v, s =>
    if l.offset + l.width ≤ pageSize then (.ok (), s.setData a ((s.heap.entry a).data.store l v))
    else (.error .outOfPage, s)
  | .memcpy dst dl src sl n, s =>
    if dl.offset + n ≤ pageSize ∧ sl.offset + n ≤ pageSize then
      (.ok (), s.setData dst ((s.heap.entry dst).data.splice dl.offset
        ((s.heap.entry src).data.slice sl.offset n)))
    else (.error .outOfPage, s)
  | .fill dst dl n buffer, s =>
    if dl.offset + n ≤ pageSize then
      (.ok (), s.setData dst ((s.heap.entry dst).data.splice dl.offset buffer))
    else (.error .outOfPage, s)

end ToySQL
