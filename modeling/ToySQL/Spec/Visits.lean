import ToySQL.Spec.Reading

/-!
# Using a table again and again

A file is opened, a table over it is used, and the file is flushed and closed, any number of
times. The uses are queries and insertions, and the initialisation of a new file.
-/

namespace ToySQL

inductive Request where
  | newTable
  | insert (op : Insertion)
  | query (query : Query)
deriving DecidableEq

/-- What a request returns, unless it throws. -/
inductive Reply where
  | done
  | answer (answer : Answer)
deriving DecidableEq

section Serve

variable {P σ : Type} (h : Handler (pagerInterface P) Fault σ) (rowAt : σ → P → Loc → Row)
    (fuel : ℕ)

def reply (s : σ) : Request → Except Fault Reply × σ
  | .newTable => andThen (initializeTable.run h s) fun _ s => (.ok .done, s)
  | .insert op => andThen ((insertRow fuel op).run h s) fun _ s => (.ok .done, s)
  | .query query => andThen (answer h rowAt fuel s query) fun a s => (.ok (.answer a), s)

/-- The replies to a list of requests. After an exception the next one is made all the same. -/
def replies : List Request → σ → List (Except Fault Reply) × σ
  | [], s => ([], s)
  | request :: requests, s =>
    let (first, s) := reply h rowAt fuel s request
    let (rest, s) := replies requests s
    (first :: rest, s)

end Serve

namespace Pager

def reply (s : Pager) (fuel : ℕ) (request : Request) : Except Fault Reply × Pager :=
  ToySQL.reply handler rowAt fuel s request

def replies (s : Pager) (fuel : ℕ) (requests : List Request) : List (Except Fault Reply) × Pager :=
  ToySQL.replies handler rowAt fuel requests s

/-- `num_cells` of the leaf that `table_find` finds for a key. -/
def cellsFor (s : Pager) (fuel key : ℕ) : Option ℕ :=
  match (tableFind fuel key).run handler s with
  | (.ok cursor, s) => some (s.page cursor.pageNum).numCells
  | (.error _, _) => none

/-- The leaf that an insertion finds for its key has room. -/
def HasRoom (s : Pager) (fuel : ℕ) : Request → Prop
  | .insert op => ∀ numCells ∈ s.cellsFor fuel op.key.toNat, numCells < leafNodeMaxCells
  | _ => True

instance (s : Pager) (fuel : ℕ) : (request : Request) → Decidable (s.HasRoom fuel request)
  | .insert op =>
    inferInstanceAs
      (Decidable (∀ numCells ∈ s.cellsFor fuel op.key.toNat, numCells < leafNodeMaxCells))
  | .newTable | .query _ => .isTrue trivial

/-- Every insertion of a session finds room. -/
def Roomy (fuel : ℕ) : List Request → Pager → Prop
  | [], _ => True
  | request :: requests, s => s.HasRoom fuel request ∧ Roomy fuel requests (s.reply fuel request).2

instance decidableRoomy (fuel : ℕ) :
    (requests : List Request) → (s : Pager) → Decidable (s.Roomy fuel requests)
  | [], _ => .isTrue trivial
  | request :: requests, s =>
    have := decidableRoomy fuel requests (s.reply fuel request).2
    inferInstanceAs
      (Decidable (s.HasRoom fuel request ∧ (s.reply fuel request).2.Roomy fuel requests))

end Pager

/-- The file is opened with a cache, and requests are made. -/
structure Visit where
  cacheSize : ℕ
  uninit : Addr → Page
  requests : List Request

namespace File

/-- The replies of a visit, and the file it leaves. -/
def visit (file : File) (fuel : ℕ) (v : Visit) : List (Except Fault Reply) × File :=
  let (replies, s) := (Pager.init file v.cacheSize v.uninit).replies fuel v.requests
  (replies, s.close)

/-- One visit after the other. -/
def visits (fuel : ℕ) : File → List Visit → List (Except Fault Reply) × File
  | file, [] => ([], file)
  | file, v :: vs =>
    let (first, file) := file.visit fuel v
    let (rest, file) := visits fuel file vs
    (first ++ rest, file)

end File

end ToySQL
