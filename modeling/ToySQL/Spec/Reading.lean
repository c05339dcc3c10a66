import ToySQL.Spec.Rows
import ToySQL.Spec.Flushing

/-!
# Reading a table

Lookups, and the loop the tests read a table with: from `table_start` on, `Cursor::value`
and `Cursor::advance` until `end_of_table`. A table that is opened answers one such
question after the other.
-/

namespace ToySQL

/-- Going on after an outcome that is not a fault. -/
def andThen {ε α β σ : Type} (o : Except ε α × σ) (f : α → σ → Except ε β × σ) : Except ε β × σ :=
  match o with
  | (.ok a, s) => f a s
  | (.error e, s) => (.error e, s)

section Select

variable {P σ : Type} (h : Handler (pagerInterface P) Fault σ) (rowAt : σ → P → Loc → Row)

/-- The rows seen from a cursor on; at most `steps` of them. -/
def selectFrom : ℕ → Cursor → σ → Except Fault (List Row) × σ
  | 0, _, s => (.error .noReturn, s)
  | steps + 1, cursor, s =>
    if cursor.endOfTable then (.ok [], s)
    else
      andThen (cursor.value.run h s) fun value s =>
        if value.2.offset + rowSize ≤ pageSize then
          andThen (cursor.advance.run h s) fun next t =>
            andThen (selectFrom steps next t) fun rows t =>
              (.ok (rowAt s value.1 value.2 :: rows), t)
        else (.error .outOfPage, s)

def selectAll (fuel steps : ℕ) (s : σ) : Except Fault (List Row) × σ :=
  andThen ((tableStart fuel).run h s) (selectFrom h rowAt steps)

end Select

/-! ## Questions and answers -/

inductive Query where
  | find (key : ℕ)
  | scan (steps : ℕ)
  | select (steps : ℕ)
deriving DecidableEq

inductive Answer where
  | cursor (cursor : Cursor)
  | keys (keys : List ℕ)
  | rows (rows : List Row)
deriving DecidableEq

section Answers

variable {P σ : Type} (h : Handler (pagerInterface P) Fault σ) (rowAt : σ → P → Loc → Row)
    (fuel : ℕ)

def answer (s : σ) : Query → Except Fault Answer × σ
  | .find key => andThen ((tableFind fuel key).run h s) fun cursor s => (.ok (.cursor cursor), s)
  | .scan steps => andThen ((scan fuel steps).run h s) fun keys s => (.ok (.keys keys), s)
  | .select steps => andThen (selectAll h rowAt fuel steps s) fun rows s => (.ok (.rows rows), s)

/-- The answers to a list of queries. After a fault the next query is asked all the same. -/
def answers : List Query → σ → List (Except Fault Answer) × σ
  | [], s => ([], s)
  | query :: queries, s =>
    let (first, s) := answer h rowAt fuel s query
    let (rest, s) := answers queries s
    (first :: rest, s)

end Answers

namespace Pager

/-- A table over an open file answers. -/
def answers (s : Pager) (fuel : ℕ) (queries : List Query) : List (Except Fault Answer) × Pager :=
  ToySQL.answers handler rowAt fuel queries s

/-- The file that is left when `flush_all` is called and the stream is closed. -/
def close (s : Pager) : File := s.flushAll.file.file

/-- The rows of the table, if `fuel` and `steps` are large. -/
def SelectsRows (s : Pager) (rows : List Row) : Prop :=
  ∃ n, ∀ fuel ≥ n, ∀ steps ≥ n, ∃ s', selectAll handler rowAt fuel steps s = (.ok rows, s')

end Pager

end ToySQL
