import ToySQL.Spec.Rendering

/-!
# The text of a statement

The symbols that a statement is written with, its keywords in upper case. A value of nothing but
digits is written as a number, any other one as a literal.
-/

namespace ToySQL

/-- A word, cut into letters and what follows. -/
def wordSymbol (w : Str) : Symbol := .word (w.takeWhile isAlpha) (w.dropWhile isAlpha)

def valueSymbol (v : Str) : Symbol := if v ≠ [] ∧ ∀ c ∈ v, isDigit c then .number v else .literal v

/-- Letters and then digits. -/
def IsWord (w : Str) : Prop := (wordSymbol w).WellFormed

/-- No quote. -/
def IsValue (v : Str) : Prop := (valueSymbol v).WellFormed

def keyword (word : String) : Symbol := wordSymbol (str word)

def columnSymbols (p : Str × Str) : List Symbol := [wordSymbol p.1, wordSymbol p.2]

def pairSymbols (p : Str × Str) : List Symbol := [wordSymbol p.1, .equal, valueSymbol p.2]

/-- Items with commas between them. -/
def commaSymbols {α : Type} (item : α → List Symbol) : List α → List Symbol
  | [] => []
  | [a] => item a
  | a :: b :: rest => item a ++ .comma :: commaSymbols item (b :: rest)

def whereSymbols (wheres : List (Str × Str)) : List Symbol :=
  if wheres = [] then [] else keyword "WHERE" :: commaSymbols pairSymbols wheres

namespace Statement

def symbols : Statement → List Symbol
  | create table columns =>
    keyword "CREATE" :: keyword "TABLE" :: wordSymbol table :: .openBracket ::
      commaSymbols columnSymbols columns ++ [.closeBracket]
  | insert table values =>
    keyword "INSERT" :: keyword "INTO" :: wordSymbol table :: keyword "VALUES" :: .openBracket ::
      commaSymbols (fun v => [valueSymbol v]) values ++ [.closeBracket]
  | select columns table wheres =>
    keyword "SELECT" ::
      (if columns = [str "*"] then [.any] else commaSymbols (fun w => [wordSymbol w]) columns) ++
      keyword "FROM" :: wordSymbol table :: whereSymbols wheres
  | update table values wheres =>
    keyword "UPDATE" :: wordSymbol table :: keyword "SET" :: commaSymbols pairSymbols values ++
      whereSymbols wheres
  | delete table wheres => keyword "DELETE" :: keyword "FROM" :: wordSymbol table ::
    whereSymbols wheres

/-- The pairs of `SET` and `WHERE`. -/
def WritablePairs (pairs : List (Str × Str)) : Prop := ∀ p ∈ pairs, IsWord p.1 ∧ IsValue p.2

/-- Its names are words, its values have no quotes, and its lists are not empty. -/
def Writable : Statement → Prop
  | create table columns => IsWord table ∧ columns ≠ [] ∧ ∀ p ∈ columns, IsWord p.1 ∧
    (p.2 = str "INT" ∨ p.2 = str "TEXT")
  | insert table values => IsWord table ∧ values ≠ [] ∧ ∀ v ∈ values, IsValue v
  | select columns table wheres =>
    (columns = [str "*"] ∨ columns ≠ [] ∧ ∀ w ∈ columns, IsWord w) ∧ IsWord table ∧
      WritablePairs wheres
  | update table values wheres => IsWord table ∧ values ≠ [] ∧ WritablePairs values ∧
    WritablePairs wheres
  | delete table wheres => IsWord table ∧ WritablePairs wheres

end Statement

/-- A layout of the statement: its symbols, with any whitespace that keeps them apart. -/
def Rendering.Of (r : Rendering) (stmt : Statement) : Prop := r.items.map Prod.snd = stmt.symbols

end ToySQL
