import ToySQL.Spec.Grammar

/-!
# Renderings of token lists

A rendering writes the text of each token, literals in double quotes, with whitespace
around them. Two tokens may touch only where one of them is punctuation or a literal.

`KeywordCase` relates token lists that differ only in the letter case of keywords: words
in a place where the statement that starts with this command has its keywords.
-/

namespace ToySQL

/-- A token as it is written. -/
inductive Symbol where
  | word (letters digits : Str)
  | number (digits : Str)
  | literal (text : Str)
  | openBracket
  | closeBracket
  | any
  | comma
  | equal

namespace Symbol

/-- The text of a symbol. -/
def text : Symbol → Str
  | word letters digits => letters ++ digits
  | number digits => digits
  | literal text => '"'.toUInt8 :: text ++ ['"'.toUInt8]
  | openBracket => str "("
  | closeBracket => str ")"
  | any => str "*"
  | comma => str ","
  | equal => str "="

/-- The token the lexer returns for a symbol. -/
def token : Symbol → Token
  | word letters digits => ⟨.Word, letters ++ digits⟩
  | number digits => ⟨.Number, digits⟩
  | literal text => ⟨.Literal, text⟩
  | openBracket => ⟨.OpenBracket, str "("⟩
  | closeBracket => ⟨.CloseBracket, str ")"⟩
  | any => ⟨.Any, str "*"⟩
  | comma => ⟨.Comma, str ","⟩
  | equal => ⟨.Equal, str "\""⟩

/-- `letters+ digits*`, `digits+`, and any text without a quote. -/
def WellFormed : Symbol → Prop
  | word letters digits => letters ≠ [] ∧ (∀ c ∈ letters, isAlpha c) ∧ ∀ c ∈ digits, isDigit c
  | number digits => digits ≠ [] ∧ ∀ c ∈ digits, isDigit c
  | literal text => '"'.toUInt8 ∉ text
  | _ => True

/-- Punctuation and literals need no space around them. -/
def Delimited : Symbol → Prop
  | word _ _ => False
  | number _ => False
  | _ => True

instance (x : Symbol) : Decidable x.WellFormed :=
  match x with
  | word letters digits =>
    inferInstanceAs
      (Decidable (letters ≠ [] ∧ (∀ c ∈ letters, isAlpha c) ∧ ∀ c ∈ digits, isDigit c))
  | number digits => inferInstanceAs (Decidable (digits ≠ [] ∧ ∀ c ∈ digits, isDigit c))
  | literal text => inferInstanceAs (Decidable ('"'.toUInt8 ∉ text))
  | openBracket | closeBracket | any | comma | equal => .isTrue trivial

end Symbol

/-- Symbols, each with the whitespace before it, and the whitespace after the last. -/
structure Rendering where
  items : List (Str × Symbol)
  last : Str
  wellFormed : ∀ item ∈ items, item.2.WellFormed
  blank : ∀ item ∈ items, ∀ c ∈ item.1, isSpace c
  blank_last : ∀ c ∈ last, isSpace c
  apart : items.IsChain fun a b => b.1 = [] → a.2.Delimited ∨ b.2.Delimited

namespace Rendering

/-- The text of symbols with the whitespace before them, and what follows. -/
def write (items : List (Str × Symbol)) (last : Str) : Str :=
  items.foldr (fun item s => item.1 ++ (item.2.text ++ s)) last

def text (r : Rendering) : Str := write r.items r.last

def tokens (r : Rendering) : List Token := r.items.map fun item => item.2.token

end Rendering

/-! ## The case of keywords -/

/-- The places of the keywords in a statement that starts with the word `command`. In an
`UPDATE` every fourth token from `SET` on is a comma or `WHERE`, in a `SELECT` every
second token is punctuation or a keyword, and in a `CREATE` every third from the first
type on is a type. -/
def keywordAt (command : Str) (i : ℕ) : Bool :=
  i = 0 ||
  (if command = str "CREATE" then i = 1 || (5 ≤ i && i % 3 = 2)
  else if command = str "INSERT" then i = 1 || i = 3
  else if command = str "SELECT" then i % 2 = 0
  else if command = str "UPDATE" then i % 4 = 2
  else if command = str "DELETE" then i = 1 || i = 3
  else false)

/-- Two words that differ in nothing but the case of their letters. -/
def Token.SameWord (t t' : Token) : Prop := t.type = .Word ∧ t'.type = .Word ∧ t.text = t'.text

/-- Token lists that differ at most in the letter case of keywords. -/
structure KeywordCase (ts ts' : List Token) : Prop where
  length : ts.length = ts'.length
  tokens : ∀ i t t', ts[i]? = some t → ts'[i]? = some t' →
    t = t' ∨ (∃ c ∈ ts.head?, keywordAt c.text i) ∧ t.SameWord t'

end ToySQL
