import ToySQL.Lib.Separated
import ToySQL.Spec.Parser

/-!
# The grammar of the statements

What the parser is for, apart from how it works: the statements, the token lists that
are statements, and the JSON object of a statement.

    CREATE TABLE w '(' w type {',' w type} ')'          type in {INT, TEXT}
    INSERT INTO w VALUES '(' v {',' v} ')'
    SELECT ('*' | w {',' w}) FROM w [where]
    UPDATE w SET w '=' v {',' w '=' v} [where]
    DELETE FROM w [where]
    where: WHERE w '=' v {',' w '=' v}

`w` is any word, `v` a number or a literal; keywords are words in any case.
-/

namespace ToySQL

inductive Statement where
  | create (table : Str) (columns : List (Str × Str))
  | insert (table : Str) (values : List Str)
  | select (columns : List Str) (table : Str) (wheres : List (Str × Str))
  | update (table : Str) (values wheres : List (Str × Str))
  | delete (table : Str) (wheres : List (Str × Str))

/-- A pair of strings as a JSON array. -/
def Json.pair (p : Str × Str) : Json := .arr [.str p.1, .str p.2]

/-- The object of a statement, its fields in the order of their names. -/
def Statement.json : Statement → Json
  | create table columns => .obj [(str "columns", .arr (columns.map .pair)),
      (str "op", .str (str "create")), (str "table_name", .str table)]
  | insert table values => .obj [(str "op", .str (str "insert")), (str "table_name", .str table),
      (str "values", .arr (values.map .str))]
  | select columns table wheres => .obj [(str "columns", .arr (columns.map .str)),
      (str "op", .str (str "select")), (str "table_name", .str table),
      (str "where", .arr (wheres.map .pair))]
  | update table values wheres => .obj [(str "op", .str (str "update")),
      (str "table_name", .str table), (str "values", .arr (values.map .pair)),
      (str "where", .arr (wheres.map .pair))]
  | delete table wheres => .obj [(str "op", .str (str "delete")), (str "table_name", .str table),
      (str "where", .arr (wheres.map .pair))]

/-- The upper case of an ASCII character. -/
def upper (c : UInt8) : UInt8 := if 97 ≤ c ∧ c ≤ 122 then c - 32 else c

namespace Token

/-- The text of a token in upper case. -/
def text (t : Token) : Str := t.value.map upper

/-- The keyword `word`, in any case. -/
def Keyword (word : String) (t : Token) : Prop := t.type = .Word ∧ t.text = str word

/-- A number or a literal. -/
def Value (t : Token) : Prop := t.type = .Number ∨ t.type = .Literal

instance (t : Token) : Decidable t.Value := inferInstanceAs (Decidable (_ ∨ _))

/-- A quoted literal with the text `FROM`, in any case. -/
def QuotedFrom (t : Token) : Prop := t.type = .Literal ∧ t.text = str "FROM"

end Token

/-- `w type` -/
inductive ColumnItem : List Token → Str × Str → Prop
  | mk {w t : Token} {type : String} : w.type = .Word → type ∈ ["INT", "TEXT"] → t.Keyword type →
      ColumnItem [w, t] (w.value, str type)

/-- `w = v` -/
inductive PairItem : List Token → Str × Str → Prop
  | mk {w e v : Token} :
    w.type = .Word → e.type = .Equal → v.Value → PairItem [w, e, v] (w.value, v.value)

/-- `v` -/
inductive ValueItem : List Token → Str → Prop
  | mk {v : Token} : v.Value → ValueItem [v] v.value

/-- `w` -/
inductive WordItem : List Token → Str → Prop
  | mk {w : Token} : w.type = .Word → WordItem [w] w.value

/-- `item {',' item}` -/
abbrev CommaList {α : Type} (item : List Token → α → Prop) : List Token → List α → Prop :=
  Separated item fun t => t.type = .Comma

/-- `[WHERE w = v {, w = v}]` -/
inductive WhereClause : List Token → List (Str × Str) → Prop
  | absent : WhereClause [] []
  | present {k ts wheres} : k.Keyword "WHERE" → CommaList PairItem ts wheres →
      WhereClause (k :: ts) wheres

/-- `'*' | w {',' w}` -/
inductive SelectColumns : List Token → List Str → Prop
  | all {t} : t.type = .Any → SelectColumns [t] [str "*"]
  | some {ts columns} : CommaList WordItem ts columns → SelectColumns ts columns

/-- A `SELECT` statement, with `isFrom` where its `FROM` stands. -/
inductive SelectForm (isFrom : Token → Prop) : List Token → Statement → Prop
  | mk {c f w cols columns cond wheres} :
    c.Keyword "SELECT" → SelectColumns cols columns → isFrom f →
      w.type = .Word → WhereClause cond wheres →
      SelectForm isFrom (c :: cols ++ f :: w :: cond) (.select columns w.value wheres)

/-- The token lists that are statements, up to `END`. -/
inductive Grammar : List Token → Statement → Prop
  | create {c t w o cols columns b} : c.Keyword "CREATE" → t.Keyword "TABLE" → w.type = .Word →
      o.type = .OpenBracket → CommaList ColumnItem cols columns → b.type = .CloseBracket →
      Grammar (c :: t :: w :: o :: cols ++ [b]) (.create w.value columns)
  | insert {c i w k o vals values b} : c.Keyword "INSERT" → i.Keyword "INTO" → w.type = .Word →
      k.Keyword "VALUES" → o.type = .OpenBracket → CommaList ValueItem vals values →
      b.type = .CloseBracket →
      Grammar (c :: i :: w :: k :: o :: vals ++ [b]) (.insert w.value values)
  | select {ts stmt} : SelectForm (Token.Keyword "FROM") ts stmt → Grammar ts stmt
  | update {c w s sets values cond wheres} : c.Keyword "UPDATE" → w.type = .Word → s.Keyword "SET" →
      CommaList PairItem sets values → WhereClause cond wheres →
      Grammar (c :: w :: s :: sets ++ cond) (.update w.value values wheres)
  | delete {c f w cond wheres} : c.Keyword "DELETE" → f.Keyword "FROM" → w.type = .Word →
      WhereClause cond wheres → Grammar (c :: f :: w :: cond) (.delete w.value wheres)

/-- The parser accepts the input exactly as the grammar does: the object of the statement
where the tokens are one, and the empty object where they are none. -/
structure ParsesExactly (input : Str) : Prop where
  accepts : ∀ stmt, Grammar (Lexer.tokens ⟨input, 0⟩) stmt → Parser.parse input = .ok stmt.json
  rejects : (∀ stmt, ¬ Grammar (Lexer.tokens ⟨input, 0⟩) stmt) → Parser.parse input = .ok .object
  nonempty : ∀ stmt, Grammar (Lexer.tokens ⟨input, 0⟩) stmt → stmt.json ≠ .object

/-- The input would be a `SELECT` statement if its quoted `FROM` were not quoted. -/
def QuotesFrom (input : Str) : Prop :=
  ∃ stmt, SelectForm Token.QuotedFrom (Lexer.tokens ⟨input, 0⟩) stmt

/-- The input starts with the word `SELECT`, in any case. -/
def StartsSelect (input : Str) : Prop :=
  ∃ t ∈ (Lexer.tokens ⟨input, 0⟩).head?, t.Keyword "SELECT"

end ToySQL
