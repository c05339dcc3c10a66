import ToySQL.Spec.Lexer

/-!
# The parser

`Parser` of `protocol.h` and `protocol.cpp`. The routines are programs over
`Lexer::nextToken` and the `<cctype>` calls of `checkWords`. Every early exit of the
source is `return json::object()`: it is the fault `Stop.object`, which `serialize`
turns into the empty object. The `while (1)` loops take a bound on their rounds.

The loop that reads `w = v {, w = v}` stands four times in the source, with the field
it fills; here it is `pairsLoop`.
-/

namespace ToySQL

/-! ## JSON values -/

/-- A value of `nlohmann::json`, as far as the parser builds them. The fields of an
object are sorted by their keys, as in a `std::map`. -/
inductive Json where
  | str (s : Str)
  | arr (items : List Json)
  | obj (fields : List (Str × Json))

/-- The fields of an object. -/
abbrev Fields : Type := List (Str × Json)

namespace Fields

/-- `obj[key] = value`. -/
def set (key : Str) (value : Json) : Fields → Fields
  | [] => [(key, value)]
  | (k, v) :: fields =>
    if key = k then (key, value) :: fields
    else if key < k then (key, value) :: (k, v) :: fields
    else (k, v) :: set key value fields

/-- `obj[key].push_back(value)` where `obj[key]` is an array, as it is wherever the
parser does so. -/
def push (key : Str) (value : Json) : Fields → Fields
  | [] => []
  | (k, v) :: fields =>
    if key = k then
      match v with
      | .arr items => (k, .arr (items ++ [value])) :: fields
      | v => (k, v) :: fields
    else (k, v) :: push key value fields

end Fields

/-- `json::object()`. -/
def Json.object : Json := .obj []

/-- The token is a number or a literal. -/
def Token.isValue (t : Token) : Bool := t.type = .Number || t.type = .Literal

/-! ## The routines -/

/-- What ends a routine before its last statement: `return json::object()`, an exception
of the lexer, or a loop that goes on. -/
inductive Stop where
  | object
  | lexer (e : LexFault)
  | noReturn

inductive ParseOp where
  | nextToken
  | ctype (o : CtypeOp)

abbrev ParseOp.Res : ParseOp → Type
  | nextToken => Token
  | ctype o => o.Res

/-- What the parser asks of the lexer and of the library. -/
abbrev parseInterface : Interface := ⟨ParseOp, ParseOp.Res⟩

abbrev Parse (α : Type) : Type := Program parseInterface Stop α

namespace Parser

def nextToken : Parse Token := Program.perform (I := parseInterface) .nextToken

def isalpha (c : ℤ) : Parse Bool := Program.perform (I := parseInterface) (.ctype (.isalpha c))

def toupper (c : ℤ) : Parse ℤ := Program.perform (I := parseInterface) (.ctype (.toupper c))

/-- `if (!ok) return json::object();` -/
def require (ok : Bool) : Parse Unit := if ok then pure () else .fail .object

/-- The loop of `checkWords`, over the characters of two strings of one size. -/
def checkWordsLoop : Str → Str → Parse Bool
  | c₁ :: s₁, c₂ :: s₂ => do
    if !(← isalpha (uchar c₁)) then pure false
    else if !(← isalpha (uchar c₂)) then pure false
    else
      let u₁ ← toupper (schar c₁)
      let u₂ ← toupper (schar c₂)
      -- both cast to `unsigned char`
      if u₁ % 256 ≠ u₂ % 256 then pure false else checkWordsLoop s₁ s₂
  | _, _ => pure true

def checkWords (s₁ s₂ : Str) : Parse Bool :=
  if s₁.length ≠ s₂.length then pure false else checkWordsLoop s₁ s₂

/-- The type of a column, in upper case. -/
def columnType (colType : Str) : Parse Str := do
  if (← checkWords colType (str "INT")) then pure (str "INT")
  else if (← checkWords colType (str "TEXT")) then pure (str "TEXT")
  else .fail .object

/-- The loop of `Create`, up to the closing bracket. -/
def createLoop : ℕ → Fields → Parse Fields
  | 0, _ => .fail .noReturn
  | rounds + 1, obj => do
    let currentToken ← nextToken
    require (currentToken.type = .Word)
    let colName := currentToken.value
    let currentToken ← nextToken
    require (currentToken.type = .Word)
    let colType ← columnType currentToken.value
    let obj := obj.push (str "columns") (.arr [.str colName, .str colType])
    let currentToken ← nextToken
    if currentToken.type = .CloseBracket then pure obj
    else if currentToken.type = .Comma then createLoop rounds obj
    else .fail .object

def create (rounds : ℕ) : Parse Json := do
  let obj := Fields.set (str "op") (.str (str "create")) []
  let currentToken ← nextToken
  require (currentToken.type = .Word)
  require (← checkWords currentToken.value (str "TABLE"))
  let currentToken ← nextToken
  require (currentToken.type = .Word)
  let obj := obj.set (str "table_name") (.str currentToken.value)
  let currentToken ← nextToken
  require (currentToken.type = .OpenBracket)
  let obj := obj.set (str "columns") (.arr [])
  let obj ← createLoop rounds obj
  let currentToken ← nextToken
  require (currentToken.type = .END)
  pure (.obj obj)

/-- The loop of `Insert`, up to the closing bracket. -/
def insertLoop : ℕ → Fields → Parse Fields
  | 0, _ => .fail .noReturn
  | rounds + 1, obj => do
    let currentToken ← nextToken
    require currentToken.isValue
    let obj := obj.push (str "values") (.str currentToken.value)
    let currentToken ← nextToken
    if currentToken.type = .CloseBracket then pure obj
    else if currentToken.type = .Comma then insertLoop rounds obj
    else .fail .object

def insert (rounds : ℕ) : Parse Json := do
  let obj := Fields.set (str "op") (.str (str "insert")) []
  let currentToken ← nextToken
  require (currentToken.type = .Word)
  require (← checkWords currentToken.value (str "INTO"))
  let currentToken ← nextToken
  require (currentToken.type = .Word)
  let obj := obj.set (str "table_name") (.str currentToken.value)
  let currentToken ← nextToken
  require (currentToken.type = .Word)
  require (← checkWords currentToken.value (str "VALUES"))
  let currentToken ← nextToken
  require (currentToken.type = .OpenBracket)
  let obj := obj.set (str "values") (.arr [])
  let obj ← insertLoop rounds obj
  let currentToken ← nextToken
  require (currentToken.type = .END)
  pure (.obj obj)

/-- The loop over `w = v {, w = v}`: the object with the pairs pushed to the field
`key`, and the token after them. -/
def pairsLoop (field : Str) : ℕ → Fields → Parse (Fields × Token)
  | 0, _ => .fail .noReturn
  | rounds + 1, obj => do
    let currentToken ← nextToken
    require (currentToken.type = .Word)
    let key := currentToken.value
    let currentToken ← nextToken
    require (currentToken.type = .Equal)
    let currentToken ← nextToken
    require currentToken.isValue
    let value := currentToken.value
    let obj := obj.push field (.arr [.str key, .str value])
    let currentToken ← nextToken
    if currentToken.type = .Comma then pairsLoop field rounds obj else pure (obj, currentToken)

/-- The end of a statement, from its optional `WHERE` on. -/
def whereClause (rounds : ℕ) (obj : Fields) (currentToken : Token) : Parse Json := do
  if currentToken.type = .END then pure (.obj obj)
  else
    require (currentToken.type = .Word)
    require (← checkWords currentToken.value (str "WHERE"))
    let (obj, currentToken) ← pairsLoop (str "where") rounds obj
    require (currentToken.type = .END)
    pure (.obj obj)

/-- The loop of `Select` over the columns after the first: the object, and the token
after them. -/
def selectLoop : ℕ → Fields → Parse (Fields × Token)
  | 0, _ => .fail .noReturn
  | rounds + 1, obj => do
    let currentToken ← nextToken
    if currentToken.type ≠ .Comma then pure (obj, currentToken)
    else
      let currentToken ← nextToken
      require (currentToken.type = .Word)
      selectLoop rounds (obj.push (str "columns") (.str currentToken.value))

/-- The columns of `Select`, and the token after them. -/
def selectColumns (rounds : ℕ) (obj : Fields) (currentToken : Token) : Parse (Fields × Token) := do
  if currentToken.type = .Word then
    selectLoop rounds (obj.push (str "columns") (.str currentToken.value))
  else if currentToken.type = .Any then
    let obj := obj.push (str "columns") (.str (str "*"))
    pure (obj, ← nextToken)
  else .fail .object

def select (rounds : ℕ) : Parse Json := do
  let obj := Fields.set (str "op") (.str (str "select")) []
  let obj := obj.set (str "where") (.arr [])
  let currentToken ← nextToken
  let obj := obj.set (str "columns") (.arr [])
  let (obj, currentToken) ← selectColumns rounds obj currentToken
  -- the type of this token is not checked
  require (← checkWords currentToken.value (str "FROM"))
  let currentToken ← nextToken
  require (currentToken.type = .Word)
  let obj := obj.set (str "table_name") (.str currentToken.value)
  whereClause rounds obj (← nextToken)

def update (rounds : ℕ) : Parse Json := do
  let obj := Fields.set (str "op") (.str (str "update")) []
  let obj := obj.set (str "where") (.arr [])
  let currentToken ← nextToken
  require (currentToken.type = .Word)
  let obj := obj.set (str "table_name") (.str currentToken.value)
  let currentToken ← nextToken
  require (currentToken.type = .Word)
  require (← checkWords currentToken.value (str "SET"))
  let obj := obj.set (str "values") (.arr [])
  let (obj, currentToken) ← pairsLoop (str "values") rounds obj
  whereClause rounds obj currentToken

def delete (rounds : ℕ) : Parse Json := do
  let obj := Fields.set (str "op") (.str (str "delete")) []
  let obj := obj.set (str "where") (.arr [])
  let currentToken ← nextToken
  require (currentToken.type = .Word)
  require (← checkWords currentToken.value (str "FROM"))
  let currentToken ← nextToken
  require (currentToken.type = .Word)
  let obj := obj.set (str "table_name") (.str currentToken.value)
  whereClause rounds obj (← nextToken)

/-- The commands, in some order of the `std::unordered_map`: at most one word matches. -/
def commands (rounds : ℕ) : List (Str × Parse Json) :=
  [(str "CREATE", create rounds), (str "INSERT", insert rounds), (str "SELECT", select rounds),
    (str "UPDATE", update rounds), (str "DELETE", delete rounds)]

def dispatch (value : Str) : List (Str × Parse Json) → Parse Json
  | [] => .fail .object
  | (command, routine) :: commands => do
    if (← checkWords value command) then routine else dispatch value commands

/-- The constructor, which reads the first token, and `Parser::serialize`. -/
def serialize (rounds : ℕ) : Parse Json := do
  let currentToken ← nextToken
  require (currentToken.type = .Word)
  require (currentToken.value.length = 6)
  dispatch currentToken.value (commands rounds)

/-- The lexer answers the parser. -/
def handler : Handler parseInterface Stop Lexer
  | .nextToken, l =>
    match l.next with
    | .ok (token, l') => (.ok token, l')
    | .error e => (.error (.lexer e), l)
  | .ctype o, l => (.ok (cLocale o), l)

/-- An early exit returns the empty object. -/
def result : Except Stop Json → Except Stop Json
  | .error .object => .ok .object
  | r => r

/-- `Lexer l(input); Parser p(l); p.serialize()`. No loop of the parser makes more rounds
than the input has bytes. -/
def parse (input : Str) : Except Stop Json :=
  result ((serialize (input.length + 1)).run handler { input }).1

end Parser

end ToySQL
