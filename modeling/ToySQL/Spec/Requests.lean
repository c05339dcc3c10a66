import ToySQL.Spec.Parser

/-!
# What the parser asks for

`Parser.logging` answers the parser as the lexer does, and keeps the tokens it returns.

`createRound`, `insertRound`, `pairsRound` and `selectRound` are the bodies of the `while`
loops: they end with `.inl` where the source goes on with another iteration, and with
`.inr` where it leaves the loop.
-/

namespace ToySQL

namespace CtypeOp

def arg : CtypeOp → ℤ
  | isspace c => c
  | isdigit c => c
  | isalpha c => c
  | toupper c => c

/-- The argument is the value of an `unsigned char`. -/
def InDomain (o : CtypeOp) : Prop := 0 ≤ o.arg ∧ o.arg ≤ 255

instance (o : CtypeOp) : Decidable o.InDomain := inferInstanceAs (Decidable (_ ∧ _))

end CtypeOp

/-- The calls of `<cctype>` in one call of `nextToken` are in the domain. -/
def Lexer.Classifies (l : Lexer) : Prop :=
  Program.Always cHandler (fun o _ => o.InDomain) l.nextToken ()

namespace Parser

/-- The lexer answers the parser, and its tokens are kept. -/
def logging : Handler parseInterface Stop (Lexer × List Token)
  | .nextToken, (l, log) =>
    match l.next with
    | .ok (token, l') => (.ok token, l', log ++ [token])
    | .error e => (.error (.lexer e), l, log)
  | .ctype o, s => (.ok (cLocale o), s)

/-- The lexer is not called once it has returned `END`. -/
def BeforeEnd : ParseOp → Lexer × List Token → Prop
  | .nextToken, s => ∀ token ∈ s.2, token.type ≠ .END
  | .ctype _, _ => True

/-- The calls of `<cctype>` in a request of the parser are in the domain. -/
def Classifies : ParseOp → Lexer → Prop
  | .nextToken, l => l.Classifies
  | .ctype o, _ => o.InDomain

/-! ## The bodies of the loops -/

def createRound (obj : Fields) : Parse (Fields ⊕ Fields) := do
  let currentToken ← nextToken
  require (currentToken.type = .Word)
  let colName := currentToken.value
  let currentToken ← nextToken
  require (currentToken.type = .Word)
  let colType ← columnType currentToken.value
  let obj := obj.push (str "columns") (.arr [.str colName, .str colType])
  let currentToken ← nextToken
  if currentToken.type = .CloseBracket then pure (.inr obj)
  else if currentToken.type = .Comma then pure (.inl obj)
  else .fail .object

def insertRound (obj : Fields) : Parse (Fields ⊕ Fields) := do
  let currentToken ← nextToken
  require currentToken.isValue
  let obj := obj.push (str "values") (.str currentToken.value)
  let currentToken ← nextToken
  if currentToken.type = .CloseBracket then pure (.inr obj)
  else if currentToken.type = .Comma then pure (.inl obj)
  else .fail .object

/-- The body of the loop over `w = v {, w = v}`. -/
def pairsRound (field : Str) (obj : Fields) : Parse (Fields ⊕ Fields × Token) := do
  let currentToken ← nextToken
  require (currentToken.type = .Word)
  let key := currentToken.value
  let currentToken ← nextToken
  require (currentToken.type = .Equal)
  let currentToken ← nextToken
  require currentToken.isValue
  let value := currentToken.value
  let obj := obj.push field (.arr [.str key, .str value])
  let currentToken ← nextToken
  if currentToken.type = .Comma then pure (.inl obj) else pure (.inr (obj, currentToken))

def selectRound (obj : Fields) : Parse (Fields ⊕ Fields × Token) := do
  let currentToken ← nextToken
  if currentToken.type ≠ .Comma then pure (.inr (obj, currentToken))
  else
    let currentToken ← nextToken
    require (currentToken.type = .Word)
    pure (.inl (obj.push (str "columns") (.str currentToken.value)))

end Parser

end ToySQL
