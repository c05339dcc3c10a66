import ToySQL.Lib.Program

/-!
# The lexer

`Lexer` of `protocol.h` and `protocol.cpp`. Its routines are programs over the calls of
`<cctype>`, so that the arguments of these calls are part of a run; `cLocale` answers
them. A `std::string` is the list of its bytes, and `char` is signed.

A scan stops at the end of the input, hence within `input.length() + 1` rounds.
-/

namespace ToySQL

/-- A `std::string`: its bytes. -/
abbrev Str : Type := List UInt8

/-- The bytes of a string constant. -/
def str (s : String) : Str := s.toList.map Char.toUInt8

/-! ## Character classification -/

/-- The calls of `<cctype>`, with their `int` argument. -/
inductive CtypeOp where
  | isspace (c : ℤ)
  | isdigit (c : ℤ)
  | isalpha (c : ℤ)
  | toupper (c : ℤ)

abbrev CtypeOp.Res : CtypeOp → Type
  | isspace _ => Bool
  | isdigit _ => Bool
  | isalpha _ => Bool
  | toupper _ => ℤ

/-- A `char` where an `int` is expected. -/
def schar (c : UInt8) : ℤ := c.toInt8.toInt

/-- `static_cast<unsigned char>` of a `char` where an `int` is expected. -/
def uchar (c : UInt8) : ℤ := c.toNat

/-- The C locale. Values outside `0 .. 127` are in no class and have no upper case. -/
def cLocale : (o : CtypeOp) → o.Res
  | .isspace c => decide (c = 32 ∨ 9 ≤ c ∧ c ≤ 13)
  | .isdigit c => decide (48 ≤ c ∧ c ≤ 57)
  | .isalpha c => decide (65 ≤ c ∧ c ≤ 90 ∨ 97 ≤ c ∧ c ≤ 122)
  | .toupper c => if 97 ≤ c ∧ c ≤ 122 then c - 32 else c

/-! The classes of the bytes of a string, as the lexer asks for them. -/

def isSpace (c : UInt8) : Bool := cLocale (.isspace (schar c))

def isDigit (c : UInt8) : Bool := cLocale (.isdigit (uchar c))

def isAlpha (c : UInt8) : Bool := cLocale (.isalpha (uchar c))

/-! ## Tokens -/

inductive ToySQLTokenType where
  | Number
  | Word
  | Literal
  | OpenBracket
  | CloseBracket
  | Any
  | Comma
  | Equal
  | END
  | Invalid
deriving DecidableEq

structure Token where
  type : ToySQLTokenType
  value : Str
deriving DecidableEq

/-! ## The routines -/

structure Lexer where
  input : Str
  pos : ℕ := 0
deriving DecidableEq

/-- What a scan cannot end with: `std::string::substr` throws, or a loop goes on. -/
inductive LexFault where
  | outOfRange
  | noReturn

/-- What the lexer asks of the library. -/
abbrev lexInterface : Interface := ⟨CtypeOp, CtypeOp.Res⟩

abbrev Lex (α : Type) : Type := Program lexInterface LexFault α

/-- The C locale answers the lexer. -/
def cHandler : Handler lexInterface LexFault Unit := fun o s => (.ok (cLocale o), s)

def lexCall (o : CtypeOp) : Lex o.Res := Program.perform (I := lexInterface) o

/-- `s.substr(start, count)`. A negative `count` is a huge one after the conversion. -/
def substr (s : Str) (start : ℕ) (count : ℤ) : Lex Str :=
  if s.length < start then .fail .outOfRange
  else if count < 0 then pure (s.drop start)
  else pure ((s.drop start).take count.toNat)

/-- `while (pos < input.length() && p(input[pos])) ++pos;` -/
def scanWhile (p : UInt8 → Lex Bool) (input : Str) : ℕ → ℕ → Lex ℕ
  | 0, _ => .fail .noReturn
  | rounds + 1, pos =>
    match input[pos]? with
    | none => pure pos
    | some c => do if (← p c) then scanWhile p input rounds (pos + 1) else pure pos

namespace Lexer

/-- The loop `scanWhile` from the position of `l` on. -/
def scan (p : UInt8 → Lex Bool) (l : Lexer) : Lex Lexer := do
  let pos ← scanWhile p l.input (l.input.length + 1) l.pos
  pure { l with pos }

def number (l : Lexer) : Lex (Token × Lexer) := do
  let start := l.pos
  let l ← l.scan fun c => lexCall (.isdigit (uchar c))
  pure (⟨.Number, ← substr l.input start (l.pos - start)⟩, l)

def word (l : Lexer) : Lex (Token × Lexer) := do
  let start := l.pos
  let l ← l.scan fun c => lexCall (.isalpha (uchar c))
  let l ← l.scan fun c => lexCall (.isdigit (uchar c))
  pure (⟨.Word, ← substr l.input start (l.pos - start)⟩, l)

def literal (l : Lexer) : Lex (Token × Lexer) := do
  let start := l.pos + 1
  let l ← { l with pos := start }.scan fun c => pure (c ≠ '"'.toUInt8)
  if l.pos = l.input.length then pure (⟨.Invalid, []⟩, l)
  else
    let l := { l with pos := l.pos + 1 }
    pure (⟨.Literal, ← substr l.input start (l.pos - 1 - start)⟩, l)

/-- The token of one character. -/
def single (l : Lexer) (type : ToySQLTokenType) (value : Str) : Lex (Token × Lexer) :=
  pure (⟨type, value⟩, { l with pos := l.pos + 1 })

def nextToken (l : Lexer) : Lex (Token × Lexer) := do
  let l ← l.scan fun c => lexCall (.isspace (schar c))
  match l.input[l.pos]? with
  | none => pure (⟨.END, []⟩, l)
  | some current =>
    if (← lexCall (.isdigit (uchar current))) then l.number
    else if (← lexCall (.isalpha (uchar current))) then l.word
    else if current = '('.toUInt8 then l.single .OpenBracket (str "(")
    else if current = ')'.toUInt8 then l.single .CloseBracket (str ")")
    else if current = '*'.toUInt8 then l.single .Any (str "*")
    else if current = ','.toUInt8 then l.single .Comma (str ",")
    -- the value of an equality sign is a quote
    else if current = '='.toUInt8 then l.single .Equal (str "\"")
    else if current = '"'.toUInt8 then l.literal
    else l.single .Invalid [current]

/-- `nextToken` in the C locale. -/
def next (l : Lexer) : Except LexFault (Token × Lexer) := (l.nextToken.run cHandler ()).1

/-- The tokens of the first `n` calls of `nextToken`. -/
def calls : ℕ → Lexer → List Token
  | 0, _ => []
  | n + 1, l =>
    match l.next with
    | .ok (token, l') => token :: calls n l'
    | .error _ => []

/-- The tokens before the first `END`. Every other token takes a byte of the input. -/
def tokens (l : Lexer) : List Token :=
  (l.calls (l.input.length + 1)).takeWhile fun token => token.type ≠ .END

end Lexer

end ToySQL
