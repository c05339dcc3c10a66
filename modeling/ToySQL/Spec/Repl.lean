import ToySQL.Spec.Parser

/-!
# The client

`read_input` of `repl.cpp` and the loop of `client.cpp`, over the bytes of the standard
input. What a round does after it handed its text to the lexer and the parser (`dump`,
`send`, `receive` and the reading of the answer) is a parameter: whether it returns.
-/

namespace ToySQL

/-- `std::cin`: the bytes to come and the bits of the stream. -/
structure Stdin where
  rest : Str
  eof : Bool := false
  fail : Bool := false

namespace Stdin

def good (s : Stdin) : Bool := !s.eof && !s.fail

/-- `peek`; `none` is `EOF`. -/
def peek (s : Stdin) : Option UInt8 × Stdin :=
  if s.good then
    match s.rest with
    | [] => (none, { s with eof := true })
    | c :: _ => (some c, s)
  else (none, { s with fail := true })

/-- `std::getline(std::cin, line, delim)` -/
def getline (s : Stdin) (line : Str) (delim : UInt8) : Str × Stdin :=
  if s.good then
    let line := s.rest.takeWhile fun c => c ≠ delim
    match s.rest.drop line.length with
    | [] => (line, { s with rest := [], eof := true, fail := line.isEmpty })
    | _ :: rest => (line, { s with rest })
  else (line, { s with fail := true })

end Stdin

def newline : UInt8 := '\n'.toUInt8

def semicolon : UInt8 := ';'.toUInt8

def readInput (inputBuffer : Str) (s : Stdin) : Str × Stdin :=
  let (ch, s) := s.peek
  if ch = some newline then s.getline inputBuffer newline
  else
    let (inputBuffer, s) := s.getline inputBuffer semicolon
    let (_, s) := s.getline [] newline
    (inputBuffer, s)

structure Client where
  stdin : Stdin
  inputBuffer : Str := []
  /-- The texts that the lexer and the parser got. -/
  handed : List Str := []
  /-- Neither the loop has ended nor an exception. -/
  running : Bool := true

/-- A round of the loop. After the texts `handed`, the exchange of the last one with the
server returns if `exchange handed`. -/
def Client.round (exchange : List Str → Bool) (c : Client) : Client :=
  if c.running then
    let (inputBuffer, stdin) := readInput c.inputBuffer c.stdin
    let c := { c with stdin, inputBuffer }
    if str "exit" = inputBuffer then { c with running := false }
    else if inputBuffer.isEmpty then c
    else
      let handed := c.handed ++ [inputBuffer]
      { c with handed, running := (Parser.parse inputBuffer).isOk && exchange handed }
  else c

/-- Each statement with its `;` and a newline. -/
def typed (statements : List Str) : Str := statements.flatMap fun s => s ++ [semicolon, newline]

/-- The client at the prompt. -/
def Client.start (statements : List Str) : Client := { stdin := { rest := typed statements } }

/-- `Parser::serialize` makes an object of the statement. -/
def Accepted (statement : Str) : Prop :=
  ∃ value, Parser.parse statement = .ok value ∧ value ≠ .object

/-- From some round on, the texts handed over are the statements. -/
def DeliversOnce (exchange : List Str → Bool) (statements : List Str) : Prop :=
  ∃ n, ∀ m ≥ n, ((Client.round exchange)^[m] (.start statements)).handed = statements

end ToySQL
