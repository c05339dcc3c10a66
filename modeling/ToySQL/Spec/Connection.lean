import ToySQL.Spec.Parser

/-!
# The connection

`ConnectionHandler::run` of `TCPStream.cpp` on one work item: the loop over the results of
`TCPStream::receive`. The text functions of `nlohmann::json` are parameters. A client
sends the text of a statement and waits for an answer before it reads the next one, so
each statement arrives in pieces of its own.
-/

namespace ToySQL

/-- `json::dump` and `json::parse`; `none` is an exception. -/
structure JsonText where
  dump : Json → Option Str
  parse : Str → Option Json

/-- What the connection relies on. -/
structure JsonText.Lawful (J : JsonText) : Prop where
  parse_dump {x text} : J.dump x = some text → J.parse text = some x
  parse_empty : J.parse [] = none
  parse_prefix {fields text piece} : J.dump (.obj fields) = some text → piece <+: text →
    piece ≠ text → J.parse piece = none
  /-- Control characters are escaped. -/
  dump_nul {x text} : J.dump x = some text → 0 ∉ text

/-- `sizeof(input)` -/
def sizeofInput : ℕ := 256

/-- A `char` array as the text before its first NUL. -/
def cString (buffer : Str) : Str := buffer.takeWhile fun c => c ≠ 0

namespace ConnectionHandler

/-- The buffer after `receive` and `input[len] = 0`. -/
def fill (input piece : Str) : Str := piece ++ 0 :: input.drop (piece.length + 1)

def response : Str := str "\x7b\"status\":\"ok\"\x7d"

/-- What the loop did until `receive` returned 0. -/
@[ext]
structure Handled where
  parsed : List Json := []
  sent : List Str := []
  /-- An exception of `json::parse` left `run`. -/
  escaped : Bool := false

/-- The loop over the results of `receive`; `input` is what the buffer holds. -/
def run (J : JsonText) (input : Str) : List Str → Handled
  | [] => {}
  | piece :: pieces =>
    let input := fill input piece
    match J.parse (cString input) with
    | none => { escaped := true }
    | some json =>
      let later := run J input pieces
      { later with parsed := json :: later.parsed, sent := response :: later.sent }

end ConnectionHandler

/-- A statement on its way: the text of its JSON value, cut in any way into results of
`receive`. -/
structure Delivery (J : JsonText) where
  statement : Str
  value : Json
  text : Str
  pieces : List Str
  parsed : Parser.parse statement = .ok value
  dumped : J.dump value = some text
  sizes : ∀ piece ∈ pieces, piece ≠ [] ∧ piece.length ≤ sizeofInput - 1
  bytes : pieces.flatten = text

/-- The connection hands over each value once and answers it once, and nothing escapes. -/
def DeliversWhole (J : JsonText) (input : Str) (deliveries : List (Delivery J)) : Prop :=
  ConnectionHandler.run J input (deliveries.flatMap (·.pieces)) =
    { parsed := deliveries.map (·.value)
      sent := deliveries.map fun _ => ConnectionHandler.response
      escaped := false }

end ToySQL
