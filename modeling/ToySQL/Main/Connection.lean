import ToySQL.Proof.Parsing
import ToySQL.Spec.Connection

/-!
# The connection and the statements

* `deliversWhole_iff`: the connection delivers the statements of a client exactly if each
  of them arrives in one piece.
* `DeliversWhole.length`: then no text is longer than the buffer.
-/

namespace ToySQL

variable {J : JsonText} {input piece : Str} {deliveries : List (Delivery J)}

/-- The parser returns objects. -/
theorem Parser.parse_obj {statement : Str} {value : Json} (h : Parser.parse statement = .ok value) :
    ∃ fields, value = .obj fields := by
  rw [Parser.parse_read] at h
  obtain rfl := Except.ok.inj h
  rcases readStatement (statement.length + 1) (tokensOf statement) with _ | stmt
  · exact ⟨[], rfl⟩
  · cases stmt <;> exact ⟨_, rfl⟩

/-- Without a NUL in it a piece is read from the buffer as it was sent. -/
theorem cString_fill (h : 0 ∉ piece) : cString (ConnectionHandler.fill input piece) = piece :=
  takeWhile_delim h _

namespace Delivery

/-- The text of a value is not empty. -/
theorem text_ne_nil (hJ : J.Lawful) (m : Delivery J) : m.text ≠ [] := by
  intro h
  have hparse := hJ.parse_dump m.dumped
  rw [h, hJ.parse_empty] at hparse
  cases hparse

/-- No piece of a text has a NUL in it. -/
theorem nul_of_mem (hJ : J.Lawful) (m : Delivery J) (hp : piece ∈ m.pieces) : 0 ∉ piece := by
  intro h0
  apply hJ.dump_nul m.dumped
  rw [← m.bytes]
  exact List.mem_flatten.2 ⟨piece, hp, h0⟩

/-- A piece that is not the last one is no JSON text. -/
theorem parse_piece (hJ : J.Lawful) (m : Delivery J) {next : Str} {pieces : List Str}
    (h : m.pieces = piece :: next :: pieces) : J.parse piece = none := by
  obtain ⟨fields, hvalue⟩ := Parser.parse_obj m.parsed
  have hbytes : piece ++ (next ++ pieces.flatten) = m.text := by
    rw [← m.bytes, h, List.flatten_cons, List.flatten_cons]
  have hnext : next ≠ [] := (m.sizes next (by simp [h])).1
  refine hJ.parse_prefix (hvalue ▸ m.dumped) ⟨_, hbytes⟩ fun heq => ?_
  rw [← heq, List.append_right_eq_self, List.append_eq_nil_iff] at hbytes
  exact hnext hbytes.1

/-- The pieces of a statement: the whole text, or a first piece that is no JSON text. -/
theorem pieces_cases (hJ : J.Lawful) (m : Delivery J) :
    m.pieces = [m.text] ∨ ∃ piece next pieces, m.pieces = piece :: next :: pieces := by
  rcases hp : m.pieces with _ | ⟨piece, _ | ⟨next, pieces⟩⟩
  · have hbytes := m.bytes
    rw [hp, List.flatten_nil] at hbytes
    exact absurd hbytes.symm (m.text_ne_nil hJ)
  · have hbytes := m.bytes
    rw [hp, List.flatten_singleton] at hbytes
    exact Or.inl (by rw [hbytes])
  · exact Or.inr ⟨piece, next, pieces, rfl⟩

end Delivery

/-- A value that arrives whole is answered, and the loop goes on. -/
theorem run_whole (hJ : J.Lawful) (m : Delivery J) (pieces : List Str) :
    ConnectionHandler.run J input (m.text :: pieces) =
      { parsed := m.value ::
        (ConnectionHandler.run J (ConnectionHandler.fill input m.text) pieces).parsed
        sent := ConnectionHandler.response ::
          (ConnectionHandler.run J (ConnectionHandler.fill input m.text) pieces).sent
        escaped :=
          (ConnectionHandler.run J (ConnectionHandler.fill input m.text) pieces).escaped } := by
  rw [ConnectionHandler.run, cString_fill (hJ.dump_nul m.dumped), hJ.parse_dump m.dumped]

/-- A piece that is no value ends the loop by an exception. -/
theorem run_cut (hnul : 0 ∉ piece) (h : J.parse piece = none) (pieces : List Str) :
    ConnectionHandler.run J input (piece :: pieces) = { escaped := true } := by
  rw [ConnectionHandler.run, cString_fill hnul, h]

/-- **A connection delivers its statements** exactly if each arrives in one piece. -/
theorem deliversWhole_iff (hJ : J.Lawful) (input : Str) (deliveries : List (Delivery J)) :
    DeliversWhole J input deliveries ↔ ∀ m ∈ deliveries, m.pieces = [m.text] := by
  induction deliveries generalizing input with
  | nil => simp [DeliversWhole, ConnectionHandler.run]
  | cons m deliveries ih =>
    rw [List.forall_mem_cons, ← ih (ConnectionHandler.fill input m.text)]
    rcases m.pieces_cases hJ with hp | ⟨piece, next, pieces, hp⟩
    · rw [DeliversWhole, List.flatMap_cons, hp, List.singleton_append, run_whole hJ]
      simp [DeliversWhole, ConnectionHandler.Handled.ext_iff]
    · have hnul : 0 ∉ piece := m.nul_of_mem hJ (by simp [hp])
      rw [DeliversWhole, List.flatMap_cons, hp, List.cons_append,
        run_cut hnul (m.parse_piece hJ hp)]
      simp

/-- Each text is shorter than the buffer. -/
theorem DeliversWhole.length (hJ : J.Lawful) (h : DeliversWhole J input deliveries) :
    ∀ m ∈ deliveries, m.text.length < sizeofInput := by
  intro m hm
  have hp := (deliversWhole_iff hJ input deliveries).1 h m hm
  have hle := (m.sizes m.text (by simp [hp])).2
  rw [sizeofInput] at hle ⊢
  omega

/-! ## A statement in one piece and in two -/

/-- The text of the object of `DELETE FROM t`. -/
def deleteObject : Str := str "\x7b\"op\":\"delete\",\"table_name\":\"t\",\"where\":[]\x7d"

def dumpDelete : Json → Option Str
  | .obj [(op, .str name), (key, .str table), (wheres, .arr [])] =>
    if [op, name, key, table, wheres] =
      [str "op", str "delete", str "table_name", str "t", str "where"] then
      some deleteObject
    else none
  | _ => none

/-- The text functions, as far as they concern `DELETE FROM t`. -/
def deleteText : JsonText where
  dump := dumpDelete
  parse text := if text = deleteObject then some (Statement.delete (str "t") []).json else none

theorem deleteText_parse {text : Str} (h : text ≠ deleteObject) : deleteText.parse text = none :=
  if_neg h

theorem deleteText_dump {x : Json} {text : Str} (h : deleteText.dump x = some text) :
    x = (Statement.delete (str "t") []).json ∧ text = deleteObject := by
  change dumpDelete x = some text at h
  unfold dumpDelete at h
  split at h
  · split at h
    case isTrue heq =>
      simp only [List.cons.injEq, and_true] at heq
      obtain ⟨rfl, rfl, rfl, rfl, rfl⟩ := heq
      exact ⟨rfl, (Option.some.inj h).symm⟩
    case isFalse => cases h
  · cases h

/-- The one-value library of the examples is lawful. -/
theorem deleteText_lawful : deleteText.Lawful where
  parse_dump h := by
    obtain ⟨hx, htext⟩ := deleteText_dump h
    rw [hx]
    exact if_pos htext
  parse_empty := deleteText_parse (by decide)
  parse_prefix h _ hne := by
    obtain ⟨-, htext⟩ := deleteText_dump h
    exact deleteText_parse (htext ▸ hne)
  dump_nul h := by
    obtain ⟨-, htext⟩ := deleteText_dump h
    rw [htext]
    decide

/-- `DELETE FROM t`, received in some pieces. -/
def deliverDelete (pieces : List Str)
    (sizes : ∀ piece ∈ pieces, piece ≠ [] ∧ piece.length ≤ sizeofInput - 1)
    (bytes : pieces.flatten = deleteObject) : Delivery deleteText where
  statement := str "DELETE FROM t"
  value := (Statement.delete (str "t") []).json
  text := deleteObject
  pieces
  parsed := rfl
  dumped := rfl
  sizes
  bytes

def deleteOnce : Delivery deleteText := deliverDelete [deleteObject] (by decide) (by decide)

/-- The first byte comes alone. -/
def deleteTwice : Delivery deleteText :=
  deliverDelete [deleteObject.take 1, deleteObject.drop 1] (by decide) (by decide)

theorem deliversWhole_iff_delete :
    DeliversWhole deleteText [] [deleteOnce, deleteTwice] ↔
      ∀ m ∈ [deleteOnce, deleteTwice], m.pieces = [m.text] :=
  deliversWhole_iff deleteText_lawful [] [deleteOnce, deleteTwice]

/-- The first piece is no JSON text, and the exception leaves `run`. -/
theorem not_deliversWhole_cut :
    deleteText.Lawful ∧ ¬ DeliversWhole deleteText [] [deleteTwice] := by
  refine ⟨deleteText_lawful, fun hwhole => ?_⟩
  have hrun : ConnectionHandler.run deleteText [] deleteTwice.pieces = { escaped := true } :=
    run_cut (by decide) (deleteText_parse (by decide)) _
  rw [DeliversWhole, List.flatMap_singleton, hrun] at hwhole
  cases hwhole

end ToySQL
