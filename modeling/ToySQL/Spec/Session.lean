import ToySQL.Spec.Table

/-!
# Using a table

How the table is used: the page 0 of a new file is made a root leaf, rows are inserted
by a lookup followed by an insertion at the cursor, and a scan follows the cursor from
the start of the table to its end.
-/

namespace ToySQL

variable {P : Type}

/-- Page 0 becomes an empty root leaf. -/
def initializeTable : Prog P Unit := do
  initializeLeafNode (← getPage rootPageNum)
  setNodeRoot (← getPage rootPageNum) true

/-- A row and the key it is stored under. -/
structure Insertion where
  key : UInt32
  row : Row
deriving DecidableEq

/-- `table_find` and then `leaf_node_insert` at the cursor. -/
def insertRow (fuel : ℕ) (op : Insertion) : Prog P Unit := do
  let cursor ← tableFind fuel op.key.toNat
  leafNodeInsert fuel cursor op.key.toNat op.row

def insertRows (fuel : ℕ) : List Insertion → Prog P Unit
  | [] => return ()
  | op :: ops => do
    insertRow fuel op
    insertRows fuel ops

/-- The keys seen from a cursor on, until `end_of_table`; at most `steps` of them. -/
def scanFrom : ℕ → Cursor → Prog P (List ℕ)
  | 0, _ => fault .noReturn
  | steps + 1, cursor =>
    if cursor.endOfTable then return []
    else do
      let key ← load (← getPage cursor.pageNum) (.leafKey cursor.cellNum)
      let rest ← scanFrom steps (← cursor.advance)
      return key :: rest

def scan (fuel steps : ℕ) : Prog P (List ℕ) := do
  scanFrom steps (← tableStart fuel)

end ToySQL
