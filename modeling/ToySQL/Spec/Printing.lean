import ToySQL.Spec.Session

/-!
# Printing the tree

`Table::print_tree` and `indent`. What is printed is a list of lines; the text of a line comes
after its indentation.
-/

namespace ToySQL

/-- `indent`: two blanks for each level. -/
def indent : ℕ → String
  | 0 => ""
  | level + 1 => "  " ++ indent level

inductive Printed where
  | leaf (size : ℕ)
  | cell (key : ℕ)
  | internal (size : ℕ)
  | separator (key : ℕ)
deriving DecidableEq

def Printed.text : Printed → String
  | leaf size => "- leaf (size " ++ toString size ++ ")\n"
  | cell key => "- " ++ toString key ++ "\n"
  | internal size => "- internal (size " ++ toString size ++ ")\n"
  | separator key => "- key " ++ toString key ++ "\n"

structure Line where
  level : ℕ
  printed : Printed
deriving DecidableEq

def Line.text (line : Line) : String := indent line.level ++ line.printed.text

variable {P : Type}

/-- The keys of a leaf: `count` more, from cell `i` on. -/
def printCells (data : P) (level : ℕ) : ℕ → ℕ → Prog P (List Line)
  | 0, _ => return []
  | count + 1, i => do
    let key ← load data (.leafKey i)
    let rest ← printCells data level count (i + 1)
    return ⟨level, .cell key⟩ :: rest

section

-- the recursive call, `print_tree`
variable (next : ℕ → ℕ → Prog P (List Line))

/-- The children and keys of an internal node: `count` more, from cell `i` on. -/
def printChildren (data : P) (level : ℕ) : ℕ → ℕ → Prog P (List Line)
  | 0, _ => return []
  | count + 1, i => do
    let child ← load data (← internalNodeChild data i)
    let below ← next child level
    let key ← load data (.internalKey i)
    let rest ← printChildren data level count (i + 1)
    return below ++ ⟨level, .separator key⟩ :: rest

def printTreeStep (pageNum level : ℕ) : Prog P (List Line) := do
  let data ← getPage pageNum
  match ← getNodeType data with
  | .leaf =>
    let numKeys ← load data .numCells
    let cells ← printCells data (u32 (level + 1)) numKeys 0
    return ⟨level, .leaf numKeys⟩ :: cells
  | .internal =>
    let numKeys ← load data .numKeys
    if numKeys > 0 then
      let cells ← printChildren next data (u32 (level + 1)) numKeys 0
      let child ← load data .rightChild
      let last ← next child (u32 (level + 1))
      return ⟨level, .internal numKeys⟩ :: (cells ++ last)
    else return [⟨level, .internal numKeys⟩]
  | .other _ => fault (.exit "Unknown NodeType in print_tree")

end

/-- `Table::print_tree`. -/
def printTree : ℕ → ℕ → ℕ → Prog P (List Line)
  | 0 => printTreeStep fun _ _ => fault .noReturn
  | fuel + 1 => printTreeStep (printTree fuel)

end ToySQL
