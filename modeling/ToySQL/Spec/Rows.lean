import ToySQL.Spec.Session

/-!
# Reading rows

`Row::deserialize` of `tuple.cpp`, which decodes a buffer, and `Cursor::value` of
`btree.cpp`, which points to a `Row` inside a page. `Row.ofMemory` is the `Row` that is
seen at 260 bytes of memory, with the offsets of `Row`'s own layout.
-/

namespace ToySQL

/-- `Row::deserialize`. The text of the new row is zero before `text_size` bytes of it are
copied. -/
def Row.deserialize (buffer : Bytes rowSize) : Row :=
  let textSize := UInt8.ofNat (buffer.slice textSizeOffset 1).toNat
  { id := UInt32.ofNat (buffer.slice idOffset 4).toNat
    textSize
    text := (Bytes.zero 255).splice 0 (buffer.slice textOffset textSize.toNat) }

/-- The fields of the `Row` at these bytes. -/
def Row.ofMemory (memory : Bytes rowSize) : Row where
  id := UInt32.ofNat (memory.slice idOffset 4).toNat
  textSize := UInt8.ofNat (memory.slice textSizeOffset 1).toNat
  text := memory.slice textOffset 255

/-- `Cursor::value`: the page of the cursor, and the place of the row in it. -/
def Cursor.value {P : Type} (cursor : Cursor) : Prog P (P × Loc) := do
  let data ← getPage cursor.pageNum
  return (data, .leafValue cursor.cellNum)

/-- The `Row` seen at a place in the entry at an address. -/
def Pager.rowAt (s : Pager) (data : Addr) (l : Loc) : Row :=
  Row.ofMemory ((s.heap.entry data).data.slice l.offset rowSize)

/-- The `Row` seen through the cursor. -/
def Pager.seen (s : Pager) (cursor : Cursor) : Option Row :=
  match cursor.value.run Pager.handler s with
  | (.ok (data, l), s') => some (s'.rowAt data l)
  | (.error _, _) => none

end ToySQL
