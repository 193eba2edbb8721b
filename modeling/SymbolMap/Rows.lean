import SymbolMap.Event
import SymbolMap.Table

/-! Dialects with one mapping a line: each line is read by itself and what it says is added before the
next one is looked at. So a load that fails at a line has added what stands before it. -/
namespace SymbolMap

/-- What one line says: a mapping, or one of another side that is not wanted. -/
inductive Row
  | entry (kind : Kind) (e : Entry)
  | otherSide (told : List Event)

/-- How far a load has come. -/
structure Progress where
  table : Table
  added : Nat := 0
  skipped : Nat := 0
  events : Array Event := #[]

namespace Progress

def take (overwrite : Bool) (p : Progress) (row : Row) : Progress :=
  match p, row with
  | ⟨table, added, skipped, events⟩, .entry kind e =>
    let (table, changed) := table.add kind e overwrite
    ⟨table, added + changed.toNat, skipped, events⟩
  | ⟨table, added, skipped, events⟩, .otherSide told =>
    ⟨table, added, skipped + 1, events ++ told⟩

/-- Takes the rows up to the first line that could not be read. -/
def takeAll (overwrite : Bool) (p : Progress) :
    List (Line × Except Fault Row) → Progress × Option FormatError
  | [] => (p, none)
  | (_, .ok row) :: rows => takeAll overwrite (p.take overwrite row) rows
  | (line, .error fault) :: _ => (p, some ⟨line, fault⟩)

end Progress

/-- The rows of a text in which every line that is no comment is a row. -/
def rowsOf (read : Text → Except Fault Row) (text : Text) : List (Line × Except Fault Row) :=
  (Text.meaningful text).map fun line => (line, read line.text)

end SymbolMap
