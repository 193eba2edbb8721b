import SymbolMap.Dialect.Sheet.Record
import SymbolMap.Listing
import SymbolMap.Rows

/-! The spreadsheet dialect: each record maps a searge name to a readable one for a side. All are of
the one kind that the dialect is set up with. -/
namespace SymbolMap.Sheet

/-- The number that marks what both sides have. -/
def bothSides : UInt32 := 2

structure Options where
  kind : Kind
  side : Option UInt32 := none
deriving DecidableEq

def Options.accepts (o : Options) (side : UInt32) : Bool :=
  match o.side with
  | some wanted => side = wanted || side = bothSides
  | none => true

/-- The text with an empty line for each comment, so that lines keep their numbers. -/
def blankComments (text : Text) : Text :=
  Text.join '\n' ((Text.lines text).map fun line => if Text.isComment line then [] else line)

/-- The fields of a record that have been found. -/
structure Found where
  searge : Option Text := none
  name : Option Text := none
  side : Option UInt32 := none

/-- Puts a field where its column says; columns without a meaning are passed over. -/
def Found.put (f : Found) (index : Nat) (column : Option Column) (field : Text) :
    Except Fault Found :=
  match column with
  | none => .ok f
  | some .searge =>
    if f.searge.isSome then .error (.duplicateColumn .searge) else .ok { f with searge := field }
  | some .name =>
    if f.name.isSome then .error (.duplicateColumn .name) else .ok { f with name := field }
  | some .side =>
    if f.side.isSome then .error (.duplicateColumn .side)
    else
      match Number.readEither field with
      | .ok side => .ok { f with side }
      | .error e => .error (.invalidField index e)

def Found.putAll (f : Found) : List ((Option Column × Text) × Nat) → Except Fault Found
  | [] => .ok f
  | ((column, field), index) :: rest =>
    match f.put index column field with
    | .ok f => f.putAll rest
    | .error e => .error e

/-- What a record says, once all columns are found. -/
def Found.row (o : Options) (f : Found) : Except Fault Row :=
  match f.searge, f.name, f.side with
  | none, _, _ => .error (.missingColumn .searge)
  | _, none, _ => .error (.missingColumn .name)
  | _, _, none => .error (.missingColumn .side)
  | some searge, some name, some side =>
    if searge.isEmpty || name.isEmpty then .error .emptyName
    else .ok (if o.accepts side then .entry o.kind (.twoWay searge name) else .otherSide [])

/-- Each record has as many fields as the header; white space around one does not count. -/
def readRecord (o : Options) (columns : List (Option Column)) (r : Record) : Except Fault Row :=
  if r.fields.length = columns.length then do
    let f ← ({} : Found).putAll (columns.zip (r.fields.map Text.trim)).zipIdx
    f.row o
  else .error (.columnCount columns.length r.fields.length)

/-- The line of a text that has this number. -/
def sourceLine (lines : Array Text) (number : Nat) : Line :=
  ⟨number, (lines[number - 1]?).getD []⟩

/-- The first record is the header; without one there is nothing to read. -/
def rows (o : Options) (text : Text) : List (Line × Except Fault Row) :=
  match records (blankComments text) with
  | [] => []
  | header :: rest =>
    let columns := header.fields.map fun field => Column.ofLabel? (Text.trim field)
    let lines := (Text.lines text).toArray
    rest.map fun r => (sourceLine lines r.line, readRecord o columns r)

def header : Text := "searge,name,side,desc".toList

def render (o : Options) (e : Entry) : Text :=
  renderFields [e.obf, e.deobf, Number.render (o.side.getD bothSides), []]

def list (o : Options) (t : Table) : Listing :=
  .line header :: (t.entries o.kind).map fun e => .line (render o e)

end SymbolMap.Sheet
