import SymbolMap.Text.Blank

/-! Records of comma-separated fields. A field may stand in double quotes, where a quote is written
twice, and then hold commas and line ends. -/
namespace SymbolMap.Sheet

/-- The fields of a record, and the line on which the search for it began. -/
structure Record where
  line : Nat
  fields : List Text
deriving DecidableEq

/-- Where in a record the reader stands. -/
inductive Spot
  /-- Before a record, where line ends are passed over. -/
  | between
  /-- Before a field. -/
  | before
  /-- In a field, where a quote is a character like others. -/
  | plain
  | quoted
  /-- After a quote in a quoted field, which may end it. -/
  | afterQuote
deriving DecidableEq

/-- The record read so far, its fields and the characters of the last one in reverse. -/
structure Partial where
  spot : Spot := .between
  field : Text := []
  fields : List Text := []
  /-- The line on which the search for the record began. -/
  start : Nat := 1
  line : Nat := 1

namespace Partial

def push (p : Partial) (spot : Spot) (c : Char) : Partial :=
  { p with spot, field := c :: p.field }

def endField (p : Partial) : Partial :=
  { p with spot := .before, field := [], fields := p.field.reverse :: p.fields }

def record (p : Partial) : Record :=
  ⟨p.start, (p.field.reverse :: p.fields).reverse⟩

end Partial

def isLineEnd (c : Char) : Bool := c == '\n' || c == '\r'

/-- Reads a character outside of quotes. At a line end the record is complete. -/
def readPlain (p : Partial) (c : Char) : Option Record × Partial :=
  if c == ',' then (none, p.endField)
  else if isLineEnd c then (some p.record, { start := p.line, line := p.line })
  else (none, p.push .plain c)

/-- Reads a character. The lines are counted before. -/
def readChar (p : Partial) (c : Char) : Option Record × Partial :=
  match p.spot with
  | .between =>
    if isLineEnd c then (none, p)
    else if c == '"' then (none, { p with spot := .quoted })
    else readPlain p c
  | .before => if c == '"' then (none, { p with spot := .quoted }) else readPlain p c
  | .plain => readPlain p c
  | .quoted => if c == '"' then (none, { p with spot := .afterQuote }) else (none, p.push .quoted c)
  | .afterQuote => if c == '"' then (none, p.push .quoted c) else readPlain p c

/-- A text that ends inside a record ends that record. -/
def readFrom (p : Partial) : Text → List Record
  | [] => if p.spot = .between then [] else [p.record]
  | c :: t =>
    match readChar { p with line := p.line + (c == '\n').toNat } c with
    | (none, p) => readFrom p t
    | (some r, p) => r :: readFrom p t

/-- The records of a text, from which a byte order mark is dropped. -/
def records : Text → List Record
  | '\ufeff' :: t => readFrom {} t
  | t => readFrom {} t

/-- A field that holds a comma, a quote or a line end is written in quotes. -/
def renderField (field : Text) : Text :=
  if field.any fun c => c == ',' || c == '"' || isLineEnd c then
    '"' :: field.flatMap (fun c => if c = '"' then ['"', '"'] else [c]) ++ ['"']
  else field

def renderFields (fields : List Text) : Text :=
  Text.join ',' (fields.map renderField)

end SymbolMap.Sheet
