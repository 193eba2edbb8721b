import SymbolMap.Dialect.Flat
import SymbolMap.Dialect.MemberLines.Reading
import SymbolMap.Dialect.MemberLines.Writing
import SymbolMap.Dialect.Outline.Loading
import SymbolMap.Dialect.Outline.Writing
import SymbolMap.Dialect.Spec
import SymbolMap.Dialect.ThreeWay

/-! Loading and storing in any of the dialects. -/
namespace SymbolMap.Dialect

/-- The rows of a text, in the dialects that have one mapping a line. -/
def rows? (d : Dialect) (text : Text) : Option (List (Line × Except Fault Row)) :=
  match d with
  | flat => some (rowsOf Flat.read text)
  | sidedFlat side => some (rowsOf (Flat.readSided side) text)
  | threeWay strip => some (rowsOf (ThreeWay.read strip) text)
  | columns o => some (rowsOf (Columns.read o) text)
  | sheet o => some (Sheet.rows o text)
  | outline | memberLines => none

/-- What is told when all rows have been taken. -/
def told (d : Dialect) (p : Progress) : List Event :=
  match d with
  | flat => [.loadedFlat p.added]
  | sidedFlat side => [.loadedSided p.added side p.skipped]
  | threeWay _ => [.loadedThreeWay p.added]
  | columns _ => [.loadedColumns p.added p.skipped]
  | sheet o => [.loadedSheet p.added o.kind p.skipped]
  | outline | memberLines => []

def loadRows (d : Dialect) (rows : List (Line × Except Fault Row)) (t : Table)
    (overwrite : Bool) : Load Unit :=
  match ({ table := t } : Progress).takeAll overwrite rows with
  | (p, none) => ⟨p.table, p.events.toList ++ d.told p, .ok ()⟩
  | (p, some e) => ⟨p.table, p.events.toList, .error (.format e)⟩

/-- Loads a text into a table. Outlines find their imports on the disk. -/
def load (disk : Disk) (d : Dialect) (text : Text) (t : Table) (overwrite : Bool) : Load Unit :=
  match d.rows? text with
  | some rows => d.loadRows rows t overwrite
  | none =>
    if d = outline then
      (Outline.loadText (.disk disk) text t overwrite).andTell Outline.Report.told
    else MemberLines.load text t overwrite

/-- Loads what a stream holds. -/
def loadContent (disk : Disk) (d : Dialect) (content : Content) (t : Table) (overwrite : Bool) :
    Load Unit :=
  match content with
  | .text text => d.load disk text t overwrite
  | .binary => .refused t .readStream ⟨⟨[]⟩, .notText⟩

/-- Loads a file; an outline finds its imports next to it. -/
def loadPath (disk : Disk) (d : Dialect) (path : Path) (t : Table) (overwrite : Bool) :
    Load Unit :=
  if d = outline then
    (Outline.loadPath (.disk disk) disk path t overwrite).andTell Outline.Report.told
  else
    match disk.read path with
    | .error e => .refused t (.readPath path) e
    | .ok text => d.load disk text t overwrite

/-- What the dialect writes for a table. -/
def list (d : Dialect) (t : Table) : Listing :=
  match d with
  | flat => Flat.list t
  | sidedFlat side => Flat.listSided side t
  | threeWay _ => ThreeWay.list t
  | columns o => Columns.list o t
  | sheet o => Sheet.list o t
  | outline => Outline.list t
  | memberLines => MemberLines.list t

end SymbolMap.Dialect
