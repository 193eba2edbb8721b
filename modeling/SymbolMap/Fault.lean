import SymbolMap.Descriptor.Basic
import SymbolMap.Kind
import SymbolMap.Text.Lines
import SymbolMap.Text.Number

/-! What can be wrong with a line of mappings. -/
namespace SymbolMap

/-- The columns of a spreadsheet that matter. -/
inductive Column
  | searge | name | side
deriving DecidableEq

namespace Column

def all : List Column := [searge, name, side]

def label : Column → String
  | searge => "searge"
  | name => "name"
  | side => "side"

def ofLabel? (t : Text) : Option Column :=
  all.find? fun c => c.label.toList == t

end Column

inductive Fault
  | missingKind
  | unrecognizedKind (e : UnrecognizedKind)
  | missingSide
  | emptyName
  | missingDeobf
  | tooManyNames
  | partCount (kind : Kind) (count : Nat)
  | fewSections
  | sectionCount (kind : Kind) (count : Nat)
  | classSectionCount
  | packagesUnsupported
  | invalidDescriptor (e : InvalidDescriptor)
  | missingDescriptor (kind : Kind)
  | missingImport
  | emptyAccess
  | packageAccess
  | classAccess
  | classBeforePackage
  | memberBeforeClass (kind : Kind)
  | columnCount (expected count : Nat)
  | invalidField (index : Nat) (e : NumberFault)
  | missingColumn (column : Column)
  | duplicateColumn (column : Column)
deriving DecidableEq

namespace Fault

/-- The member kinds as a sentence about one starts. -/
def memberLabel : Kind → String
  | .field => "Field"
  | .constructor => "Constructor"
  | _ => "Method"

def memberWord : Kind → String
  | .field => "field"
  | .constructor => "constructor"
  | _ => "method"

def reason : Fault → String
  | missingKind => "Missing kind"
  | unrecognizedKind e => e.message
  | missingSide => "Missing side"
  | emptyName => "Empty name"
  | missingDeobf => "Missing deobfuscated name"
  | tooManyNames => "Too many names"
  | partCount kind count => "Unexpected number of parts for " ++ kind.name ++ ": " ++ toString count
  | fewSections => "Not enough sections"
  | sectionCount kind count =>
    "Unexpected number of sections for " ++ kind.name ++ ": " ++ toString count
  | classSectionCount => "Unexpected number of sections for CLASS"
  | packagesUnsupported => "Packages aren't supported"
  | invalidDescriptor e => e.message
  | missingDescriptor kind => "Missing " ++ memberWord kind ++ " descriptor"
  | missingImport => "Missing import name"
  | emptyAccess => "Empty access transformation"
  | packageAccess => "Packages can't have access transformations"
  | classAccess => "Invalid class access transformation"
  | classBeforePackage => "Class before package"
  | memberBeforeClass kind => memberLabel kind ++ " before class"
  | columnCount expected count =>
    "Expected " ++ toString expected ++ " columns, but got " ++ toString count
  | invalidField index e => "Invalid row: field " ++ toString index ++ ": " ++ e.message
  | missingColumn column => "Invalid row: missing field \x60" ++ column.label ++ "\x60"
  | duplicateColumn column => "Invalid row: duplicate field \x60" ++ column.label ++ "\x60"

end Fault

/-- A line that cannot be read, which ends the load. -/
structure FormatError where
  line : Line
  fault : Fault
deriving DecidableEq

namespace FormatError

def reason (e : FormatError) : String := e.fault.reason

def message (e : FormatError) : String :=
  "Format error on line " ++ toString e.line.number ++ ": " ++ e.reason ++
    " (" ++ e.line.text.quoted ++ ")"

end FormatError

/-- The kind that a word on a line names. -/
def Kind.readWord (word : Text) : Except Fault Kind :=
  (Kind.read word).mapError .unrecognizedKind

/-- The descriptor that a word on a line gives. -/
def Descriptor.readWord (word : Text) : Except Fault Descriptor :=
  (Descriptor.read word).mapError .invalidDescriptor

end SymbolMap
