import SymbolMap.Text.Quoted

/-! The kinds of names that a mapping table holds. -/
namespace SymbolMap

/-- Constructors share the names of the methods, where they are called `<init>` and told apart by
their descriptors. -/
inductive Kind
  | package
  | class_
  | method
  | field
  | constructor
deriving DecidableEq, Repr

/-- A word that names no kind. -/
structure UnrecognizedKind where
  word : Text
deriving DecidableEq

def UnrecognizedKind.message (e : UnrecognizedKind) : String :=
  "Unrecognized kind " ++ e.word.quoted

namespace Kind

def all : List Kind := [package, class_, method, field, constructor]

/-- The kinds that have entries of their own, in the order in which they are written. -/
def storable : List Kind := [package, class_, field, method]

def name : Kind → String
  | package => "PACKAGE"
  | class_ => "CLASS"
  | method => "METHOD"
  | field => "FIELD"
  | constructor => "CONSTRUCTOR"

/-- The two letters that start a line of the columnar dialect. -/
def shortName : Kind → String
  | package => "PK"
  | class_ => "CL"
  | method => "MD"
  | field => "FD"
  | constructor => "CS"

/-- The words that stand for a kind, its name first. -/
def aliases : Kind → List String
  | constructor => [name constructor, shortName constructor, "CSTR"]
  | kind => [name kind, shortName kind]

/-- The kind whose names it shares. -/
def base : Kind → Kind
  | constructor => method
  | kind => kind

@[simp] theorem base_base (kind : Kind) : kind.base.base = kind.base := by
  cases kind <;> rfl

theorem base_ne_constructor (kind : Kind) : kind.base ≠ constructor := by
  cases kind <;> decide

theorem mem_storable_iff (kind : Kind) : kind ∈ storable ↔ kind.base = kind := by
  cases kind <;> decide

def isMember : Kind → Bool
  | method | field | constructor => true
  | package | class_ => false

/-- Whether the names of this kind end in a method descriptor. -/
def hasDescriptor (kind : Kind) : Bool :=
  kind.base = method

/-- A word stands for a kind in capitals, in small letters or in a mix of them. -/
def ofAlias? (word : Text) : Option Kind :=
  all.find? fun kind => kind.aliases.any fun known =>
    known.toList == word.map Char.toUpper

def read (word : Text) : Except UnrecognizedKind Kind :=
  match ofAlias? word with
  | some kind => .ok kind
  | none => .error ⟨word⟩

theorem ofAlias?_name (kind : Kind) : ofAlias? kind.name.toList = some kind := by
  cases kind <;> decide

theorem ofAlias?_shortName (kind : Kind) : ofAlias? kind.shortName.toList = some kind := by
  cases kind <;> decide

end Kind
end SymbolMap
