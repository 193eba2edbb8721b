import SymbolMap.Text.Basic

/-! The parts of a qualified name: owner, local name and, for methods, the descriptor. -/
namespace SymbolMap.MemberName

/-- A method's name ends in a space and its descriptor, which starts with a parenthesis. -/
def splitDescriptor (name : Text) : Text × Option Text :=
  match Text.cutLast (· == ' ') name with
  | some (before, '(' :: rest) => (before, some ('(' :: rest))
  | _ => (name, none)

def isSeparator (c : Char) : Bool := c == '.' || c == ' '

/-- The owner stands before the last dot, or before the space that splits it from a method's name. -/
def splitOwner (name : Text) : Option Text × Text :=
  match Text.cutLast isSeparator name with
  | some (owner, rest) => (some owner, rest)
  | none => (none, name)

/-- The name without its owner, after all that comes before it. -/
def splitLocal (name : Text) : Text × Text :=
  Text.breakLast isSeparator name

def withDescriptor (name : Text) (descriptor : Option Text) : Text :=
  match descriptor with
  | some d => name ++ ' ' :: d
  | none => name

/-- A name inside an owner; the empty owner adds nothing. -/
def qualify (owner name : Text) : Text :=
  if owner.isEmpty then name else owner ++ '.' :: name

/-- The form of a name with dots between its parts. -/
def dotted (name : Text) : Text := Text.replaceChar '/' '.' name

/-- The form of a name with slashes between its parts. -/
def slashed (name : Text) : Text := Text.replaceChar '.' '/' name

/-- The local name of all constructors. -/
def init : Text := "<init>".toList

end SymbolMap.MemberName
