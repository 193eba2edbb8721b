import SymbolMap.Dialect.Outline.Access
import SymbolMap.Dialect.Outline.Item
import SymbolMap.Dialect.Outline.Triple

/-! What an outline declares: each line inside the package and the class that stand above it. -/
namespace SymbolMap.Outline

/-- Methods wait for their obfuscated descriptors until all classes are known. -/
inductive Declaration
  | names (kind : Kind) (names : Triple)
  | method (kind : Kind) (names : Triple) (descriptor : Descriptor)
  | access (t : Transformation)
deriving DecidableEq

/-- The names of the package and the class that the next line is in. -/
structure Context where
  package : Option Triple := none
  owner : Option Triple := none
deriving DecidableEq

namespace Declaration

/-- A constructor is known by its name and a method by the space before its descriptor. -/
def memberKind (text : Text) : Kind :=
  if Text.startsWith text MemberName.init then .constructor
  else if text.contains ' ' then .method
  else .field

def accessOf (directive : Option Text) (target : Text) (kind : Kind) : List Declaration :=
  directive.toList.map fun directive => .access ⟨directive, target, kind, false⟩

def readPackage (directive : Option Text) (text : Text) :
    Except Fault (Context × List Declaration) := do
  if directive.isSome then .error .packageAccess
  let package ← Triple.read .package text
  return ({ package }, [.names .package package])

def readClass (c : Context) (directive : Option Text) (text : Text) :
    Except Fault (Context × List Declaration) :=
  match c.package with
  | none => .error .classBeforePackage
  | some package => do
    let owner := package.qualify (← Triple.read .class_ text)
    let declared := [Declaration.names .class_ owner]
    match directive with
    | none => return ({ c with owner }, declared)
    | some directive =>
      match Access.readClass directive owner.deobf with
      | none => .error .classAccess
      | some changes => return ({ c with owner }, changes.map .access ++ declared)

def readField (owner : Triple) (directive : Option Text) (text : Text) :
    Except Fault (List Declaration) := do
  let names := owner.qualify (← Triple.read .field text)
  return accessOf directive names.deobf .field ++ [.names .field names]

def readMethod (owner : Triple) (kind : Kind) (directive : Option Text) (text : Text) :
    Except Fault (List Declaration) :=
  match MemberName.splitDescriptor text with
  | (_, none) => .error (.missingDescriptor kind)
  | (name, some word) => do
    let descriptor ← Descriptor.readWord word
    let names := owner.qualify (← Triple.read kind (Text.trim name))
    let target := names.deobf ++ ' ' :: descriptor.render
    return accessOf directive target kind ++ [.method kind names descriptor]

def readMember (c : Context) (directive : Option Text) (text : Text) :
    Except Fault (Context × List Declaration) :=
  let kind := memberKind text
  match c.owner with
  | none => .error (.memberBeforeClass kind)
  | some owner =>
    (if kind = .field then readField owner directive text
      else readMethod owner kind directive text).map (c, ·)

/-- Packages stand at the margin, classes after one tab and members after two or more. -/
def read (c : Context) (depth : Nat) (directive : Option Text) (text : Text) :
    Except Fault (Context × List Declaration) :=
  match depth with
  | 0 => readPackage directive text
  | 1 => readClass c directive text
  | _ => readMember c directive text

/-- Changes of access are declared beside the mappings. -/
def isMapping : Declaration → Bool
  | access _ => false
  | _ => true

end Declaration
end SymbolMap.Outline
