import SymbolMap.Dialect.Outline.Triple
import SymbolMap.Grouping
import SymbolMap.Listing
import SymbolMap.Table

/-! Tables written as outlines: members under their class and classes under their package. -/
namespace SymbolMap.Outline

open Listing (leftOut)

/-- A member as its line gives it; a constructor goes by its name alone. -/
structure Member where
  kind : Kind
  names : Triple
  descriptor : Option Text
deriving DecidableEq

namespace Member

def render (m : Member) : Text :=
  MemberName.withDescriptor
    (if m.kind = .constructor then MemberName.init else m.names.render) m.descriptor

/-- The names of an entry without descriptors, and the descriptor of its deobfuscated name, which a
method must have. -/
def splitEntry (kind : Kind) (e : Entry) : Option (Triple × Option Text) :=
  let n := Triple.ofEntry e
  if kind = .method then
    match MemberName.splitDescriptor n.deobf with
    | (_, none) => none
    | (deobf, some descriptor) =>
      some (⟨(MemberName.splitDescriptor n.obf).1, (MemberName.splitDescriptor n.intermediate).1,
        deobf⟩, some descriptor)
  else some (n, none)

/-- A deobfuscated name of a constructor is one only if the other names are too. -/
def writtenKind (kind : Kind) (n : Triple) : Option Kind :=
  if n.deobf = MemberName.init then
    if n.obf = MemberName.init ∧ n.intermediate = MemberName.init then some .constructor else none
  else some kind

/-- The names of an entry's class, and the member that it is there. Some entries cannot be written:
members outside of classes, and intermediate names that lack what they are implied to start with. -/
def ofEntry (kind : Kind) (e : Entry) : Option (Triple × Member) := do
  let (full, descriptor) ← splitEntry kind e
  let (owner, names) ← full.split
  if owner.obf = [] ∨ owner.deobf = [] then none
  let kind ← writtenKind kind names
  if names.intermediate ≠ names.deobf ∧
      Text.startsWith names.intermediate (Triple.impliedStart kind) = false then none
  return (owner, ⟨kind, names, descriptor⟩)

end Member

def membersByClass (t : Table) : Groups Triple Member :=
  .ofList (t.members.filterMap fun (kind, e) => Member.ofEntry kind e)

/-- A class with its names in its package. -/
structure ClassNames where
  full : Triple
  names : Triple
deriving DecidableEq

def classOfEntry (e : Entry) : Option (Triple × ClassNames) :=
  (Triple.ofEntry e).split.map fun (package, names) => (package, ⟨.ofEntry e, names⟩)

/-- The classes that can be written, each with its package. -/
def classes (t : Table) : List (Triple × ClassNames) :=
  (t.entries .class_).filterMap classOfEntry

def unrepresentableClasses (t : Table) : List Event :=
  ((t.entries .class_).filter fun e => (classOfEntry e).isNone).map fun e =>
    .unrepresentableClass e.deobf

/-- The packages of a table, and after them those that only classes name. -/
def packages (t : Table) : List Triple :=
  let named := (t.entries .package).map Triple.ofEntry ++ (classes t).map (·.1)
  (Groups.ofList (named.map (·, ()))).keys.toList

/-- Fields stand first and then constructors, before the other methods. -/
def memberOrder : List Kind := [.field, .constructor, .method]

def indent (depth : Nat) (line : Text) : Text := List.replicate depth '\t' ++ line

/-- The line of a class, and those of its members. -/
def classLines (members : Groups Triple Member) (c : ClassNames) : List Text :=
  let own := members.group c.full
  indent 1 c.names.render ::
    memberOrder.flatMap fun kind =>
      (own.filter (·.kind = kind)).map fun m => indent 2 m.render

/-- The lines inside of each package. -/
def packageLines (t : Table) : List (Triple × List Text) :=
  let members := membersByClass t
  let classes := Groups.ofList (classes t)
  (packages t).map fun package => (package, (classes.group package).flatMap (classLines members))

/-- Members whose class is not written are left out. -/
def orphans (t : Table) : List Event :=
  let known := Groups.ofList ((classes t).map fun (_, c) => (c.full, ()))
  ((membersByClass t).toList.filter fun (owner, _) => !known.contains owner).map
    fun (owner, members) => .skippedOrphans members.length owner.deobf

def list (t : Table) : Listing :=
  let packages := packageLines t
  let count := (packages.flatMap (·.2)).length
  (leftOut Member.ofEntry t.members ++ unrepresentableClasses t).map .told ++
    packages.flatMap (fun (package, lines) => (package.render :: lines).map .line) ++
    (orphans t ++ [Event.wroteOutline count packages.length]).map .told

end SymbolMap.Outline
