import SymbolMap.Descriptor.Basic
import SymbolMap.Dialect.MemberLines.ClassName
import SymbolMap.Grouping
import SymbolMap.Listing
import SymbolMap.Table

/-! Tables written with a line for each member after the line of its class. -/
namespace SymbolMap.MemberLines

open MemberName (slashed)

/-- A member as its line gives it: the local obfuscated name, the full deobfuscated one, and the
obfuscated descriptor with placeholders. -/
structure Member where
  kind : Kind
  obf : Text
  deobf : Text
  descriptor : Option Descriptor
deriving DecidableEq

namespace Member

/-- The descriptor that a line for the kind gives, where there can be a line. -/
def writtenDescriptor (kind : Kind) (descriptor : Option Text) : Option (Option Descriptor) :=
  match descriptor with
  | none => if kind.hasDescriptor then none else some none
  | some word =>
    match Descriptor.read word with
    | .ok d => some (some (d.mapClasses addPlaceholder))
    | .error _ => none

/-- The obfuscated name of an entry's class, and the member that it is there. A name that is split from
its class by a space cannot be written, and neither can a method without a valid descriptor. -/
def ofEntry (kind : Kind) (e : Entry) : Option (Text × Member) := do
  let (obf, word) := MemberName.splitDescriptor e.obf
  let (deobf, _) := MemberName.splitDescriptor e.deobf
  if obf.contains ' ' || deobf.contains ' ' then none
  let (some owner, name) := MemberName.splitOwner obf | none
  let descriptor ← writtenDescriptor kind word
  return (owner, ⟨kind, name, deobf, descriptor⟩)

/-- The new name of a member, in full unless it belongs to the class. -/
def newName (ownerDeobf : Text) (m : Member) : Option Text :=
  let (owner, name) := MemberName.splitOwner m.deobf
  if owner = some ownerDeobf then some name
  else if m.obf = MemberName.init then none
  else some (slashed m.deobf)

/-- A constructor cannot be given a name, so one that belongs elsewhere has no line. -/
def render (ownerDeobf : Text) (m : Member) : Option Text :=
  (m.newName ownerDeobf).map fun deobf =>
    match m.descriptor with
    | none => "FIELD ".toList ++ m.obf ++ ' ' :: deobf
    | some d =>
      if m.obf = MemberName.init then "METHOD <init> ".toList ++ d.render
      else "METHOD ".toList ++ m.obf ++ ' ' :: deobf ++ ' ' :: d.render

end Member

def membersByClass (t : Table) : Groups Text Member :=
  .ofList (t.members.filterMap fun (kind, e) => Member.ofEntry kind e)

def skippedPackages (t : Table) : List Event :=
  match (t.entries .package).length with
  | 0 => []
  | count => [.skippedPackages count]

def memberPiece (ownerDeobf : Text) (m : Member) : Piece :=
  match m.render ownerDeobf with
  | some line => .line ('\t' :: line)
  | none => .told (.misplacedMember m.kind m.deobf ownerDeobf)

/-- The line of a class, and those of its members. -/
def mappedClass (members : Groups Text Member) (e : Entry) : Listing :=
  .line ("CLASS ".toList ++ className e.obf ++ ' ' :: slashed e.deobf) ::
    (members.group e.obf).map (memberPiece e.deobf)

def unmappedClass (owner : Text) (members : List Member) : Listing :=
  .line ("CLASS ".toList ++ className owner) :: members.map (memberPiece owner)

/-- The classes of the table stand first, then those that only members name. -/
def list (t : Table) : Listing :=
  let members := membersByClass t
  (skippedPackages t ++ Listing.leftOut Member.ofEntry t.members).map .told ++
    (t.entries .class_).flatMap (mappedClass members) ++
    (members.toList.filter fun (owner, _) => !t.hasObf .class_ owner).flatMap
      fun (owner, group) => unmappedClass owner group

end SymbolMap.MemberLines
