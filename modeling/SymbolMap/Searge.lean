import SymbolMap.Event
import SymbolMap.MemberName
import SymbolMap.Table

/-! Readable names put in the place of searge names. -/
namespace SymbolMap.Searge

/-- A deobfuscated name around its searge name: the owner with the separator after it, the searge name,
and the descriptor. -/
structure Parts where
  owner : Text
  searge : Text
  descriptor : Option Text

def split (deobf : Text) : Parts :=
  let (name, descriptor) := MemberName.splitDescriptor deobf
  let (owner, searge) := MemberName.splitLocal name
  ⟨owner, searge, descriptor⟩

def Parts.withName (p : Parts) (name : Text) : Text :=
  MemberName.withDescriptor (p.owner ++ name) p.descriptor

/-- The readable name for a searge name. -/
def nameOf? (names : Table) (kind : Kind) (searge : Text) : Option Text :=
  (((names.register? kind).bind (·.findObf? searge))).map (·.deobf)

/-- The searge name becomes the intermediate one; a member without a readable name keeps it. -/
def rename (names : Table) (kind : Kind) (e : Entry) : Entry :=
  let p := split e.deobf
  .threeWay e.obf e.deobf (p.withName ((nameOf? names kind p.searge).getD p.searge))

def addAll (kind : Kind) (entries : List Entry) (t : Table) : Table :=
  entries.foldl (fun t e => (t.add kind e false).1) t

/-- The entries of a kind that have a readable name. -/
def renamed (srg names : Table) (kind : Kind) : List Entry :=
  (srg.entries kind).filter fun e => (nameOf? names kind (split e.deobf).searge).isSome

def told (srg names : Table) (kind : Kind) : Event :=
  .renamed (renamed srg names kind).length (srg.entries kind).length kind

/-- A three-way table from obfuscated names to searge names and from these to readable ones. Packages
and classes have no searge names. -/
def combine (srg names : Table) : Table × List Event :=
  let plain kind := addAll kind ((srg.entries kind).map fun e => .twoWay e.obf e.deobf)
  let members kind := addAll kind ((srg.entries kind).map (rename names kind))
  (members .method (members .field (plain .class_ (plain .package (.empty true)))),
    [.field, .method].map (told srg names))

end SymbolMap.Searge
