import SymbolMap.Batch
import SymbolMap.Descriptor.Renaming
import SymbolMap.Dialect.MemberLines.ClassName

/-! The dialect with a line for each member after the line of its class. Names have slashes, and only
obfuscated descriptors are given. -/
namespace SymbolMap.MemberLines

open MemberName (dotted)

/-- Methods wait for their deobfuscated descriptors until all classes are known. -/
inductive Declaration
  | names (kind : Kind) (obf deobf : Text)
  | method (kind : Kind) (obf deobf : Text) (descriptor : Descriptor)
deriving DecidableEq

/-- The class that the next line is in; it is known by its obfuscated name if it has no other. -/
structure Owner where
  obf : Text
  deobf : Text
deriving DecidableEq

/-- A name with a dot or a slash has its owner in it. -/
def memberName (owner name : Text) : Text :=
  if name.contains '.' || name.contains '/' then dotted name else owner ++ '.' :: name

/-- Placeholders are dropped from the classes in a descriptor. -/
def readDescriptor (word : Text) : Except Fault Descriptor :=
  Descriptor.readWord (Text.replaceAll ('L' :: placeholder) ['L'] word)

def readClass (words : List Text) : Except Fault (Owner × List Declaration) :=
  match words with
  | [obf] => .ok (⟨stripPlaceholder obf, stripPlaceholder obf⟩, [])
  | [obf, deobf] =>
    .ok (⟨stripPlaceholder obf, dotted deobf⟩,
      [.names .class_ (stripPlaceholder obf) (dotted deobf)])
  | _ => .error .classSectionCount

def method (owner : Owner) (kind : Kind) (obf deobf word : Text) :
    Except Fault (List Declaration) := do
  let descriptor ← readDescriptor word
  return [.method kind (memberName owner.obf obf) (memberName owner.deobf deobf) descriptor]

/-- A field may be followed by its type, and a method without a new name says nothing. -/
def readMember (owner : Owner) (kind : Kind) (words : List Text) :
    Except Fault (List Declaration) :=
  let field obf deobf :=
    .ok [.names .field (memberName owner.obf obf) (memberName owner.deobf deobf)]
  match kind, words with
  | .field, [obf, deobf] => field obf deobf
  | .field, [obf, deobf, _] => field obf deobf
  | .method, [name, word] =>
    if name = MemberName.init then method owner .constructor name name word else .ok []
  | .method, [obf, deobf, word] => method owner .method obf deobf word
  | .constructor, [obf, deobf, word] => method owner .method obf deobf word
  | kind, words => .error (.sectionCount kind (words.length + 1))

def readLine (owner : Option Owner) (line : Text) :
    Except Fault (Option Owner × List Declaration) :=
  match Text.words line with
  | [] => .ok (owner, [])
  | word :: words => do
    match ← Kind.readWord word, owner with
    | .class_, _ => return (← readClass words).map some id
    | .package, _ => .error .packagesUnsupported
    | kind, none => .error (.memberBeforeClass (if kind = .field then .field else .method))
    | kind, some o => return (owner, ← readMember o kind words)

/-- Reads lines up to the first invalid one. -/
def readLines (owner : Option Owner) (declared : Array Declaration) :
    List Line → Except FormatError (List Declaration)
  | [] => .ok declared.toList
  | line :: lines =>
    match readLine owner line.text with
    | .error fault => .error ⟨line, fault⟩
    | .ok (owner, more) => readLines owner (declared ++ more) lines

def readText (text : Text) : Except FormatError (List Declaration) :=
  readLines none #[] (Text.meaningful text)

namespace Declaration

def known? : Declaration → Option (Kind × Entry)
  | names kind obf deobf => some (kind, .twoWay obf deobf)
  | method .. => none

/-- A method's descriptor is declared with obfuscated classes; its deobfuscated form is what the table
makes of it. -/
def methodEntry (obf deobf : Text) (d : Descriptor) (t : Table) : Entry :=
  .twoWay (obf ++ ' ' :: d.render) (deobf ++ ' ' :: (d.deobfuscate t).render)

def waiting? : Declaration → Option (Kind × (Table → Entry))
  | method kind obf deobf d => some (kind, methodEntry obf deobf d)
  | names .. => none

def batch (ds : List Declaration) : Batch where
  known := ds.filterMap known?
  waiting := ds.filterMap waiting?

end Declaration

def load (text : Text) (t : Table) (overwrite : Bool) : Load Unit :=
  match readText text with
  | .error e => ⟨t, [], .error (.format e)⟩
  | .ok ds =>
    let (loaded, added) := (Declaration.batch ds).addTo t overwrite
    ⟨loaded, [.loadedMembers added], .ok ()⟩

end SymbolMap.MemberLines
