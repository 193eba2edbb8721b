import SymbolMap.Listing
import SymbolMap.MemberName
import SymbolMap.Rows

/-! The three-way flat dialect: a line gives the kind and then the obfuscated, intermediate and
deobfuscated names after colons. Methods may give each name with its descriptor. -/
namespace SymbolMap.ThreeWay

def methodName (strip : Bool) (name descriptor : Text) : Text :=
  MemberName.withDescriptor name (if strip then none else some descriptor)

/-- Three names, or three pairs of a name and a descriptor. -/
def readNames (strip : Bool) (kind : Kind) (parts : List Text) : Except Fault Entry :=
  match parts with
  | [obf, intermediate, deobf] => .ok (.threeWay obf intermediate deobf)
  | [obf, obfDesc, intermediate, intermediateDesc, deobf, deobfDesc] =>
    if kind.hasDescriptor then
      .ok (.threeWay (methodName strip obf obfDesc) (methodName strip intermediate intermediateDesc)
        (methodName strip deobf deobfDesc))
    else .error (.partCount kind 7)
  | parts => .error (.partCount kind (parts.length + 1))

/-- With `strip` the names of methods are read without their descriptors. -/
def read (strip : Bool) (line : Text) : Except Fault Row :=
  match (Text.trim line).splitOn ':' with
  | [] => .error .missingKind
  | word :: parts => do
    let kind ← Kind.readWord word
    if parts.any (·.isEmpty) then .error .emptyName
    else return .entry kind (← readNames strip kind parts)

/-- A method's name and descriptor are two parts of the line. -/
def renderName (kind : Kind) (name : Text) : Text :=
  if kind.hasDescriptor then
    match MemberName.splitDescriptor name with
    | (name, some descriptor) => ':' :: name ++ ':' :: descriptor
    | (name, none) => ':' :: name
  else ':' :: name

def render (kind : Kind) (e : Entry) : Text :=
  kind.name.toList ++ renderName kind e.obf ++ renderName kind e.intermediateOrDeobf ++
    renderName kind e.deobf

def list (t : Table) : Listing :=
  t.written.map fun (kind, e) => .line (render kind e)

end SymbolMap.ThreeWay
