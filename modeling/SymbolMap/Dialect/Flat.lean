import SymbolMap.Listing
import SymbolMap.Rows

/-! The flat dialects: a line gives the kind, a colon, and the two names with an equals sign between
them. In the sided one a side follows the kind after a dot. -/
namespace SymbolMap.Flat

/-- The names stand around the first equals sign, or around a single colon where there is none. -/
def splitNames (names : Text) : Except Fault (Text × Text) :=
  match Text.cut '=' names with
  | some pair => .ok pair
  | none =>
    match names.splitOn ':' with
    | [obf, deobf] => .ok (obf, deobf)
    | _ :: _ :: _ => .error .tooManyNames
    | _ => .error .missingDeobf

/-- What stands before the first colon, and the two names after it. -/
def splitLine (line : Text) : Except Fault (Text × Text × Text) :=
  match Text.cut ':' (Text.trim line) with
  | none => .error .missingKind
  | some (head, names) => do
    let (obf, deobf) ← splitNames names
    if obf.isEmpty || deobf.isEmpty then .error .emptyName else .ok (head, obf, deobf)

def read (line : Text) : Except Fault Row := do
  let (head, obf, deobf) ← splitLine line
  return .entry (← Kind.readWord head) (.twoWay obf deobf)

/-- Mappings of other sides are counted and left out. -/
def readSided (side line : Text) : Except Fault Row := do
  let (head, obf, deobf) ← splitLine line
  match Text.cut '.' head with
  | none => .error .missingSide
  | some (word, found) =>
    let kind ← Kind.readWord word
    return if found = side then .entry kind (.twoWay obf deobf) else .otherSide []

def render (head : Text) (e : Entry) : Text :=
  head ++ ':' :: e.obf ++ '=' :: e.deobf

def list (t : Table) : Listing :=
  t.written.map fun (kind, e) => .line (render kind.name.toList e)

def listSided (side : Text) (t : Table) : Listing :=
  t.written.map fun (kind, e) => .line (render (kind.name.toList ++ '.' :: side) e)

end SymbolMap.Flat
