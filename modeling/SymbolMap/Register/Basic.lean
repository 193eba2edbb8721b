import SymbolMap.Entry
import Std.Data.TreeMap

/-! The entries of one kind, in order, with an index for each of their names. -/
namespace SymbolMap

/-- Leads from names of one sort to the obfuscated names of the entries that go by them. -/
abbrev NameIndex := Std.TreeMap Text Text

namespace NameIndex

def remove (index : NameIndex) (name : Option Text) : NameIndex :=
  match name with
  | none => index
  | some name => index.erase name

def add (index : NameIndex) (name : Option Text) (obf : Text) : NameIndex :=
  match name with
  | none => index
  | some name => index.insert name obf

end NameIndex

/-- An entry is filed under its obfuscated name; the two other indexes lead there. -/
structure Register where
  entries : Array Entry := #[]
  byObf : Std.TreeMap Text Entry := ∅
  obfOfDeobf : NameIndex := ∅
  obfOfIntermediate : NameIndex := ∅

namespace Register

def toList (r : Register) : List Entry := r.entries.toList

def size (r : Register) : Nat := r.entries.size

def findObf? (r : Register) (obf : Text) : Option Entry := r.byObf[obf]?

def findDeobf? (r : Register) (deobf : Text) : Option Entry :=
  r.obfOfDeobf[deobf]?.bind r.findObf?

def findIntermediate? (r : Register) (intermediate : Text) : Option Entry :=
  r.obfOfIntermediate[intermediate]?.bind r.findObf?

/-- The obfuscated names under which the names of `e` are taken. -/
def holders (r : Register) (e : Entry) : List Text :=
  ((r.byObf[e.obf]?).map (·.obf)).toList ++ (r.obfOfDeobf[e.deobf]?).toList ++
    (e.intermediate.bind fun name => r.obfOfIntermediate[name]?).toList

/-- Takes the names of `e` out of the two indexes that lead to it. -/
def unlink (r : Register) (e : Entry) : Register :=
  { r with
    obfOfDeobf := r.obfOfDeobf.remove (some e.deobf)
    obfOfIntermediate := r.obfOfIntermediate.remove e.intermediate }

def link (r : Register) (e : Entry) : Register :=
  { r with
    obfOfDeobf := r.obfOfDeobf.add (some e.deobf) e.obf
    obfOfIntermediate := r.obfOfIntermediate.add e.intermediate e.obf }

/-- Removes the entry with this obfuscated name, if there is one. -/
def evict (r : Register) (obf : Text) : Register :=
  match r.findObf? obf with
  | none => r
  | some old =>
    { r.unlink old with
      entries := r.entries.filter (·.obf != obf)
      byObf := r.byObf.erase obf }

/-- Files `e` in the indexes. -/
def index (r : Register) (e : Entry) : Register :=
  { r with byObf := r.byObf.insert e.obf e }.link e

/-- Puts `e` where the entry with its obfuscated name stands, or else at the end. -/
def place (r : Register) (e : Entry) : Register :=
  match r.findObf? e.obf with
  | none => { r with entries := r.entries.push e }.index e
  | some old =>
    let r := r.unlink old
    { r with entries := r.entries.map fun (x : Entry) => if x.obf = e.obf then e else x }.index e

/-- Adds an entry, and says whether that changed anything. An entry that shares a name with others is
refused, unless it may overwrite them: then they go, and it takes the place of the one with its
obfuscated name. -/
def insert (r : Register) (e : Entry) (overwrite : Bool) : Register × Bool :=
  match r.holders e with
  | [] => (r.place e, true)
  | holders =>
    if overwrite then
      (((holders.filter (· != e.obf)).foldl evict r).place e, true)
    else (r, false)

end Register
end SymbolMap
