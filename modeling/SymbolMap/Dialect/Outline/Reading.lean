import SymbolMap.Dialect.Outline.Declaration
import SymbolMap.Event
import SymbolMap.Files.Importer

/-! Outlines with their imports: an imported file is read as if it stood in place of its import line,
with a package and a class of its own. -/
namespace SymbolMap.Outline

/-- An import that was left out. -/
structure ImportFailure where
  name : Text
  fault : ImportFault
deriving DecidableEq

/-- An attempt to open a file. -/
structure Attempt where
  base : Option Path
  name : Text
  opened : Bool
deriving DecidableEq

/-- What is known of the imports so far. A name is seen once a file has been opened by it. -/
structure Imports where
  seen : List Text
  failures : List ImportFailure := []
  events : List Event := []
  attempts : List Attempt := []

namespace Imports

def told (s : Imports) (e : Event) : Imports :=
  { s with events := s.events ++ [e] }

def fail (s : Imports) (name : Text) (fault : ImportFault) : Imports :=
  { s with
    failures := s.failures ++ [⟨name, fault⟩]
    events := s.events ++ [.skippedImport name fault] }

/-- A file cannot be opened from a base. -/
def missed (s : Imports) (base : Option Path) (name : Text) (e : FileError) : Imports :=
  fail { s with attempts := s.attempts ++ [⟨base, name, false⟩] } name (.unopened e)

/-- A file has been opened from a base. -/
def opened (s : Imports) (base : Option Path) (name : Text) : Imports :=
  { s with
    seen := s.seen ++ [name]
    attempts := s.attempts ++ [⟨base, name, true⟩] }

end Imports

/-- What an import comes to: the names that are known then and what the imported file declares. -/
abbrev Import := Imports → Imports × List Declaration

/-- Reads lines up to the first invalid one. Imports are left to `importName`. -/
def readLines (importName : Text → Import) (c : Context) (declared : Array Declaration)
    (s : Imports) : List Line → Imports × Except FormatError (List Declaration)
  | [] => (s, .ok declared.toList)
  | line :: lines =>
    match Item.read line.text with
    | .error fault => (s, .error ⟨line, fault⟩)
    | .ok .nothing => readLines importName c declared s lines
    | .ok (.inclusion name) =>
      let (s, imported) := importName name s
      readLines importName c (declared ++ imported) s lines
    | .ok (.declaration depth directive text) =>
      match Declaration.read c depth directive text with
      | .error fault => (s, .error ⟨line, fault⟩)
      | .ok (c, more) => readLines importName c (declared ++ more) s lines

/-- Imports a file, and those that it imports, up to `levels` inside each other. A name that has been
seen is passed over, and a file that cannot be opened or read is left out. -/
def importFile (i : Importer) : Nat → Option Path → Text → Import
  | 0, _, _, s => (s, [])
  | levels + 1, base, name, s =>
    if s.seen.contains name then (s.told (.repeatedImport name), [])
    else
      match i.fetch base name with
      | .error e => (s.missed base name e, [])
      | .ok source =>
        match readLines (importFile i levels source.base) {} #[] (s.opened base name)
            (Text.numbered source.text) with
        | (s, .error e) => (s.fail name (.invalid e), [])
        | (s, .ok declared) =>
          (s.told (.imported (declared.filter Declaration.isMapping).length name), declared)

/-- The names that the lines of a text import. -/
def importedNames (text : Text) : List Text :=
  (Text.lines text).filterMap fun line =>
    match Item.read line with
    | .ok (.inclusion name) => some name
    | _ => none

/-- Every file that is opened inside another was named by a line and not seen before, so imports are
never deeper inside each other than there are such lines. -/
def levels (i : Importer) (text : Text) : Nat :=
  ((text :: i.texts).flatMap importedNames).length + 1

/-- Reads a text and its imports. -/
def readText (i : Importer) (base : Option Path) (seen : List Text) (text : Text) :
    Imports × Except FormatError (List Declaration) :=
  readLines (importFile i (levels i text) base) {} #[] { seen } (Text.numbered text)

end SymbolMap.Outline
