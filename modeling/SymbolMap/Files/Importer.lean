import SymbolMap.Files.Disk

/-! Where imported files come from. -/
namespace SymbolMap

/-- An opened file. Its own imports are looked for from its base. -/
structure Source where
  text : Text
  base : Option Path
deriving DecidableEq

/-- A way to open files: from a base, by a name. -/
abbrev Opener := Option Path → Text → Except FileError Source

/-- An opener for files that hold only so many texts. -/
structure Importer where
  fetch : Opener
  texts : List Text
  mem_texts : ∀ base name source, fetch base name = .ok source → source.text ∈ texts

namespace Importer

/-- A name leads to a path, and the imports of a file are looked for next to it. -/
def ofPaths (read : Path → Except FileError Text) (texts : List Text)
    (mem_texts : ∀ path text, read path = .ok text → text ∈ texts) : Importer where
  fetch base name :=
    let path := Path.resolve base name
    (read path).map (⟨·, path.parent?⟩)
  texts := texts
  mem_texts base name source opened := by
    apply mem_texts (Path.resolve base name)
    dsimp only at opened
    cases read : read (Path.resolve base name) with
    | error e =>
      rw [read] at opened
      cases opened
    | ok text =>
      rw [read] at opened
      cases opened
      rfl

/-- Files are found on the disk. -/
def disk (d : Disk) : Importer := .ofPaths d.read d.texts d.mem_texts_of_read

/-- Of several texts with the same path the last counts. -/
def readMemory (files : List (Path × Text)) (path : Path) : Except FileError Text :=
  match files.reverse.find? (·.1.key = path.key) with
  | some (_, text) => .ok text
  | none => .error ⟨path, .noResource⟩

theorem mem_texts_of_readMemory (files : List (Path × Text)) (path : Path) (text : Text)
    (read : readMemory files path = .ok text) : text ∈ files.map (·.2) := by
  unfold readMemory at read
  split at read
  · next found =>
    cases read
    exact List.mem_map_of_mem (List.mem_reverse.mp (List.mem_of_find?_eq_some found))
  · cases read

/-- Files are found among texts that are given with their paths. -/
def memory (files : List (Path × Text)) : Importer :=
  .ofPaths (readMemory files) (files.map (·.2)) (mem_texts_of_readMemory files)

def empty : Importer := .memory []

end Importer
end SymbolMap
