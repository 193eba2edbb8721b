import SymbolMap.Command.Failure
import SymbolMap.Dialect.Loading
import SymbolMap.Json
import SymbolMap.Searge

/-! What the command does on a disk. -/
namespace SymbolMap.Command

/-- The disk after a run, what the run told, and the text for standard output if it succeeded. -/
structure Outcome where
  disk : Disk
  events : List Event
  result : Except Failure Text

def Outcome.code (o : Outcome) : Nat :=
  match o.result with
  | .ok _ => 0
  | .error _ => 1

/-- The paths at which the run found nothing. -/
def Outcome.missing (o : Outcome) : List Path :=
  let imports := o.events.filterMap fun
    | .skippedImport _ (.unopened e) => some e.path
    | _ => none
  let others :=
    match o.result with
    | .error (.load (.resource _ e)) => [e.path]
    | .error (.create e) => [e.path]
    | _ => []
  imports ++ others

def Input.load (input : Input) (disk : Disk) (overwrite : Bool) (t : Table) : Load Unit :=
  input.dialect.loadPath disk input.path t overwrite

/-- Loads a file and tells by how much the table has grown. The difference has 64 bits and no sign. -/
def Input.loadCounted (input : Input) (disk : Disk) (overwrite : Bool) (t : Table) : Load Unit :=
  let l := input.load disk overwrite t
  l.andTell fun () => .loadedInput (l.table.size.toUInt64 - t.size.toUInt64) input.path

/-- Loads files one after the other into one table. -/
def loadInputs (load : Input → Table → Load Unit) (t : Table) (events : List Event) :
    List Input → Table × List Event × Option LoadError
  | [] => (t, events, none)
  | input :: rest =>
    let l := load input t
    match l.result with
    | .error e => (l.table, events ++ l.events, some e)
    | .ok () => loadInputs load l.table (events ++ l.events) rest

/-- The table keeps intermediate names if it is told to or if an input has some. -/
def loadAll (disk : Disk) (inputs : List Input) (threeWay overwrite : Bool) :
    Table × List Event × Option LoadError :=
  let threeWay := threeWay || inputs.any (·.dialect.hasIntermediate)
  loadInputs (·.loadCounted disk overwrite) (.empty threeWay) [] inputs

/-- Writes a table to a new or an old file, and tells of it at the end. -/
def storeTo (disk : Disk) (d : Dialect) (t : Table) (out : Path) (events : List Event)
    (done : Event) : Outcome :=
  match disk.target out with
  | .error e => ⟨disk, events, .error (.create e)⟩
  | .ok place =>
    let pieces := d.list t
    ⟨disk.write place (Listing.text pieces), events ++ Listing.events pieces ++ [done], .ok []⟩

/-- The sides of the generated names: the client, the server, or both of them. -/
inductive Side
  | client | server | both
deriving DecidableEq

namespace Side

def ofNumber? : UInt32 → Option Side
  | 0 => some client
  | 1 => some server
  | 2 => some both
  | _ => none

def columnsSide : Side → Option Text
  | client => some ['C']
  | server => some ['S']
  | both => none

def sheetSide : Side → Option UInt32
  | client => some 0
  | server => some 1
  | both => none

end Side

/-- The searge names of a side, read from their file. -/
def seargeInput (dir : Path) (side : Side) : Input :=
  ⟨.columns { side := side.columnsSide }, dir.join "joined.srg".toList⟩

/-- The readable names of a side, for fields and then for methods. -/
def nameInputs (dir : Path) (side : Side) : List Input :=
  [⟨.sheet { kind := .field, side := side.sheetSide }, dir.join "fields.csv".toList⟩,
    ⟨.sheet { kind := .method, side := side.sheetSide }, dir.join "methods.csv".toList⟩]

/-- Later readable names win over earlier ones; searge names do not. -/
def generate (disk : Disk) (dir : Path) (side : Side) : List Event × Except LoadError Table :=
  match loadInputs (·.load disk false) (.empty false) [] [seargeInput dir side] with
  | (_, events, some e) => (events, .error e)
  | (srg, events, none) =>
    match loadInputs (·.load disk true) (.empty false) events (nameInputs dir side) with
    | (_, events, some e) => (events, .error e)
    | (names, events, none) =>
      let (t, told) := Searge.combine srg names
      (events ++ told, .ok t)

def perform (disk : Disk) : Invocation → Outcome
  | .convert inputs dialect out threeWay overwrite =>
    match loadAll disk inputs threeWay overwrite with
    | (_, events, some e) => ⟨disk, events, .error (.load e)⟩
    | (t, events, none) =>
      storeTo disk dialect t out events (.wroteOutput t.size out (some dialect.render))
  | .generate dir out side =>
    match Side.ofNumber? side with
    | none => ⟨disk, [], .error (.invalidSide side)⟩
    | some side =>
      match generate disk dir side with
      | (events, .error e) => ⟨disk, events, .error (.load e)⟩
      | (events, .ok t) =>
        storeTo disk (.threeWay false) t out events (.wroteOutput t.size out none)
  | .dump inputs threeWay =>
    match loadAll disk inputs threeWay false with
    | (_, events, some e) => ⟨disk, events, .error (.load e)⟩
    | (t, events, none) => ⟨disk, events, .ok (t.toJson.pretty 0 ++ ['\n'])⟩

/-- Runs the command with its arguments. Where help is wanted nothing is done. -/
def run (disk : Disk) (arguments : List Text) : Outcome :=
  match readArguments arguments with
  | .error e => ⟨disk, [], .error (.arguments e)⟩
  | .ok none => ⟨disk, [], .ok []⟩
  | .ok (some invocation) => perform disk invocation

end SymbolMap.Command
