import SymbolMap.Command.Run

/-! The program: it shows the command what lies on the disk and carries out what it comes to. -/
open SymbolMap

/-- What lies at a path. -/
def nodeAt (path : Path) : IO Disk.Node := do
  let name := String.ofList path.text
  try
    if ← (← IO.FS.realPath name).isDir then return .directory
    return .file (.ofBytes (← IO.FS.readBinFile name))
  catch _ => return .nothing

/-- Adds what lies at a path and on the way to it. -/
def explore (disk : Disk) (path : Path) : IO Disk :=
  (Disk.stages path).foldlM (fun disk (path, place) => return disk.learn place (← nodeAt path)) disk

/-- Runs the command, and again when it has missed something that has not been looked for. -/
partial def runExploring (arguments : List Text) (disk : Disk) (explored : List Path) :
    IO (Disk × Command.Outcome) := do
  let outcome := Command.run disk arguments
  match outcome.missing.filter (!explored.contains ·) with
  | [] => return (disk, outcome)
  | paths => runExploring arguments (← paths.foldlM explore disk) (explored ++ paths)

def main (arguments : List String) : IO UInt32 := do
  let (disk, outcome) ← runExploring (arguments.map (·.toList)) .empty []
  for (path, content) in disk.changed outcome.disk do
    if let .text t := content then
      IO.FS.writeFile (String.ofList path) (String.ofList t)
  match outcome.result with
  | .ok printed => IO.print (String.ofList printed)
  | .error failure => IO.eprintln failure.report
  return outcome.code.toUInt32
