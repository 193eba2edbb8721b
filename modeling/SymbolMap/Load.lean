import SymbolMap.Event
import SymbolMap.Files.Disk
import SymbolMap.Table

/-! What a load comes to: a table, what was told on the way, and whether it succeeded. -/
namespace SymbolMap

/-- What was being done with a file when it failed. -/
inductive Task
  | readPath (path : Path)
  | openName (name : Text)
  | readStream
deriving DecidableEq

def Task.message : Task → String
  | readPath path => "Unable to read " ++ String.ofList path.text
  | openName name => "Unable to open " ++ String.ofList name
  | readStream => "Unable to read mappings"

inductive LoadError
  | format (e : FormatError)
  | resource (task : Task) (e : FileError)
deriving DecidableEq

def LoadError.message : LoadError → String
  | format e => e.message
  | resource task e => task.message ++ ": " ++ e.message

structure Load (α : Type) where
  table : Table
  events : List Event
  result : Except LoadError α

namespace Load

/-- A load that never came to its text. -/
def refused {α : Type} (table : Table) (task : Task) (e : FileError) : Load α :=
  ⟨table, [], .error (.resource task e)⟩

/-- Adds what is told after a success, and forgets its result. -/
def andTell {α : Type} (l : Load α) (tell : α → Event) : Load Unit :=
  match l.result with
  | .ok a => ⟨l.table, l.events ++ [tell a], .ok ()⟩
  | .error e => ⟨l.table, l.events, .error e⟩

@[simp] theorem table_andTell {α : Type} (l : Load α) (tell : α → Event) :
    (l.andTell tell).table = l.table := by
  unfold andTell
  cases l.result <;> rfl

end Load
end SymbolMap
