import SymbolMap.Fault

/-! What a line of an outline is, whatever stands around it. -/
namespace SymbolMap.Outline

/-- A declaration stands one level deeper for each tab before it. -/
inductive Item
  | nothing
  | inclusion (name : Text)
  | declaration (depth : Nat) (directive : Option Text) (text : Text)
deriving DecidableEq

namespace Item

/-- A directive stands before an exclamation mark. -/
def readDeclaration (depth : Nat) (content : Text) : Except Fault Item :=
  match Text.cut '!' content with
  | none => .ok (.declaration depth none content)
  | some ([], _) => .error .emptyAccess
  | some (directive, rest) => .ok (.declaration depth (some directive) (Text.trim rest))

/-- The line up to its number sign is read, if it is no comment. -/
def read (line : Text) : Except Fault Item :=
  let line := line.takeWhile (· != '#')
  match Text.trim line with
  | [] => .ok .nothing
  | '/' :: '/' :: _ => .ok .nothing
  | '>' :: '>' :: rest =>
    let name := Text.trim rest
    if name.isEmpty then .error .missingImport else .ok (.inclusion name)
  | content => readDeclaration (line.takeWhile (· == '\t')).length content

end Item
end SymbolMap.Outline
