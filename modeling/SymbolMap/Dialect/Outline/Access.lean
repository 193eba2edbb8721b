import SymbolMap.Kind

/-! Changes of access that an outline asks for beside its names. -/
namespace SymbolMap.Outline

/-- A global one was asked of a class, for all its members of the kind. -/
structure Transformation where
  directive : Text
  target : Text
  kind : Kind
  isGlobal : Bool
deriving DecidableEq

namespace Access

def keywords : List Text :=
  ["public", "protected", "private", "package"].map String.toList

/-- What follows an access keyword, where one stands first. -/
def skipKeyword (text : Text) : Text :=
  match keywords.find? (Text.startsWith text) with
  | some keyword => text.drop keyword.length
  | none => text

/-- What follows the change of the final modifier, where one stands first. -/
def skipFinal : Text → Text
  | '-' :: 'f' :: rest => rest
  | '+' :: 'f' :: rest => rest
  | text => text

def flagKind? : Char → Option Kind
  | 'f' => some .field
  | 'm' => some .method
  | _ => none

/-- The kinds that the flags name, each of them once. -/
def flagKinds (flags : Text) : Option (List Kind) := do
  let kinds ← flags.mapM flagKind?
  if kinds.Nodup then some kinds else none

/-- A directive on a class: a keyword, a change of the final modifier or both, and then flags for the
kinds of members that it is for. -/
def readClass (text target : Text) : Option (List Transformation) :=
  let flags := skipFinal (skipKeyword text)
  let directive := text.take (text.length - flags.length)
  if directive = [] ∨ flags = [] then none
  else (flagKinds flags).map fun kinds => kinds.map fun kind => ⟨directive, target, kind, true⟩

end Access
end SymbolMap.Outline
