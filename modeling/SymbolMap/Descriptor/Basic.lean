import SymbolMap.Descriptor.TypeToken

/-! Method descriptors: the types of a method's parameters and of its result, as in `(I[La/b;)V`. -/
namespace SymbolMap

structure Descriptor where
  params : List TypeToken
  result : TypeToken
deriving DecidableEq

namespace Descriptor

def render (d : Descriptor) : Text :=
  '(' :: d.params.flatMap TypeToken.render ++ ')' :: d.result.render

/-- Reads types up to the parenthesis that ends the parameters. -/
def readParams (text : Text) : Except DescriptorFault (List TypeToken × Text) :=
  match text with
  | [] => .error .unterminatedParameters
  | ')' :: rest => .ok ([], rest)
  | c :: cs =>
    match h : TypeToken.read (c :: cs) with
    | .error e => .error e
    | .ok (t, rest) =>
      have := TypeToken.length_of_read h
      if t.isVoid then .error .voidParameter
      else (readParams rest).map fun (ts, rest) => (t :: ts, rest)
termination_by text.length
decreasing_by assumption

/-- The result is all that follows the parameters. -/
def readResult : Text → Except DescriptorFault TypeToken
  | [] => .error .missingResult
  | text =>
    match TypeToken.read text with
    | .error e => .error e
    | .ok (t, []) => .ok t
    | .ok (_, _ :: _) => .error .trailingCharacters

def readParts : Text → Except DescriptorFault Descriptor
  | '(' :: text => do
    let (params, rest) ← readParams text
    return ⟨params, ← readResult rest⟩
  | _ => .error .missingParameters

def read (text : Text) : Except InvalidDescriptor Descriptor :=
  (readParts text).mapError (⟨text, ·⟩)

/-- The types of a descriptor, the result last. -/
def tokens (d : Descriptor) : List TypeToken := d.params ++ [d.result]

/-- The classes that a descriptor refers to, as often as it does. -/
def classes (d : Descriptor) : List Text := d.tokens.filterMap TypeToken.className?

def mapClasses (rename : Text → Option Text) (d : Descriptor) : Descriptor :=
  ⟨d.params.map (TypeToken.mapClass rename), d.result.mapClass rename⟩

end Descriptor
end SymbolMap
