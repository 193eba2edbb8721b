import SymbolMap.Dialect.Columns
import SymbolMap.Dialect.Sheet.Basic

/-! The dialects that mappings are written in, and the short texts that name one with its options. -/
namespace SymbolMap

inductive Dialect
  | flat
  | sidedFlat (side : Text)
  | threeWay (strip : Bool)
  | columns (o : Columns.Options)
  | sheet (o : Sheet.Options)
  | outline
  | memberLines
deriving DecidableEq

/-- A text that names no dialect. -/
structure InvalidDialect where
  text : Text
deriving DecidableEq

def InvalidDialect.message (e : InvalidDialect) : String :=
  "Invalid dialect " ++ e.text.quoted

namespace Dialect

/-- Whether the dialect has intermediate names, which only a three-way table can hold. -/
def hasIntermediate : Dialect → Bool
  | threeWay _ | outline => true
  | _ => false

/-- The word that asks for methods without their descriptors. -/
def noDescriptors : Text := "nodesc".toList

def readStrip : List Text → Option Bool
  | [] => some false
  | [word] => if word = noDescriptors then some true else none
  | _ => none

/-- A side may not be empty, and it comes before the word on descriptors. -/
def readColumns : List Text → Option Columns.Options
  | [] => some {}
  | side :: rest =>
    if side = noDescriptors then (readStrip (side :: rest)).map fun strip => { strip }
    else if side = [] then none
    else (readStrip rest).map fun strip => { side, strip }

def readSheet (kind : Kind) : List Text → Option Sheet.Options
  | [] => some { kind }
  | [side] =>
    match Number.read 10 side with
    | .ok side => some { kind, side }
    | .error _ => none
  | _ => none

/-- The side of the sided flat dialect is all of the rest, dashes included. -/
def readSide (parts : List Text) : Option Text :=
  let side := Text.join '-' parts
  if side = [] then none else some side

/-- Each dialect goes by a word, after which its options follow between dashes. -/
def readParts : List Text → Option Dialect
  | [] => none
  | word :: rest =>
    match String.ofList word, rest with
    | "obf", [] => some flat
    | "sobf", rest => (readSide rest).map sidedFlat
    | "blobf", rest => (readStrip rest).map threeWay
    | "srg", rest => (readColumns rest).map columns
    | "csv", kind :: rest =>
      match String.ofList kind with
      | "fields" => (readSheet .field rest).map sheet
      | "methods" => (readSheet .method rest).map sheet
      | _ => none
    | "onf", [] => some outline
    | "enigma", [] => some memberLines
    | _, _ => none

def read (text : Text) : Except InvalidDialect Dialect :=
  match readParts (text.splitOn '-') with
  | some d => .ok d
  | none => .error ⟨text⟩

def renderStrip (strip : Bool) : Text :=
  if strip then '-' :: noDescriptors else []

def renderOption (option : Option Text) : Text :=
  match option with
  | some text => '-' :: text
  | none => []

def render : Dialect → Text
  | flat => "obf".toList
  | sidedFlat side => "sobf".toList ++ '-' :: side
  | threeWay strip => "blobf".toList ++ renderStrip strip
  | columns o => "srg".toList ++ renderOption o.side ++ renderStrip o.strip
  | sheet o =>
    "csv-".toList ++ (if o.kind = .field then "fields" else "methods").toList ++
      renderOption (o.side.map Number.render)
  | outline => "onf".toList
  | memberLines => "enigma".toList

end Dialect
end SymbolMap
