import SymbolMap.Text.Quoted

/-! The types in a method descriptor, as `I` or `[Ljava/lang/String;`. -/
namespace SymbolMap

/-- The types that a single letter stands for, among them the void result. -/
inductive Primitive
  | byte | char | double | float | int | long | short | boolean | void
deriving DecidableEq

namespace Primitive

def letter : Primitive → Char
  | byte => 'B'
  | char => 'C'
  | double => 'D'
  | float => 'F'
  | int => 'I'
  | long => 'J'
  | short => 'S'
  | boolean => 'Z'
  | void => 'V'

def ofLetter? : Char → Option Primitive
  | 'B' => some byte
  | 'C' => some char
  | 'D' => some double
  | 'F' => some float
  | 'I' => some int
  | 'J' => some long
  | 'S' => some short
  | 'Z' => some boolean
  | 'V' => some void
  | _ => none

@[simp] theorem ofLetter?_letter (p : Primitive) : ofLetter? p.letter = some p := by
  cases p <;> rfl

theorem letter_of_ofLetter? {c : Char} {p : Primitive} (h : ofLetter? c = some p) :
    c = p.letter := by
  unfold ofLetter? at h
  split at h <;> simp_all <;> subst h <;> rfl

end Primitive

/-- What an array holds in the end, or the type itself where there is no array. -/
inductive ElementType
  | primitive (p : Primitive)
  | reference (className : Text)
deriving DecidableEq

/-- A type, inside `depth` arrays. -/
structure TypeToken where
  depth : Nat
  element : ElementType
deriving DecidableEq

/-- Why a text is no descriptor. -/
inductive DescriptorFault
  | missingParameters
  | unterminatedParameters
  | voidParameter
  | missingResult
  | trailingCharacters
  | missingType
  | unknownType
  | arrayOfVoid
  | unterminatedClass
  | emptyClass
deriving DecidableEq

def DescriptorFault.reason : DescriptorFault → String
  | missingParameters => "Missing parameters"
  | unterminatedParameters => "Unterminated parameters"
  | voidParameter => "Void parameter"
  | missingResult => "Missing return type"
  | trailingCharacters => "Trailing characters"
  | missingType => "Missing type"
  | unknownType => "Unknown type"
  | arrayOfVoid => "Array of void"
  | unterminatedClass => "Unterminated class reference"
  | emptyClass => "Empty class reference"

structure InvalidDescriptor where
  text : Text
  fault : DescriptorFault
deriving DecidableEq

def InvalidDescriptor.message (e : InvalidDescriptor) : String :=
  "Invalid descriptor " ++ e.text.quoted ++ ": " ++ e.fault.reason

namespace ElementType

def render : ElementType → Text
  | primitive p => [p.letter]
  | reference className => 'L' :: className ++ [';']

/-- Reads one type that is no array; what follows it is left over. -/
def read : Text → Except DescriptorFault (ElementType × Text)
  | [] => .error .missingType
  | 'L' :: text =>
    match Text.cut ';' text with
    | none => .error .unterminatedClass
    | some ([], _) => .error .emptyClass
    | some (className, rest) => .ok (reference className, rest)
  | c :: rest =>
    match Primitive.ofLetter? c with
    | some p => .ok (primitive p, rest)
    | none => .error .unknownType

end ElementType

namespace TypeToken

def render (t : TypeToken) : Text :=
  List.replicate t.depth '[' ++ t.element.render

def className? (t : TypeToken) : Option Text :=
  match t.element with
  | .reference className => some className
  | .primitive _ => none

def primitive? (t : TypeToken) : Option Primitive :=
  match t.element with
  | .primitive p => some p
  | .reference _ => none

def isVoid (t : TypeToken) : Bool :=
  t.depth = 0 && t.element = .primitive .void

/-- Reads one type: brackets for its arrays, and their element. -/
def read (text : Text) : Except DescriptorFault (TypeToken × Text) := do
  let depth := (text.takeWhile (· == '[')).length
  let (element, rest) ← ElementType.read (text.dropWhile (· == '['))
  if depth ≠ 0 ∧ element = .primitive .void then .error .arrayOfVoid
  else .ok (⟨depth, element⟩, rest)

/-- Renames the class that the type refers to, where there is a new name for it. -/
def mapClass (rename : Text → Option Text) (t : TypeToken) : TypeToken :=
  match t.element with
  | .reference className => { t with element := .reference ((rename className).getD className) }
  | .primitive _ => t

end TypeToken

theorem ElementType.length_of_read {text rest : Text} {e : ElementType}
    (h : ElementType.read text = .ok (e, rest)) : rest.length < text.length := by
  unfold ElementType.read at h
  split at h
  · simp at h
  · split at h
    · simp at h
    · simp at h
    · next hc =>
      have := Text.length_of_cut hc
      simp only [Except.ok.injEq, Prod.mk.injEq] at h
      rw [← h.2, List.length_cons]
      omega
  · split at h
    · simp only [Except.ok.injEq, Prod.mk.injEq] at h
      simp [h.2]
    · simp at h

theorem TypeToken.length_of_read {text rest : Text} {t : TypeToken}
    (h : TypeToken.read text = .ok (t, rest)) : rest.length < text.length := by
  unfold TypeToken.read at h
  have hl := (List.dropWhile_suffix (l := text) (· == '[')).length_le
  cases he : ElementType.read (text.dropWhile (· == '[')) with
  | error e => simp [he, bind, Except.bind] at h
  | ok p =>
    obtain ⟨e, r⟩ := p
    have hr := ElementType.length_of_read he
    rw [he] at h
    simp only [bind, Except.bind] at h
    split at h
    · simp at h
    · simp only [Except.ok.injEq, Prod.mk.injEq] at h
      rw [← h.2]
      omega

end SymbolMap
