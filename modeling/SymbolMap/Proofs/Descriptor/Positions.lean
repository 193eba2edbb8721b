import SymbolMap.Proofs.Descriptor.Grammar
import SymbolMap.Proofs.Text.Bytes

/-!
Descriptors that are read by byte positions.

A reader that goes by positions cuts what it has read off the text, and a cut can be out of range or inside a
character. `Descriptor.readBytes_eq` says that none ever is, whatever the text: a reader by positions always comes
to an answer, and to the same one.
-/
namespace SymbolMap

/-- What comes of a reading by positions: nothing at all, where a cut fails. -/
abbrev Cutting (α : Type) : Type := ExceptT DescriptorFault Option α

/-- The reading came to an answer, so every cut succeeded. -/
def Cutting.answer {α : Type} (a : Except DescriptorFault α) : Cutting α := ExceptT.mk (some a)

namespace ElementType

/-- Reads one type that is no array, and says how many bytes it takes. -/
def readBytes (text : Text) : Cutting (ElementType × Nat) :=
  match text with
  | [] => throw .missingType
  | 'L' :: _ =>
    match Text.findByte? ';' text with
    | none => throw .unterminatedClass
    | some stop => do
      let className ← Text.slice? 1 stop text
      if className = [] then throw .emptyClass
      else return (reference className, stop + 1)
  | c :: _ =>
    match Primitive.ofLetter? c with
    | some p => return (primitive p, 1)
    | none => throw .unknownType

theorem readBytes_eq (text : Text) :
    readBytes text = .answer ((read text).map fun (e, _) => (e, Text.byteSize e.render)) := by
  unfold readBytes
  split
  · rfl
  · next text =>
    rw [read]
    by_cases ends : ';' ∈ text
    · obtain ⟨className, after, rfl, first⟩ := List.eq_append_cons_of_mem ends
      have notFirst : ';' ∉ 'L' :: className := by simp [first]
      have found := Text.findByte?_append_cons notFirst after
      have cut : Text.slice? 1 (Text.byteSize ('L' :: className)) ('L' :: (className ++ ';' :: after)) =
          some className := Text.slice?_append ['L'] className (';' :: after)
      have size : Text.byteSize (render (reference className)) = Text.byteSize ('L' :: className) + 1 :=
        Text.byteSize_append ('L' :: className) [';']
      rw [List.cons_append] at found
      rw [found, Text.cut_append_cons first]
      dsimp only
      rw [cut]
      cases className with
      | nil => rfl
      | cons c cs =>
        rw [Except.map, size]
        rfl
    · have none : Text.findByte? ';' ('L' :: text) = none := Text.findByte?_of_not_mem (by simp [ends])
      rw [none, Text.cut_of_not_mem ends]
      rfl
  · next c text other =>
    rw [read]
    · cases is : Primitive.ofLetter? c with
      | none => rfl
      | some p =>
        have size : Text.byteSize (render (primitive p)) = 1 := by cases p <;> decide
        dsimp only
        rw [Except.map, size]
        rfl
    · exact other

end ElementType

namespace TypeToken

/-- Takes the bytes of an element off the text, which is refused if it makes an array of void. -/
def cutElement (depth : Nat) (text : Text) (found : ElementType × Nat) : Cutting (TypeToken × Text) :=
  if depth ≠ 0 ∧ found.1 = .primitive .void then throw .arrayOfVoid
  else return (⟨depth, found.1⟩, ← Text.sliceFrom? found.2 text)

/-- The brackets are as many bytes as the text has more than what follows them. -/
def readBytes (text : Text) : Cutting (TypeToken × Text) := do
  let depth := Text.byteSize text - Text.byteSize (text.dropWhile (· == '['))
  let text ← Text.sliceFrom? depth text
  cutElement depth text (← ElementType.readBytes text)

theorem cutElement_append (depth : Nat) (e : ElementType) (rest : Text) :
    cutElement depth (e.render ++ rest) (e, Text.byteSize e.render) = .answer (ofElement depth (e, rest)) := by
  unfold cutElement ofElement
  rw [Text.sliceFrom?_append]
  split
  · rfl
  · rfl

theorem readBytes_eq (text : Text) : readBytes text = .answer (read text) := by
  obtain ⟨depth, after, rfl, stop⟩ := eq_replicate_append text
  have size : Text.byteSize (List.replicate depth '[') = depth := Text.byteSize_replicate (by decide) depth
  have brackets : Text.byteSize (List.replicate depth '[' ++ after) - Text.byteSize after = depth := by
    rw [Text.byteSize_append, size]
    omega
  have cut := Text.sliceFrom?_append (List.replicate depth '[') after
  rw [size] at cut
  unfold readBytes
  rw [(span_replicate_append depth stop).2, brackets, read_replicate_append depth stop]
  dsimp only
  rw [cut]
  change ElementType.readBytes after >>= cutElement depth after = _
  rw [ElementType.readBytes_eq]
  cases found : ElementType.read after with
  | error e => rfl
  | ok pair =>
    obtain ⟨element, rest⟩ := pair
    obtain ⟨_, rfl⟩ := ElementType.eq_of_read found
    exact cutElement_append depth element rest

theorem length_of_readBytes {text rest : Text} {t : TypeToken}
    (h : (readBytes text).run = some (.ok (t, rest))) : rest.length < text.length := by
  rw [readBytes_eq] at h
  exact length_of_read (Option.some.inj h)

end TypeToken

namespace Descriptor

/-- Reads types up to the parenthesis that ends the parameters. -/
def readParamsBytes (text : Text) : Cutting (List TypeToken × Text) :=
  if Text.startsWith text [')'] then do
    return ([], ← Text.sliceFrom? 1 text)
  else if text = [] then throw .unterminatedParameters
  else
    match h : (TypeToken.readBytes text).run with
    | none => ExceptT.mk none
    | some (.error e) => throw e
    | some (.ok (t, rest)) =>
      have := TypeToken.length_of_readBytes h
      if t.isVoid then throw .voidParameter
      else do
        let (ts, rest) ← readParamsBytes rest
        return (t :: ts, rest)
termination_by text.length
decreasing_by assumption

theorem readParamsBytes_of_read {text : Text} (filled : text ≠ []) (notEnd : Text.startsWith text [')'] = false) :
    readParamsBytes text =
      match TypeToken.read text with
      | .error e => throw e
      | .ok (t, rest) =>
        if t.isVoid then throw .voidParameter
        else do
          let (ts, rest) ← readParamsBytes rest
          return (t :: ts, rest) := by
  have same : (TypeToken.readBytes text).run = some (TypeToken.read text) := TypeToken.readBytes_eq text
  rw [readParamsBytes, notEnd, if_neg Bool.false_ne_true, if_neg filled]
  split
  · next failed =>
    rw [same] at failed
    cases failed
  · next e failed =>
    rw [Option.some.inj (same.symm.trans failed)]
  · next t rest found =>
    rw [Option.some.inj (same.symm.trans found)]

theorem readParamsBytes_eq (text : Text) : readParamsBytes text = .answer (readParams text) := by
  have typeFirst : ∀ {c : Char} (cs : Text), c ≠ ')' → Text.startsWith (c :: cs) [')'] = false := by
    intro c cs other
    refine Bool.eq_false_iff.mpr fun starts => other ?_
    exact Option.some.inj (Text.startsWith_singleton_iff.mp starts)
  fun_induction readParams text with
  | case1 =>
    rw [readParamsBytes]
    rfl
  | case2 rest =>
    have cut : Text.sliceFrom? 1 (')' :: rest) = some rest := Text.sliceFrom?_append [')'] rest
    have ends : Text.startsWith (')' :: rest) [')'] = true := Text.startsWith_append [')'] rest
    rw [readParamsBytes, if_pos ends, cut]
    rfl
  | case3 c cs notEnd e failed =>
    rw [readParamsBytes_of_read (List.cons_ne_nil c cs) (typeFirst cs notEnd), failed]
    rfl
  | case4 c cs notEnd t rest found _ void =>
    rw [readParamsBytes_of_read (List.cons_ne_nil c cs) (typeFirst cs notEnd), found]
    exact if_pos void
  | case5 c cs notEnd t rest found _ notVoid ih =>
    rw [readParamsBytes_of_read (List.cons_ne_nil c cs) (typeFirst cs notEnd), found]
    refine (if_neg notVoid).trans ?_
    rw [ih]
    cases readParams rest with
    | error e => rfl
    | ok pair => rfl

/-- The result is all that follows the parameters. -/
def readResultBytes (text : Text) : Cutting TypeToken :=
  if text = [] then throw .missingResult
  else do
    let (result, rest) ← TypeToken.readBytes text
    if rest = [] then return result else throw .trailingCharacters

theorem readResultBytes_eq (text : Text) : readResultBytes text = .answer (readResult text) := by
  unfold readResultBytes readResult
  rw [TypeToken.readBytes_eq]
  split
  · next empty =>
    subst empty
    rfl
  · next filled =>
    split
    · next empty => exact absurd rfl filled
    · cases TypeToken.read text with
      | error e => rfl
      | ok pair =>
        obtain ⟨result, rest⟩ := pair
        cases rest with
        | nil => rfl
        | cons c rest => rfl

def readPartsBytes (text : Text) : Cutting Descriptor :=
  if Text.startsWith text ['('] then do
    let (params, rest) ← readParamsBytes (← Text.sliceFrom? 1 text)
    return ⟨params, ← readResultBytes rest⟩
  else throw .missingParameters

theorem readPartsBytes_eq (text : Text) : readPartsBytes text = .answer (readParts text) := by
  unfold readPartsBytes
  split
  · next starts =>
    obtain ⟨rest, rfl⟩ := Text.startsWith_iff.mp starts
    have cut : Text.sliceFrom? 1 ('(' :: rest) = some rest := Text.sliceFrom?_append ['('] rest
    rw [List.singleton_append, cut, readParts]
    change readParamsBytes rest >>= _ = _
    rw [readParamsBytes_eq]
    cases readParams rest with
    | error e => rfl
    | ok pair =>
      obtain ⟨params, rest⟩ := pair
      change readResultBytes rest >>= _ = Cutting.answer (readResult rest >>= _)
      rw [readResultBytes_eq]
      cases readResult rest with
      | error e => rfl
      | ok result => rfl
  · next other =>
    rw [readParts]
    · rfl
    · rintro rest rfl
      exact other (Text.startsWith_append ['('] rest)

/-- Reads a descriptor by byte positions. -/
def readBytes (text : Text) : Option (Except InvalidDescriptor Descriptor) :=
  (readPartsBytes text).run.map (·.mapError (⟨text, ·⟩))

/-- No cut of a reader by positions is out of range or inside a character. -/
theorem readBytes_eq (text : Text) : readBytes text = some (read text) := by
  unfold readBytes
  rw [readPartsBytes_eq]
  rfl

end Descriptor

end SymbolMap
