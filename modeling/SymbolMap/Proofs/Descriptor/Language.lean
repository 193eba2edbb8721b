import SymbolMap.Proofs.Descriptor.Positions

/-!
The language of the descriptors.

* `IsType`, `IsDescriptor`: the grammar, in terms of texts alone;
* `isType_iff`, `isResult_iff`, `isDescriptor_iff`: its texts are those of well-formed types and descriptors;
* `Descriptor.reads_its_language`: a text is read as a descriptor if it is the text of that one, and refused if it
  is not of the grammar.
-/
namespace SymbolMap

/-- A letter, a class between `L` and the next semicolon, or an array of one of them. -/
inductive IsType : Text → Prop
  | letter {c : Char} : c ∈ "BCDFIJSZ".toList → IsType [c]
  | reference {className : Text} : className ≠ [] → ';' ∉ className → IsType ('L' :: className ++ [';'])
  | array {text : Text} : IsType text → IsType ('[' :: text)

/-- Only a method's result can be void. -/
def IsResult (text : Text) : Prop := IsType text ∨ text = ['V']

/-- Types in parentheses, one after the other, and a result. -/
inductive IsDescriptor : Text → Prop
  | intro {params : List Text} {result : Text} : (∀ param ∈ params, IsType param) → IsResult result →
      IsDescriptor ('(' :: params.flatten ++ ')' :: result)

theorem Primitive.letter_mem_iff (p : Primitive) : p.letter ∈ "BCDFIJSZ".toList ↔ p ≠ .void := by
  cases p <;> decide

theorem Primitive.exists_letter_eq {c : Char} (h : c ∈ "BCDFIJSZ".toList) :
    ∃ p : Primitive, p ≠ .void ∧ p.letter = c := by
  have known : ("BCDFIJSZ".toList.all fun c => (ofLetter? c).isSome) = true := by decide
  obtain ⟨p, is⟩ := Option.isSome_iff_exists.mp (List.all_eq_true.mp known c h)
  obtain rfl := letter_of_ofLetter? is
  exact ⟨p, p.letter_mem_iff.mp h, rfl⟩

namespace TypeToken

/-- A parameter is neither void nor an array of it. -/
theorem wellFormed_and_not_void_iff {t : TypeToken} :
    t.WellFormed ∧ t.isVoid = false ↔ t.element.WellFormed ∧ t.element ≠ .primitive .void := by
  unfold WellFormed isVoid
  constructor
  · rintro ⟨⟨formed, flat⟩, notVoid⟩
    refine ⟨formed, fun void => ?_⟩
    simp [flat void, void] at notVoid
  · rintro ⟨formed, notVoid⟩
    exact ⟨⟨formed, fun void => absurd void notVoid⟩, by simp [notVoid]⟩

theorem isType_render {element : ElementType} (formed : element.WellFormed)
    (notVoid : element ≠ .primitive .void) (depth : Nat) : IsType (render ⟨depth, element⟩) := by
  induction depth with
  | zero =>
    cases element with
    | primitive p => exact .letter (p.letter_mem_iff.mpr fun void => notVoid (congrArg _ void))
    | reference className => exact .reference formed.1 formed.2
  | succ depth ih => exact .array ih

theorem isType_iff {text : Text} :
    IsType text ↔ ∃ t : TypeToken, (t.WellFormed ∧ t.isVoid = false) ∧ t.render = text := by
  constructor
  · intro h
    induction h with
    | letter known =>
      obtain ⟨p, notVoid, rfl⟩ := Primitive.exists_letter_eq known
      refine ⟨⟨0, .primitive p⟩, wellFormed_and_not_void_iff.mpr ⟨trivial, ?_⟩, rfl⟩
      exact fun void => notVoid (ElementType.primitive.inj void)
    | @reference className named noEnd =>
      exact ⟨⟨0, .reference className⟩, wellFormed_and_not_void_iff.mpr ⟨⟨named, noEnd⟩, nofun⟩, rfl⟩
    | array _ ih =>
      obtain ⟨t, formed, rfl⟩ := ih
      have element := wellFormed_and_not_void_iff.mp formed
      exact ⟨⟨t.depth + 1, t.element⟩, wellFormed_and_not_void_iff.mpr element, rfl⟩
  · rintro ⟨t, formed, rfl⟩
    obtain ⟨formed, notVoid⟩ := wellFormed_and_not_void_iff.mp formed
    exact isType_render formed notVoid t.depth

theorem isResult_iff {text : Text} : IsResult text ↔ ∃ t : TypeToken, t.WellFormed ∧ t.render = text := by
  constructor
  · rintro (type | rfl)
    · obtain ⟨t, ⟨formed, _⟩, is⟩ := isType_iff.mp type
      exact ⟨t, formed, is⟩
    · exact ⟨⟨0, .primitive .void⟩, ⟨trivial, fun _ => rfl⟩, rfl⟩
  · rintro ⟨t, formed, rfl⟩
    cases void : t.isVoid with
    | false => exact .inl (isType_iff.mpr ⟨t, ⟨formed, void⟩, rfl⟩)
    | true =>
      obtain ⟨depth, element⟩ := t
      obtain ⟨rfl, rfl⟩ : depth = 0 ∧ element = .primitive .void := by simpa [isVoid] using void
      exact .inr rfl

/-- Texts that are those of parameters, one by one. -/
theorem exists_map_render {params : List Text} (h : ∀ param ∈ params, IsType param) :
    ∃ ts : List TypeToken, (∀ t ∈ ts, t.WellFormed ∧ t.isVoid = false) ∧ ts.map render = params := by
  induction params with
  | nil => exact ⟨[], by simp, rfl⟩
  | cons param params ih =>
    obtain ⟨first, others⟩ := List.forall_mem_cons.mp h
    obtain ⟨t, formed, rfl⟩ := isType_iff.mp first
    obtain ⟨ts, all, rfl⟩ := ih others
    exact ⟨t :: ts, List.forall_mem_cons.mpr ⟨formed, all⟩, rfl⟩

end TypeToken

namespace Descriptor

theorem isDescriptor_iff {text : Text} :
    IsDescriptor text ↔ ∃ d : Descriptor, d.WellFormed ∧ d.render = text := by
  constructor
  · rintro ⟨params, result⟩
    obtain ⟨ts, all, rfl⟩ := TypeToken.exists_map_render params
    obtain ⟨t, formed, rfl⟩ := TypeToken.isResult_iff.mp result
    refine ⟨⟨ts, t⟩, ⟨all, formed⟩, ?_⟩
    rw [render, List.flatMap_def]
  · rintro ⟨⟨ts, t⟩, ⟨all, formed⟩, rfl⟩
    rw [render, List.flatMap_def]
    refine .intro (fun param mem => ?_) (TypeToken.isResult_iff.mpr ⟨t, formed, rfl⟩)
    obtain ⟨t', ht', rfl⟩ := List.mem_map.mp mem
    exact TypeToken.isType_iff.mpr ⟨t', all t' ht', rfl⟩

theorem read_eq_ok_iff {text : Text} {d : Descriptor} : read text = .ok d ↔ d.WellFormed ∧ d.render = text := by
  constructor
  · intro h
    exact ⟨wellFormed_of_read h, render_of_read h⟩
  · rintro ⟨formed, rfl⟩
    exact read_render formed

/-- A text that is not of the language is refused, and the refusal quotes it. -/
theorem isDescriptor_or_refused (text : Text) :
    IsDescriptor text ∨ ∃ fault, read text = .error ⟨text, fault⟩ := by
  unfold read
  cases found : readParts text with
  | error fault => exact .inr ⟨fault, rfl⟩
  | ok d =>
    have h : read text = .ok d := mapError_eq_ok_iff.mpr found
    exact .inl (isDescriptor_iff.mpr ⟨d, read_eq_ok_iff.mp h⟩)

/-- A text is read as a descriptor exactly if that one is well-formed and has this text. Which texts are read as
any the grammar says; all others are refused, and a reader by byte positions makes no cut that fails. -/
theorem reads_its_language (text : Text) :
    (∀ d, read text = .ok d ↔ d.WellFormed ∧ d.render = text) ∧
    ((∃ d, read text = .ok d) ↔ IsDescriptor text) ∧
    (IsDescriptor text ∨ ∃ fault, read text = .error ⟨text, fault⟩) ∧
    readBytes text = some (read text) := by
  refine ⟨fun d => read_eq_ok_iff, ?_, isDescriptor_or_refused text, readBytes_eq text⟩
  rw [isDescriptor_iff]
  exact exists_congr fun d => read_eq_ok_iff

end Descriptor
end SymbolMap
