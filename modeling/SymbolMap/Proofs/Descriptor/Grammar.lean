import SymbolMap.Descriptor.Basic
import SymbolMap.Proofs.Outcome
import SymbolMap.Proofs.Text.MemberName

/-!
The texts that are method descriptors.

* `WellFormed`: what a descriptor must be like to have a text of its own;
* `TypeToken.read_append`, `TypeToken.eq_of_read`: one type is read back, and only a type is read;
* `read_render`: each well-formed descriptor is read back from its text;
* `wellFormed_of_read`, `render_of_read`: a text that is read is the text of a well-formed descriptor.
-/
namespace SymbolMap

namespace ElementType

/-- A class name stands before a semicolon, so it has none. -/
def WellFormed : ElementType → Prop
  | primitive _ => True
  | reference className => className ≠ [] ∧ ';' ∉ className

theorem read_append {e : ElementType} (h : e.WellFormed) (rest : Text) :
    read (e.render ++ rest) = .ok (e, rest) := by
  cases e with
  | primitive p => cases p <;> rfl
  | reference className =>
    obtain ⟨named, noEnd⟩ := h
    have text : render (reference className) ++ rest = 'L' :: (className ++ ';' :: rest) := by
      simp [render]
    rw [text, read, Text.cut_append_cons noEnd]
    cases className with
    | nil => exact absurd rfl named
    | cons c cs => rfl

theorem eq_of_read {text rest : Text} {e : ElementType} (h : read text = .ok (e, rest)) :
    e.WellFormed ∧ text = e.render ++ rest := by
  unfold read at h
  split at h
  · cases h
  · next text =>
    split at h
    · cases h
    · cases h
    · next className after named found =>
      obtain ⟨rfl, rfl⟩ := Prod.mk.inj (Except.ok.inj h)
      obtain ⟨rfl, noEnd⟩ := Text.eq_of_cut found
      refine ⟨⟨?_, noEnd⟩, by simp [render]⟩
      rintro rfl
      exact named rfl
  · next c after _ =>
    split at h
    · next p is =>
      obtain ⟨rfl, rfl⟩ := Prod.mk.inj (Except.ok.inj h)
      exact ⟨trivial, by rw [Primitive.letter_of_ofLetter? is]; rfl⟩
    · cases h

theorem exists_render_eq_cons (e : ElementType) :
    ∃ c cs, e.render = c :: cs ∧ c ≠ '[' ∧ c ≠ ')' := by
  cases e with
  | primitive p => exact ⟨p.letter, [], rfl, by cases p <;> decide, by cases p <;> decide⟩
  | reference className => exact ⟨'L', className ++ [';'], rfl, by decide, by decide⟩

end ElementType

namespace TypeToken

/-- There are no arrays of void. -/
def WellFormed (t : TypeToken) : Prop :=
  t.element.WellFormed ∧ (t.element = .primitive .void → t.depth = 0)

theorem exists_render_eq_cons (t : TypeToken) : ∃ c cs, t.render = c :: cs ∧ c ≠ ')' := by
  obtain ⟨c, cs, is, _, notEnd⟩ := t.element.exists_render_eq_cons
  unfold render
  rw [is]
  cases t.depth with
  | zero => exact ⟨c, cs, rfl, notEnd⟩
  | succ n => exact ⟨'[', _, rfl, by decide⟩

/-- The type that an element and the brackets before it are, unless they are an array of void. -/
def ofElement (depth : Nat) (found : ElementType × Text) : Except DescriptorFault (TypeToken × Text) :=
  if depth ≠ 0 ∧ found.1 = .primitive .void then .error .arrayOfVoid
  else .ok (⟨depth, found.1⟩, found.2)

theorem span_replicate_append (depth : Nat) {text : Text} (h : text.head? ≠ some '[') :
    (List.replicate depth '[' ++ text).takeWhile (· == '[') = List.replicate depth '[' ∧
      (List.replicate depth '[' ++ text).dropWhile (· == '[') = text := by
  have all : ∀ c ∈ List.replicate depth '[', (c == '[') = true :=
    fun c hc => beq_iff_eq.mpr (List.mem_replicate.mp hc).2
  cases text with
  | nil =>
    rw [List.append_nil]
    exact Text.span_of_forall all
  | cons c cs =>
    have other : (c == '[') = false := beq_eq_false_iff_ne.mpr fun eq => h (by rw [eq]; rfl)
    exact Text.span_append_cons cs all other

theorem read_replicate_append (depth : Nat) {text : Text} (h : text.head? ≠ some '[') :
    read (List.replicate depth '[' ++ text) = ElementType.read text >>= ofElement depth := by
  obtain ⟨taken, dropped⟩ := span_replicate_append depth h
  unfold read
  rw [taken, dropped, List.length_replicate]
  rfl

theorem read_append {t : TypeToken} (h : t.WellFormed) (rest : Text) :
    read (t.render ++ rest) = .ok (t, rest) := by
  obtain ⟨c, cs, is, other, _⟩ := t.element.exists_render_eq_cons
  have start : (t.element.render ++ rest).head? ≠ some '[' := by simpa [is] using other
  have noArray : ¬(t.depth ≠ 0 ∧ t.element = .primitive .void) := fun ⟨deep, void⟩ =>
    deep (h.2 void)
  unfold render
  rw [List.append_assoc, read_replicate_append t.depth start, ElementType.read_append h.1]
  exact if_neg noArray

theorem eq_replicate_append (text : Text) :
    ∃ depth after, text = List.replicate depth '[' ++ after ∧ after.head? ≠ some '[' := by
  induction text with
  | nil => exact ⟨0, [], rfl, nofun⟩
  | cons c cs ih =>
    by_cases more : c = '['
    · obtain ⟨depth, after, rfl, stop⟩ := ih
      exact ⟨depth + 1, after, by rw [more]; rfl, stop⟩
    · exact ⟨0, c :: cs, rfl, by simpa using more⟩

theorem eq_of_read {text rest : Text} {t : TypeToken} (h : read text = .ok (t, rest)) :
    t.WellFormed ∧ text = t.render ++ rest := by
  obtain ⟨depth, after, rfl, stop⟩ := eq_replicate_append text
  rw [read_replicate_append depth stop] at h
  obtain ⟨⟨element, rest'⟩, found, h⟩ := bind_eq_ok_iff.mp h
  unfold ofElement at h
  split at h
  · cases h
  · next noArray =>
    obtain ⟨rfl, rfl⟩ := Prod.mk.inj (Except.ok.inj h)
    obtain ⟨formed, rfl⟩ := ElementType.eq_of_read found
    refine ⟨⟨formed, fun void => ?_⟩, by simp [render]⟩
    by_cases flat : depth = 0
    · exact flat
    · exact absurd ⟨flat, void⟩ noArray

end TypeToken

namespace Descriptor

/-- Only the result may be void. -/
def WellFormed (d : Descriptor) : Prop :=
  (∀ t ∈ d.params, t.WellFormed ∧ t.isVoid = false) ∧ d.result.WellFormed

theorem readParams_of_read {text rest : Text} {t : TypeToken}
    (h : TypeToken.read text = .ok (t, rest)) (notEnd : text.head? ≠ some ')') :
    readParams text =
      if t.isVoid then .error .voidParameter
      else (readParams rest).map fun (ts, rest) => (t :: ts, rest) := by
  rw [readParams.eq_def]
  split
  · cases h
  · exact absurd rfl notEnd
  · next c cs _ =>
    split
    · next e failed =>
      rw [h] at failed
      cases failed
    · next t' rest' found =>
      rw [h] at found
      obtain ⟨rfl, rfl⟩ := Prod.mk.inj (Except.ok.inj found)
      rfl

theorem readParams_append {params : List TypeToken}
    (h : ∀ t ∈ params, t.WellFormed ∧ t.isVoid = false) (rest : Text) :
    readParams (params.flatMap TypeToken.render ++ ')' :: rest) = .ok (params, rest) := by
  induction params with
  | nil =>
    rw [List.flatMap_nil, List.nil_append, readParams.eq_def]
    rfl
  | cons t ts ih =>
    obtain ⟨⟨formed, notVoid⟩, others⟩ := List.forall_mem_cons.mp h
    obtain ⟨c, cs, is, other⟩ := t.exists_render_eq_cons
    rw [List.flatMap_cons, List.append_assoc,
      readParams_of_read (TypeToken.read_append formed _) (by simpa [is] using other), notVoid,
      ih others]
    rfl

theorem eq_of_readParams {text rest : Text} {params : List TypeToken}
    (h : readParams text = .ok (params, rest)) :
    (∀ t ∈ params, t.WellFormed ∧ t.isVoid = false) ∧
      text = params.flatMap TypeToken.render ++ ')' :: rest := by
  -- The induction is on the types that were found; the text is cut shorter by a type at a time.
  induction params generalizing text with
  | nil =>
    rw [readParams.eq_def] at h
    split at h
    · cases h
    · obtain ⟨_, rfl⟩ := Prod.mk.inj (Except.ok.inj h)
      exact ⟨fun _ ht => absurd ht List.not_mem_nil, rfl⟩
    · split at h
      · cases h
      · next found =>
        split at h
        · cases h
        · cases more : readParams _ <;> rw [more] at h <;> cases h
  | cons t ts ih =>
    rw [readParams.eq_def] at h
    split at h
    · cases h
    · cases h
    · split at h
      · cases h
      · next t' rest' found =>
        split at h
        · cases h
        · next notVoid =>
          cases more : readParams rest' with
          | error e =>
            rw [more] at h
            cases h
          | ok pair =>
            rw [more] at h
            obtain ⟨is, rfl⟩ := Prod.mk.inj (Except.ok.inj h)
            obtain ⟨rfl, rfl⟩ := List.cons.inj is
            obtain ⟨others, text⟩ := ih more
            obtain ⟨formed, whole⟩ := TypeToken.eq_of_read found
            refine ⟨List.forall_mem_cons.mpr ⟨⟨formed, by simpa using notVoid⟩, others⟩, ?_⟩
            rw [whole, text, List.flatMap_cons, List.append_assoc]

theorem readResult_render {t : TypeToken} (h : t.WellFormed) : readResult t.render = .ok t := by
  obtain ⟨c, cs, is, _⟩ := t.exists_render_eq_cons
  have found := TypeToken.read_append h []
  rw [List.append_nil] at found
  unfold readResult
  split
  · next empty =>
    rw [is] at empty
    cases empty
  · rw [found]

theorem eq_of_readResult {text : Text} {t : TypeToken} (h : readResult text = .ok t) :
    t.WellFormed ∧ text = t.render := by
  unfold readResult at h
  split at h
  · cases h
  · split at h
    · cases h
    · next found =>
      cases h
      have whole := TypeToken.eq_of_read found
      rwa [List.append_nil] at whole
    · cases h

/-- Each well-formed descriptor is read back from its text. -/
theorem read_render {d : Descriptor} (h : d.WellFormed) : read d.render = .ok d := by
  have parts : readParts d.render = .ok d := by
    unfold render
    rw [List.cons_append, readParts]
    refine bind_eq_ok_iff.mpr ⟨_, readParams_append h.1 d.result.render, ?_⟩
    exact bind_eq_ok_iff.mpr ⟨_, readResult_render h.2, rfl⟩
  exact mapError_eq_ok_iff.mpr parts

theorem eq_of_read {text : Text} {d : Descriptor} (h : read text = .ok d) :
    d.WellFormed ∧ text = d.render := by
  have parts := mapError_eq_ok_iff.mp h
  unfold readParts at parts
  split at parts
  · next text =>
    obtain ⟨⟨params, rest⟩, hp, parts⟩ := bind_eq_ok_iff.mp parts
    obtain ⟨result, hr, is⟩ := bind_eq_ok_iff.mp parts
    cases is
    obtain ⟨paramsFormed, rfl⟩ := eq_of_readParams hp
    obtain ⟨resultFormed, rfl⟩ := eq_of_readResult hr
    exact ⟨⟨paramsFormed, resultFormed⟩, rfl⟩
  · cases parts

theorem wellFormed_of_read {text : Text} {d : Descriptor} (h : read text = .ok d) : d.WellFormed :=
  (eq_of_read h).1

theorem render_of_read {text : Text} {d : Descriptor} (h : read text = .ok d) : d.render = text :=
  (eq_of_read h).2.symm

theorem exists_eq_cons_of_read {text : Text} {d : Descriptor} (h : read text = .ok d) :
    ∃ rest, text = '(' :: rest :=
  ⟨_, (eq_of_read h).2⟩

/-- A descriptor that stands last is found again behind a name. -/
theorem splitDescriptor_of_read (name : Text) {word : Text} (noSpace : ' ' ∉ word)
    {d : Descriptor} (h : read word = .ok d) :
    MemberName.splitDescriptor (name ++ ' ' :: word) = (name, some word) := by
  obtain ⟨rest, is⟩ := exists_eq_cons_of_read h
  exact MemberName.splitDescriptor_append name is noSpace

end Descriptor
end SymbolMap
