import SymbolMap.Proofs.Descriptor.RoundTrip
import SymbolMap.Proofs.MemberLines.Placeholder

/-!
Placeholders in the classes that a descriptor refers to.

* `Descriptor.read_of_unnamed`: a descriptor that refers to a class without a name is refused;
* `Descriptor.mapClasses_eq_iff`, `classes_mapClasses`: what a renaming does to the classes of a descriptor;
* `withoutPlaceholder`, `withoutAny`: a class without the placeholder at its start, and without all that look
  like one;
* `cleared_render`: taking placeholders out of the text of a descriptor takes them out of its classes;
* `readDescriptor_eq`: so a descriptor is read without them, unless a class has no other name;
* `readDescriptor_strips_references`: nothing but placeholders is lost exactly if none stands inside of a class.
-/
namespace SymbolMap

/-! ## Classes without a name -/

theorem TypeToken.read_of_unnamed {t : TypeToken} (unnamed : t.className? = some []) (rest : Text) :
    TypeToken.read (t.render ++ rest) = .error .emptyClass := by
  obtain ⟨depth, primitive | reference⟩ := t
  · cases unnamed
  · cases unnamed
    have start : ((ElementType.reference []).render ++ rest).head? ≠ some '[' :=
      fun is => absurd (Option.some.inj is) (by decide)
    unfold render
    rw [List.append_assoc, read_replicate_append depth start]
    rfl

namespace Descriptor

theorem readParams_of_refused {text : Text} {fault : DescriptorFault}
    (refused : TypeToken.read text = .error fault) (filled : text ≠ []) (notEnd : text.head? ≠ some ')') :
    readParams text = .error fault := by
  rw [readParams.eq_def]
  split
  · exact absurd rfl filled
  · exact absurd rfl notEnd
  · split
    · next failed =>
      rw [refused] at failed
      exact congrArg Except.error (Except.error.inj failed).symm
    · next found =>
      rw [refused] at found
      cases found

/-- Parameters are read up to the first class without a name. -/
theorem readParams_of_unnamed {params : List TypeToken}
    (legible : ∀ t ∈ params, (t.WellFormed ∧ t.isVoid = false) ∨ t.className? = some [])
    (unnamed : ∃ t ∈ params, t.className? = some []) (rest : Text) :
    readParams (params.flatMap TypeToken.render ++ ')' :: rest) = .error .emptyClass := by
  induction params with
  | nil =>
    obtain ⟨t, mem, _⟩ := unnamed
    exact absurd mem List.not_mem_nil
  | cons t ts ih =>
    obtain ⟨here, later⟩ := List.forall_mem_cons.mp legible
    obtain ⟨c, cs, is, other⟩ := t.exists_render_eq_cons
    rw [List.flatMap_cons, List.append_assoc]
    rcases here with ⟨formed, notVoid⟩ | none
    · have named : t.className? ≠ some [] := by
        rintro none
        obtain ⟨depth, primitive | reference⟩ := t
        · cases none
        · cases none
          exact formed.1.1 rfl
      have others : ∃ t ∈ ts, t.className? = some [] := by
        obtain ⟨t', mem, none⟩ := unnamed
        rcases List.mem_cons.mp mem with rfl | mem
        · exact absurd none named
        · exact ⟨t', mem, none⟩
      rw [readParams_of_read (TypeToken.read_append formed _) (by simpa [is] using other), notVoid, ih later others]
      rfl
    · refine readParams_of_refused (TypeToken.read_of_unnamed none _) ?_ (by simpa [is] using other)
      exact List.append_ne_nil_of_left_ne_nil (by simp [is]) _

theorem readResult_of_unnamed {t : TypeToken} (unnamed : t.className? = some []) :
    readResult t.render = .error .emptyClass := by
  have refused := TypeToken.read_of_unnamed unnamed []
  rw [List.append_nil] at refused
  obtain ⟨c, cs, is, _⟩ := t.exists_render_eq_cons
  unfold readResult
  split
  · next empty =>
    rw [is] at empty
    cases empty
  · rw [refused]

/-- Of a descriptor that is well-formed but for classes without names, one is found first. -/
theorem read_of_unnamed {d : Descriptor}
    (params : ∀ t ∈ d.params, (t.WellFormed ∧ t.isVoid = false) ∨ t.className? = some [])
    (unnamed : [] ∈ d.classes) : read d.render = .error ⟨d.render, .emptyClass⟩ := by
  have parts : readParts d.render = .error .emptyClass := by
    unfold render
    rw [List.cons_append, readParts]
    by_cases inside : ∃ t ∈ d.params, t.className? = some []
    · rw [readParams_of_unnamed params inside]
      rfl
    · have formed : ∀ t ∈ d.params, t.WellFormed ∧ t.isVoid = false :=
        fun t mem => (params t mem).resolve_right fun none => inside ⟨t, mem, none⟩
      have result : d.result.className? = some [] := (mem_classes.mp unnamed).resolve_left inside
      rw [readParams_append formed]
      change readResult d.result.render >>= _ = _
      rw [readResult_of_unnamed result]
      rfl
  unfold read
  rw [parts]
  rfl

/-! ## Renamed classes -/

end Descriptor

variable {rename rename' : Text → Option Text}

theorem TypeToken.mapClass_eq_iff {t : TypeToken} :
    t.mapClass rename = t.mapClass rename' ↔ ∀ c ∈ t.className?, newName rename c = newName rename' c := by
  obtain ⟨depth, primitive | reference⟩ := t
  · exact iff_of_true rfl nofun
  · rw [mapClass_reference, mapClass_reference]
    simp [className?]

theorem TypeToken.className?_mapClass (rename : Text → Option Text) (t : TypeToken) :
    (t.mapClass rename).className? = t.className?.map (newName rename) := by
  obtain ⟨depth, primitive | reference⟩ := t <;> rfl

namespace Descriptor

variable {d : Descriptor}

/-- Two renamings come to the same only if they agree on the classes of the descriptor. -/
theorem mapClasses_eq_iff :
    d.mapClasses rename = d.mapClasses rename' ↔ ∀ c ∈ d.classes, newName rename c = newName rename' c := by
  rw [forall_classes_iff, ← TypeToken.mapClass_eq_iff]
  unfold mapClasses
  rw [mk.injEq, List.map_inj_left]
  exact and_congr_left fun _ => forall₂_congr fun t _ => TypeToken.mapClass_eq_iff

theorem classes_mapClasses (rename : Text → Option Text) (d : Descriptor) :
    (d.mapClasses rename).classes = d.classes.map (newName rename) := by
  have tokens : (d.mapClasses rename).tokens = d.tokens.map (TypeToken.mapClass rename) := by
    simp [mapClasses, Descriptor.tokens]
  unfold classes
  rw [tokens, List.filterMap_map, List.map_filterMap]
  exact List.filterMap_congr fun t _ => TypeToken.className?_mapClass rename t

/-- A renaming that leaves a class without a name leaves no descriptor. -/
theorem read_mapClasses_of_unnamed (formed : d.WellFormed) (noEnds : ∀ c ∈ d.classes, ';' ∉ newName rename c)
    (unnamed : ∃ c ∈ d.classes, newName rename c = []) :
    read (d.mapClasses rename).render = .error ⟨(d.mapClasses rename).render, .emptyClass⟩ := by
  refine read_of_unnamed (List.forall_mem_map.mpr fun t ht => ?_) ?_
  · obtain ⟨own, notVoid⟩ := formed.1 t ht
    rw [TypeToken.className?_mapClass, TypeToken.isVoid_mapClass]
    by_cases none : t.className?.map (newName rename) = some []
    · exact .inr none
    · have noEnd := (forall_classes_iff.mp noEnds).1 t ht
      refine .inl ⟨own.mapClass fun c is => ⟨fun empty => none ?_, noEnd c is⟩, notVoid⟩
      rw [Option.mem_def.mp is, Option.map_some, empty]
  · rw [classes_mapClasses]
    exact List.mem_map.mpr unnamed

end Descriptor

namespace MemberLines

/-! ## Placeholders -/

/-- Takes the placeholder from the start of a class name. -/
def withoutPlaceholder (className : Text) : Text :=
  if Text.startsWith className placeholder then className.drop placeholder.length else className

/-- Takes out all that stands like a placeholder after some letter `L`. -/
abbrev cleared (text : Text) : Text := Text.replaceAll ('L' :: placeholder) ['L'] text

/-- The placeholder at the start stands after the letter `L` of the reference, and others after letters of the
name. -/
def withoutAny (className : Text) : Text := cleared (withoutPlaceholder className)

theorem withoutPlaceholder_append (rest : Text) : withoutPlaceholder (placeholder ++ rest) = rest := by
  unfold withoutPlaceholder
  rw [if_pos (Text.startsWith_append placeholder rest), List.drop_left]

theorem withoutPlaceholder_of_other {className : Text} (other : ¬placeholder <+: className) :
    withoutPlaceholder className = className :=
  if_neg fun starts => other (Text.startsWith_iff.mp starts)

/-- What is left is the end of the class name. -/
theorem withoutPlaceholder_suffix (className : Text) : withoutPlaceholder className <:+ className := by
  unfold withoutPlaceholder
  split
  · exact List.drop_suffix _ className
  · exact List.suffix_refl className

theorem not_mem_withoutAny {className : Text} (noEnd : ';' ∉ className) : ';' ∉ withoutAny className := by
  intro inside
  rcases Text.mem_of_mem_replaceFrom inside with letter | own
  · exact absurd letter (by decide)
  · exact noEnd ((withoutPlaceholder_suffix className).subset own)

theorem withoutAny_eq_nil_iff {className : Text} :
    withoutAny className = [] ↔ className = [] ∨ className = placeholder := by
  unfold withoutAny
  rw [Text.replaceAll_eq_nil_iff (by decide) (by decide)]
  by_cases starts : placeholder <+: className
  · obtain ⟨rest, rfl⟩ := starts
    rw [withoutPlaceholder_append, List.append_right_eq_self]
    exact (or_iff_right (List.append_ne_nil_of_left_ne_nil (by decide) rest)).symm
  · rw [withoutPlaceholder_of_other starts]
    refine (or_iff_left ?_).symm
    rintro rfl
    exact starts (List.prefix_refl placeholder)

/-- The placeholder at the start has no letter `L`. -/
theorem infix_withoutPlaceholder_iff (className : Text) :
    'L' :: placeholder <:+: withoutPlaceholder className ↔ 'L' :: placeholder <:+: className := by
  refine ⟨fun inside => inside.trans (withoutPlaceholder_suffix className).isInfix, fun inside => ?_⟩
  by_cases starts : placeholder <+: className
  · obtain ⟨rest, rfl⟩ := starts
    rw [Text.infix_append_of_not_mem (by decide)] at inside
    rwa [withoutPlaceholder_append]
  · rwa [withoutPlaceholder_of_other starts]

/-- Only an occurrence inside of the name makes a difference. -/
theorem withoutAny_eq_iff (className : Text) :
    withoutAny className = withoutPlaceholder className ↔ ¬ 'L' :: placeholder <:+: className := by
  unfold withoutAny
  rw [Text.replaceAll_eq_self_iff (by decide), infix_withoutPlaceholder_iff]

/-! ## In the text of a descriptor -/

theorem cleared_reference (className : Text) : cleared ('L' :: className) = 'L' :: withoutAny className := by
  unfold withoutAny
  by_cases starts : placeholder <+: className
  · obtain ⟨rest, rfl⟩ := starts
    rw [withoutPlaceholder_append, ← List.cons_append, cleared, Text.replaceAll_append (by decide)]
    rfl
  · rw [withoutPlaceholder_of_other starts]
    exact Text.replaceAll_cons fun h => starts (List.cons_prefix_cons.mp h).2

theorem cleared_token (t : TypeToken) (rest : Text) :
    cleared (t.render ++ rest) = (t.mapClass (some ∘ withoutAny)).render ++ cleared rest := by
  obtain ⟨depth, element⟩ := t
  have brackets : 'L' ∉ List.replicate depth '[' := fun inside =>
    absurd (List.mem_replicate.mp inside).2 (by decide)
  unfold TypeToken.render
  cases element with
  | primitive p =>
    have noLetter : 'L' ∉ List.replicate depth '[' ++ [p.letter] := by
      rw [List.mem_append, not_or]
      exact ⟨brackets, by cases p <;> decide⟩
    exact Text.replaceAll_append_of_not_mem noLetter placeholder rest
  | reference className =>
    have text (name : Text) (rest : Text) :
        List.replicate depth '[' ++ (ElementType.reference name).render ++ rest =
          List.replicate depth '[' ++ ('L' :: name ++ ';' :: rest) := by
      simp [ElementType.render]
    -- No occurrence reaches over the semicolon that ends the name.
    have upTo : cleared ('L' :: className ++ ';' :: rest) = 'L' :: withoutAny className ++ ';' :: cleared rest := by
      rw [← cleared_reference]
      exact Text.replaceAll_append_cons (by decide) (by decide) _ rest
    calc cleared (List.replicate depth '[' ++ (ElementType.reference className).render ++ rest)
      _ = List.replicate depth '[' ++ cleared ('L' :: className ++ ';' :: rest) := by
        rw [text]
        exact Text.replaceAll_append_of_not_mem brackets placeholder _
      _ = List.replicate depth '[' ++ (ElementType.reference (withoutAny className)).render ++ cleared rest := by
        rw [upTo, text]

theorem cleared_tokens (ts : List TypeToken) :
    cleared (ts.flatMap TypeToken.render) =
      (ts.map (TypeToken.mapClass (some ∘ withoutAny))).flatMap TypeToken.render := by
  induction ts with
  | nil => rfl
  | cons t ts ih => rw [List.flatMap_cons, cleared_token, ih, List.map_cons, List.flatMap_cons]

/-- Nothing but the classes of a descriptor changes when placeholders are taken out of its text. -/
theorem cleared_render (d : Descriptor) :
    cleared d.render = (d.mapClasses (some ∘ withoutAny)).render := by
  have result := cleared_token d.result []
  rw [List.append_nil, show cleared [] = [] from rfl, List.append_nil] at result
  have parts : cleared d.render =
      '(' :: cleared (d.params.flatMap TypeToken.render) ++ ')' :: cleared d.result.render := by
    unfold Descriptor.render
    rw [cleared, Text.replaceAll_append_cons (by decide) (by decide)]
    exact congrArg (· ++ _) (Text.replaceAll_append_cons (by decide) (by decide) [] _)
  rw [parts, cleared_tokens, result]
  rfl

/-- A descriptor is read without its placeholders, unless one of its classes has no name but that. -/
theorem readDescriptor_eq {word : Text} {d : Descriptor} (read : Descriptor.read word = .ok d) :
    readDescriptor word =
      if placeholder ∈ d.classes then .error (.invalidDescriptor ⟨cleared word, .emptyClass⟩)
      else .ok (d.mapClasses (some ∘ withoutAny)) := by
  obtain ⟨formed, rfl⟩ := Descriptor.eq_of_read read
  have classes := formed.classes
  have noEnds : ∀ c ∈ d.classes, ';' ∉ newName (some ∘ withoutAny) c :=
    fun c hc => not_mem_withoutAny (classes c hc).2
  change (Descriptor.read (cleared d.render)).mapError Fault.invalidDescriptor = _
  rw [cleared_render]
  split
  · next alone =>
    have empty : newName (some ∘ withoutAny) placeholder = [] := rfl
    rw [Descriptor.read_mapClasses_of_unnamed formed noEnds ⟨placeholder, alone, empty⟩]
    rfl
  · next named =>
    rw [Descriptor.read_render (formed.mapClasses fun c hc => ⟨fun empty => ?_, noEnds c hc⟩)]
    · rfl
    · rcases withoutAny_eq_nil_iff.mp empty with none | rfl
      · exact (classes c hc).1 none
      · exact named hc

/-- A descriptor is read unless a class has no name but the placeholder. Then each class has lost the placeholder
at its start, and nothing else is lost exactly if no class has a placeholder after a letter `L` of its own. -/
theorem readDescriptor_strips_references {word : Text} {d : Descriptor} (read : Descriptor.read word = .ok d) :
    ((∃ d', readDescriptor word = .ok d') ↔ placeholder ∉ d.classes) ∧
      (placeholder ∉ d.classes →
        readDescriptor word = .ok (d.mapClasses (some ∘ withoutAny)) ∧
        (readDescriptor word = .ok (d.mapClasses (some ∘ withoutPlaceholder)) ↔
          ∀ c ∈ d.classes, ¬ 'L' :: placeholder <:+: c)) := by
  rw [readDescriptor_eq read]
  by_cases alone : placeholder ∈ d.classes
  · rw [if_pos alone]
    exact ⟨iff_of_false nofun (not_not_intro alone), fun named => absurd alone named⟩
  · rw [if_neg alone]
    refine ⟨iff_of_true ⟨_, rfl⟩ alone, fun _ => ⟨rfl, ?_⟩⟩
    rw [Except.ok.injEq, Descriptor.mapClasses_eq_iff]
    exact forall₂_congr fun c _ => withoutAny_eq_iff c

theorem readDescriptor_strips_references_repeated :
    let word := "(Lnone/b;[I[Lc/none/d;)Lnone/none/e;".toList
    let d : Descriptor :=
      ⟨[⟨0, .reference "none/b".toList⟩, ⟨1, .primitive .int⟩, ⟨1, .reference "c/none/d".toList⟩],
        ⟨0, .reference "none/none/e".toList⟩⟩
    Descriptor.read word = .ok d ∧ placeholder ∉ d.classes ∧
      readDescriptor word = .ok (d.mapClasses (some ∘ withoutPlaceholder)) := by
  intro word d
  have read : Descriptor.read word = .ok d := toOption_eq_some_iff.mp (by decide +kernel)
  have named : placeholder ∉ d.classes := by decide
  obtain ⟨_, stripped⟩ := readDescriptor_strips_references read
  exact ⟨read, named, (stripped named).2.mpr (by decide +kernel)⟩

/-- A class whose own name has the letter and the placeholder in it is taken for another one. -/
theorem readDescriptor_alters_name :
    let word := "(LxLnone/b;)V".toList
    let d : Descriptor := ⟨[⟨0, .reference "xLnone/b".toList⟩], ⟨0, .primitive .void⟩⟩
    Descriptor.read word = .ok d ∧ placeholder ∉ d.classes ∧ d.mapClasses (some ∘ withoutPlaceholder) = d ∧
      readDescriptor word = .ok ⟨[⟨0, .reference "xLb".toList⟩], ⟨0, .primitive .void⟩⟩ ∧
      readDescriptor word ≠ .ok d := by
  intro word d
  have altered : readDescriptor word = .ok ⟨[⟨0, .reference "xLb".toList⟩], ⟨0, .primitive .void⟩⟩ :=
    toOption_eq_some_iff.mp (by decide +kernel)
  refine ⟨toOption_eq_some_iff.mp (by decide +kernel), by decide, by decide, altered, ?_⟩
  rw [altered]
  exact fun same => absurd (Except.ok.inj same) (by decide)

end MemberLines
end SymbolMap
