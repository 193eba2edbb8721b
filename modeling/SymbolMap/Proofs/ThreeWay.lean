import SymbolMap.Proofs.Dialect.Lines
import SymbolMap.Proofs.Outcome
import SymbolMap.Proofs.Text.MemberName

/-!
The three-way flat dialect, whose lines are read back from what is written.

* `render_eq_join`, `splitOn_render`: a line is made of parts, and splits into them again;
* `read_render`: it is read unless one of its parts is empty;
* `restores_iff_no_bare`: a table is restored exactly if no method's name leaves a part empty.
-/
namespace SymbolMap.ThreeWay

open MemberName (splitDescriptor)

/-- The names of an entry, as they stand on a line. -/
def names (e : Entry) : List Text := [e.obf, e.intermediateOrDeobf, e.deobf]

/-- The parts of a line that a name makes up. -/
def parts (kind : Kind) (name : Text) : List Text :=
  if kind.hasDescriptor then
    match splitDescriptor name with
    | (before, some descriptor) => [before, descriptor]
    | (before, none) => [before]
  else [name]

/-- The names can stand between colons, and the last one at the end of a line. -/
structure Named (e : Entry) : Prop where
  filled : ∀ name ∈ names e, name ≠ []
  colon : ∀ name ∈ names e, ':' ∉ name
  whole : ∀ name ∈ names e, '\n' ∉ name
  last : ∀ c ∈ e.deobf.getLast?, isBlank c = false

-- The instance looks at the last character; all characters could be enumerated, and that must not be tried.
instance (e : Entry) : Decidable (Named e) :=
  decidable_of_iff
    ((∀ name ∈ names e, name ≠ [] ∧ ':' ∉ name ∧ '\n' ∉ name) ∧
      (e.deobf.getLast?.all fun c => !isBlank c) = true)
    ⟨fun ⟨each, last⟩ => ⟨fun n hn => (each n hn).1, fun n hn => (each n hn).2.1,
        fun n hn => (each n hn).2.2, by simpa [Option.all_eq_true] using last⟩,
      fun h => ⟨fun n hn => ⟨h.filled n hn, h.colon n hn, h.whole n hn⟩, by simpa [Option.all_eq_true] using h.last⟩⟩

/-- The name is split into one that is not empty and a descriptor. -/
def Paired (name : Text) : Prop :=
  (splitDescriptor name).1 ≠ [] ∧ (splitDescriptor name).2 ≠ none

/-- There is nothing before the descriptor that the name is split into. -/
def Bare (name : Text) : Prop :=
  (splitDescriptor name).1 = [] ∧ (splitDescriptor name).2 ≠ none

instance (name : Text) : Decidable (Paired name) := inferInstanceAs (Decidable (_ ∧ _))

instance (name : Text) : Decidable (Bare name) := inferInstanceAs (Decidable (_ ∧ _))

/-! ## The parts of a line -/

/-- A name is one part, or two where a descriptor is split from it. -/
theorem parts_cases (kind : Kind) (name : Text) :
    parts kind name = [name] ∧ (kind.hasDescriptor = true → (splitDescriptor name).2 = none) ∨
      kind.hasDescriptor = true ∧ ∃ before word, parts kind name = [before, word] ∧
        splitDescriptor name = (before, some word) ∧ name = before ++ ' ' :: word ∧ word ≠ [] := by
  unfold parts
  rcases MemberName.splitDescriptor_cases name with ⟨before, word, is, describes, split⟩ | ⟨_, split⟩
  · rw [split]
    cases has : kind.hasDescriptor with
    | false => exact .inl ⟨rfl, fun false => absurd false (by simp)⟩
    | true =>
      refine .inr ⟨rfl, before, word, rfl, rfl, is, ?_⟩
      rintro rfl
      cases describes.1
  · rw [split]
    exact .inl ⟨by simp, fun _ => rfl⟩

/-- The parts have no characters but those of the name. -/
theorem mem_of_mem_parts {kind : Kind} {name piece : Text} (h : piece ∈ parts kind name) {c : Char}
    (hc : c ∈ piece) : c ∈ name := by
  rcases parts_cases kind name with ⟨is, _⟩ | ⟨_, before, word, is, _, rfl, _⟩
  · rw [is] at h
    exact List.mem_singleton.mp h ▸ hc
  · rw [is] at h
    simp only [List.mem_cons, List.not_mem_nil, or_false] at h
    rcases h with rfl | rfl
    · exact List.mem_append_left _ hc
    · exact List.mem_append_right _ (List.mem_cons_of_mem _ hc)

theorem renderName_eq (kind : Kind) (name : Text) :
    renderName kind name = (parts kind name).flatMap (':' :: ·) := by
  unfold renderName parts
  by_cases has : kind.hasDescriptor = true
  · rw [if_pos has, if_pos has]
    obtain ⟨before, descriptor⟩ := splitDescriptor name
    cases descriptor <;> simp
  · rw [if_neg has, if_neg has]
    simp

theorem getLast?_renderName (kind : Kind) {name : Text} (filled : name ≠ []) :
    (renderName kind name).getLast? = name.getLast? := by
  rw [renderName_eq]
  rcases parts_cases kind name with ⟨is, _⟩ | ⟨_, before, word, is, _, rfl, ends⟩
  · simp [is, List.getLast?_eq_some_getLast filled, List.getLast?_cons]
  · simp [is, List.getLast?_eq_some_getLast ends, List.getLast?_append, List.getLast?_cons]

/-- The parts of the line of an entry, after its kind. -/
def pieces (kind : Kind) (e : Entry) : List Text := (names e).flatMap (parts kind)

theorem render_eq_join (kind : Kind) (e : Entry) :
    render kind e = Text.join ':' (kind.name.toList :: pieces kind e) := by
  rw [Text.join_cons_eq_flatMap, pieces, List.flatMap_assoc]
  simp [render, renderName_eq, names]

section
variable {kind : Kind} {e : Entry}

theorem not_mem_pieces {c : Char} (apart : ∀ name ∈ names e, c ∉ name) :
    ∀ piece ∈ pieces kind e, c ∉ piece := by
  intro piece hp hc
  obtain ⟨name, hn, part⟩ := List.mem_flatMap.mp hp
  exact apart name hn (mem_of_mem_parts part hc)

/-- Names that are one part each, or a name and a descriptor each, are read again. -/
theorem readNames_pieces
    (alike : (∀ name ∈ names e, parts kind name = [name]) ∨
      kind.hasDescriptor = true ∧ ∀ name ∈ names e, Paired name) :
    readNames false kind (pieces kind e) = .ok (.threeWay e.obf e.intermediateOrDeobf e.deobf) := by
  rcases alike with whole | ⟨has, paired⟩
  · have one : pieces kind e = names e := by
      simp only [names, List.forall_mem_cons] at whole
      simp [pieces, names, whole]
    rw [one]
    rfl
  · have two : ∀ name ∈ names e, ∃ before word, parts kind name = [before, word] ∧
        name = before ++ ' ' :: word := by
      intro name hn
      rcases parts_cases kind name with ⟨_, none⟩ | ⟨_, before, word, is, _, joined, _⟩
      · exact absurd (none has) (paired name hn).2
      · exact ⟨before, word, is, joined⟩
    obtain ⟨b, w, obf, is⟩ := two e.obf (by simp [names])
    obtain ⟨b', w', intermediate, is'⟩ := two e.intermediateOrDeobf (by simp [names])
    obtain ⟨b'', w'', deobf, is''⟩ := two e.deobf (by simp [names])
    have six : pieces kind e = [b, w, b', w', b'', w''] := by
      simp [pieces, names, obf, intermediate, deobf]
    rw [six, is, is', is'']
    simp [readNames, has, methodName, MemberName.withDescriptor]

variable (h : Named e)
include h

theorem splitOn_render : (render kind e).splitOn ':' = kind.name.toList :: pieces kind e := by
  rw [render_eq_join]
  apply List.splitOn_intercalate
  · refine List.forall_mem_cons.mpr ⟨?_, not_mem_pieces h.colon⟩
    cases kind <;> decide
  · simp

theorem getLast?_render : (render kind e).getLast? = e.deobf.getLast? := by
  have filled : e.deobf ≠ [] := h.filled _ (by simp [names])
  unfold render
  rw [List.getLast?_append, getLast?_renderName kind filled, Option.or_of_isSome (by simp [filled])]

theorem tight_render : Text.Tight (render kind e) := by
  have word := Text.tight_of_forall kind.isWord_name.2
  have filled : e.deobf ≠ [] := h.filled _ (by simp [names])
  have last : ∀ c ∈ (renderName kind e.deobf).getLast?, isBlank c = false := by
    rw [getLast?_renderName kind filled]
    exact h.last
  have written : renderName kind e.deobf ≠ [] := by
    intro none
    have same := getLast?_renderName kind filled
    simp [none, List.getLast?_eq_some_getLast filled] at same
  unfold render
  rw [List.append_assoc kind.name.toList]
  exact Text.tight_of_ends word.1 last kind.isWord_name.1 written _

theorem stands : Dialect.Stands (render kind e) where
  whole mem := by
    rw [render_eq_join] at mem
    rcases Text.mem_join mem with colon | ⟨piece, hp, inside⟩
    · cases colon
    · rcases List.mem_cons.mp hp with rfl | later
      · exact absurd inside (by cases kind <;> decide)
      · exact not_mem_pieces h.whole piece later inside
  ended mem := by
    rw [getLast?_render h] at mem
    exact absurd (h.last '\r' mem) (by decide)
  meaningful := by
    unfold render
    rw [List.append_assoc, List.append_assoc]
    exact kind.isComment_name _

/-- A line that was written is read unless one of its parts is empty. -/
theorem read_render : read false (render kind e) =
    if (pieces kind e).any (·.isEmpty) then .error .emptyName
    else (readNames false kind (pieces kind e)).map (.entry kind) := by
  unfold read
  rw [Text.trim_of_tight (tight_render h), splitOn_render h]
  dsimp only
  rw [Kind.readWord_name]
  simp only [bind, Except.bind]
  cases readNames false kind (pieces kind e) <;> rfl

/-- A part is empty only if there is nothing before a method's descriptor. -/
theorem any_isEmpty_pieces : (pieces kind e).any (·.isEmpty) = true ↔
    kind.hasDescriptor = true ∧ ∃ name ∈ names e, Bare name := by
  rw [List.any_eq_true]
  constructor
  · rintro ⟨piece, hp, empty⟩
    obtain ⟨name, hn, part⟩ := List.mem_flatMap.mp hp
    obtain rfl : piece = [] := by simpa using empty
    rcases parts_cases kind name with ⟨is, _⟩ | ⟨has, before, word, is, split, _, ends⟩
    · rw [is] at part
      exact absurd (List.mem_singleton.mp part).symm (h.filled name hn)
    · rw [is] at part
      have start : before = [] := by simpa [ends.symm, eq_comm] using part
      exact ⟨has, name, hn, by simp [split, start], by simp [split]⟩
  · rintro ⟨has, name, hn, start, some⟩
    rcases parts_cases kind name with ⟨_, none⟩ | ⟨_, before, word, is, split, _⟩
    · exact absurd (none has) some
    · obtain rfl : before = [] := by simpa [split] using start
      exact ⟨[], List.mem_flatMap.mpr ⟨name, hn, by simp [is]⟩, rfl⟩

/-- A method's names that all have descriptors, or all have none, are one part each or two each. -/
theorem read_render_of_alike
    (alike : kind.hasDescriptor = true →
      (∀ name ∈ names e, Paired name) ∨ ∀ name ∈ names e, ¬Paired name)
    (proper : kind.hasDescriptor = true → ∀ name ∈ names e, ¬Bare name) :
    read false (render kind e) = .ok (.entry kind (.threeWay e.obf e.intermediateOrDeobf e.deobf)) := by
  have filled : ¬(pieces kind e).any (·.isEmpty) = true := by
    rw [any_isEmpty_pieces h]
    rintro ⟨has, name, hn, bare⟩
    exact proper has name hn bare
  have same : (∀ name ∈ names e, parts kind name = [name]) ∨
      kind.hasDescriptor = true ∧ ∀ name ∈ names e, Paired name := by
    by_cases paired : kind.hasDescriptor = true ∧ ∀ name ∈ names e, Paired name
    · exact .inr paired
    · refine .inl fun name hn => ?_
      rcases parts_cases kind name with ⟨is, _⟩ | ⟨has, before, word, _, split, _⟩
      · exact is
      · -- A name that is split without being bare is paired, and then all of them are.
        have single := (alike has).resolve_left fun all => paired ⟨has, all⟩
        have some : (splitDescriptor name).2 ≠ none := by simp [split]
        exact absurd ⟨fun start => proper has name hn ⟨start, some⟩, some⟩ (single name hn)
  rw [read_render h, if_neg filled, readNames_pieces same]
  rfl

end

/-! ## Tables -/

theorem lineByLine (strip : Bool) : Dialect.LineByLine (.threeWay strip) (read strip) render where
  rows _ := rfl
  list _ := rfl

/-- If all names of a method have descriptors, or none has, a table is restored with its intermediate names
exactly if no method's name is a descriptor alone, which would leave a part of its line empty. -/
theorem restores_iff_no_bare {t : Table} (reachable : t.Reachable)
    (named : ∀ kind, ∀ e ∈ t.entries kind, Named e)
    (alike : ∀ e ∈ t.entries .method,
      (∀ name ∈ names e, Paired name) ∨ ∀ name ∈ names e, ¬Paired name) :
    (Dialect.threeWay false).Restores t ↔ ∀ e ∈ t.entries .method, ∀ name ∈ names e, ¬Bare name := by
  have lines := lineByLine false
  have stand : ∀ kind e, (kind, e) ∈ t.written → Dialect.Stands (render kind e) :=
    fun kind e mem => stands (named kind e (Table.mem_written.mp mem).2)
  constructor
  · intro restores e mem name hn bare
    have ok := lines.isOk_of_restores stand restores (Table.mem_written.mpr ⟨by decide, mem⟩)
    have empty : (pieces .method e).any (·.isEmpty) = true :=
      (any_isEmpty_pieces (named _ e mem)).mpr ⟨rfl, name, hn, bare⟩
    rw [read_render (named _ e mem), if_pos empty] at ok
    cases ok
  · intro proper
    apply lines.restores reachable.sound fun e => .threeWay e.obf e.intermediateOrDeobf e.deobf
    · intro kind e written
      obtain ⟨storable, mem⟩ := Table.mem_written.mp written
      have method : kind.hasDescriptor = true → kind = .method := by
        have base := (Kind.mem_storable_iff kind).mp storable
        simp [Kind.hasDescriptor, base]
      refine ⟨stand kind e written, read_render_of_alike (named kind e mem) ?_ ?_⟩
      · intro has
        exact alike e (method has ▸ mem)
      · intro has
        exact proper e (method has ▸ mem)
    · intro kind e mem
      exact reachable.sound.conform_entries mem

/-- Methods with and without descriptors, whose names have spaces and parentheses elsewhere too. -/
def pairedTable : Table :=
  let classes := ((Table.empty true).addThreeWay .class_ "a (I)V".toList " b".toList "p.(C".toList false).1
  let named := (classes.addThreeWay .method "x y".toList "(f) g".toList "m )".toList false).1
  (named.addThreeWay .method "a.b  (I)V".toList "f_1 (I)V".toList "m n (J)V".toList false).1

theorem reachable_pairedTable : pairedTable.Reachable :=
  .addThreeWay _ _ _ _ _ (.addThreeWay _ _ _ _ _ (.addThreeWay _ _ _ _ _ (.empty true)))

theorem restores_pairedTable :
    pairedTable.Reachable ∧ (∀ kind, ∀ e ∈ pairedTable.entries kind, Named e) ∧
    (∀ e ∈ pairedTable.entries .method,
      (∀ name ∈ names e, Paired name) ∨ ∀ name ∈ names e, ¬Paired name) ∧
    (Dialect.threeWay false).Restores pairedTable := by
  have named : ∀ kind, ∀ e ∈ pairedTable.entries kind, Named e := by
    intro kind
    cases kind <;> decide +kernel
  have alike : ∀ e ∈ pairedTable.entries .method,
      (∀ name ∈ names e, Paired name) ∨ ∀ name ∈ names e, ¬Paired name := by
    decide +kernel
  have restored := (restores_iff_no_bare reachable_pairedTable named alike).mpr (by decide +kernel)
  exact ⟨reachable_pairedTable, named, alike, restored⟩

/-- A method whose names are descriptors alone. -/
def bareTable : Table :=
  ((Table.empty false).addTwoWay .method " (I)V".toList " (J)V".toList false).1

/-- None of its names is split into one that is not empty and a descriptor, and it is not restored. -/
theorem bareTable_not_restored :
    bareTable.Reachable ∧ (∀ kind, ∀ e ∈ bareTable.entries kind, Named e) ∧
    (∀ e ∈ bareTable.entries .method,
      (∀ name ∈ names e, Paired name) ∨ ∀ name ∈ names e, ¬Paired name) ∧
    ¬(Dialect.threeWay false).Restores bareTable := by
  refine ⟨.addTwoWay _ _ _ _ (.empty false), ?_, by decide +kernel, ?_⟩
  · intro kind
    cases kind <;> decide +kernel
  · intro restores
    have read := congrArg Except.isOk (restores (.ofFiles []) false).1
    exact absurd read (by decide +kernel)

end SymbolMap.ThreeWay
