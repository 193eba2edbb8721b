import SymbolMap.Dialect.Outline.Triple
import SymbolMap.Proofs.Text.MemberName
import SymbolMap.Proofs.Text.Words

/-!
Three names that are written on a line and read back.

* `Triple.Readable`: names that may stand on a line of an outline;
* `Triple.Separable`, `Triple.Separable.read_render`: names that a line keeps apart are read back as they were;
* `Triple.separable_of_read`: names that were read can be kept apart;
* `Triple.reads_back_separable`: no others are read back, and what was read is read again from its own line;
* `Triple.mem_render`, `Triple.startsWith_render`: the line has the characters of the names, and starts as the
  obfuscated one;
* `Triple.qualify_localNames`: names are the local ones inside the owner.
-/
namespace SymbolMap.Outline

/-- A name that no line of an outline takes for something else. -/
def Clean (name : Text) : Prop :=
  ∀ c ∈ name, isBlank c = false ∧ c ≠ ':' ∧ c ≠ '#' ∧ c ≠ '!'

instance (name : Text) : Decidable (Clean name) :=
  List.decidableBAll _ name

/-- A line that starts like this is a comment or an import. -/
def Opens (name : Text) : Prop :=
  Text.startsWith name ['/', '/'] = true ∨ Text.startsWith name ['>', '>'] = true

instance (name : Text) : Decidable (Opens name) :=
  inferInstanceAs (Decidable (_ ∨ _))

theorem Clean.not_mem_colon {name : Text} (h : Clean name) : ':' ∉ name :=
  fun hc => (h ':' hc).2.1 rfl

theorem Clean.not_mem_space {name : Text} (h : Clean name) : ' ' ∉ name :=
  fun hc => absurd (h ' ' hc).1 (by decide)

theorem Clean.of_subset {a b : Text} (h : Clean b) (sub : ∀ c ∈ a, c ∈ b) : Clean a :=
  fun c hc => h c (sub c hc)

namespace Triple

/-- Names that may stand on a line of their kind. Between two that differ the intermediate one loses what
it is implied to start with only if it has it. -/
structure Readable (kind : Kind) (n : Triple) : Prop where
  clean : ∀ name ∈ n.toList, Clean name
  closed : ¬Opens n.obf
  named : kind ≠ .package → [] ∉ n.toList
  implied : n.intermediate ≠ n.deobf → Text.startsWith n.intermediate (impliedStart kind) = true

/-- Names that a line of their kind keeps apart: only those of a package may be empty, and an intermediate
one that differs from the deobfuscated one is written with what it is implied to start with. -/
structure Separable (kind : Kind) (n : Triple) : Prop where
  colon : ∀ name ∈ n.toList, ':' ∉ name
  named : kind ≠ .package → [] ∉ n.toList
  implied : n.intermediate ≠ n.deobf → Text.startsWith n.intermediate (impliedStart kind) = true

theorem Readable.separable {kind : Kind} {n : Triple} (h : n.Readable kind) : n.Separable kind :=
  ⟨fun name hn => (h.clean name hn).not_mem_colon, h.named, h.implied⟩

/-! ## Written and read back -/

/-- The names that a line holds. -/
def written (n : Triple) : List Text :=
  if n.intermediate ≠ n.deobf then [n.obf, n.intermediate, n.deobf]
  else if n.obf ≠ n.deobf ∨ n.obf = [] then [n.obf, n.deobf]
  else [n.obf]

theorem render_eq_join (n : Triple) : n.render = Text.join ':' n.written := by
  unfold render written Text.join
  split
  · simp
  · split <;> simp

theorem mem_written {n : Triple} {name : Text} (h : name ∈ n.written) : name ∈ n.toList := by
  unfold written at h
  unfold toList
  split at h
  · exact h
  · split at h <;> simp_all

theorem written_ne_nil (n : Triple) : n.written ≠ [] := by
  unfold written
  split
  · simp
  · split <;> simp

/-- Names are read back from their line as they were. -/
theorem Separable.read_render {kind : Kind} {n : Triple} (h : n.Separable kind) :
    read kind n.render = .ok n := by
  have parts : n.render.splitOn ':' = n.written := by
    rw [render_eq_join]
    exact List.splitOn_intercalate ':' (fun name hn => h.colon name (mem_written hn)) n.written_ne_nil
  have notEmpty : ¬(kind ≠ .package ∧ n.written.any (·.isEmpty) = true) := by
    rintro ⟨member, empty⟩
    obtain ⟨name, hn, none⟩ := List.any_eq_true.mp empty
    rw [List.isEmpty_iff] at none
    exact h.named member (none ▸ mem_written hn)
  have implied := h.implied
  unfold read
  rw [parts, if_neg notEmpty]
  obtain ⟨obf, intermediate, deobf⟩ := n
  unfold written
  by_cases middle : intermediate = deobf
  · subst middle
    by_cases same : obf = intermediate
    · subst same
      by_cases none : obf = []
      · simp [none]
      · simp [none]
    · simp [same]
  · have start := implied middle
    simp [middle, withImplied, start]

/-! ## What was read -/

theorem startsWith_withImplied (kind : Kind) (intermediate : Text) :
    Text.startsWith (withImplied kind intermediate) (impliedStart kind) = true := by
  unfold withImplied
  split
  · next has => exact has
  · exact Text.startsWith_append (impliedStart kind) intermediate

theorem mem_withImplied {kind : Kind} {intermediate : Text} {c : Char}
    (h : c ∈ withImplied kind intermediate) : c ∈ impliedStart kind ∨ c ∈ intermediate := by
  unfold withImplied at h
  split at h
  · exact .inr h
  · exact List.mem_append.mp h

theorem eq_nil_of_withImplied {kind : Kind} {intermediate : Text}
    (h : withImplied kind intermediate = []) : intermediate = [] := by
  unfold withImplied at h
  split at h
  · exact h
  · exact (List.append_eq_nil_iff.mp h).2

theorem not_mem_impliedStart {c : Char} (odd : c = ':' ∨ c = '\n') (kind : Kind) :
    c ∉ impliedStart kind := by
  rcases odd with rfl | rfl
  · cases kind <;> decide
  · cases kind <;> decide

/-- The names are the parts of the text, and the last one ends where the text does. An intermediate one of
its own starts as it is implied to. -/
theorem of_read {kind : Kind} {text : Text} {n : Triple} (h : read kind text = .ok n) :
    (kind ≠ .package → [] ∉ text.splitOn ':') ∧
      (∀ name ∈ n.toList, ∃ part ∈ text.splitOn ':', name = part ∨ name = withImplied kind part) ∧
      (n.intermediate ≠ n.deobf → Text.startsWith n.intermediate (impliedStart kind) = true) ∧
      ∃ before, text.splitOn ':' = before ++ [n.deobf] := by
  unfold read at h
  dsimp only at h
  split at h
  · cases h
  · next filled =>
    refine ⟨fun member none => filled ⟨member, by simpa using none⟩, ?_⟩
    split at h
    · next name is =>
      cases h
      rw [is]
      exact ⟨by simp [toList], fun differ => absurd rfl differ, [], rfl⟩
    · next obf deobf is =>
      cases h
      rw [is]
      exact ⟨by simp [toList], fun differ => absurd rfl differ, [obf], rfl⟩
    · next obf intermediate deobf is =>
      cases h
      rw [is]
      exact ⟨by simp [toList], fun _ => startsWith_withImplied kind intermediate, [obf, intermediate], rfl⟩
    · cases h

/-- Neither a separator nor the end of a line gets into the names, if it is in none of the parts. -/
theorem not_mem_of_read {kind : Kind} {text : Text} {n : Triple} (h : read kind text = .ok n) {c : Char}
    (odd : c = ':' ∨ c = '\n') (outside : ∀ part ∈ text.splitOn ':', c ∉ part) :
    ∀ name ∈ n.toList, c ∉ name := by
  obtain ⟨_, made, _⟩ := of_read h
  intro name hn mem
  obtain ⟨part, hp, is⟩ := made name hn
  rcases is with rfl | rfl
  · exact outside name hp mem
  · rcases mem_withImplied mem with start | inside
    · exact not_mem_impliedStart odd kind start
    · exact outside part hp inside

/-- Names that were read from a line can be kept apart on one. -/
theorem separable_of_read {kind : Kind} {text : Text} {n : Triple} (h : read kind text = .ok n) :
    n.Separable kind := by
  obtain ⟨filled, made, implied, _⟩ := of_read h
  have colon : ∀ part ∈ text.splitOn ':', ':' ∉ part :=
    fun part hp inside => (Text.of_mem_splitOn hp ':' inside).2 rfl
  refine ⟨not_mem_of_read h (.inl rfl) colon, ?_, implied⟩
  intro member none
  obtain ⟨part, hp, is⟩ := made [] none
  have absent : part = [] := is.elim Eq.symm fun implied => eq_nil_of_withImplied implied.symm
  exact filled member (absent ▸ hp)

/-- Names are read back from their line exactly if it keeps them apart, as it does with all names that were
read from any line. -/
theorem reads_back_separable (kind : Kind) :
    (∀ n : Triple, read kind n.render = .ok n ↔ n.Separable kind) ∧
      ∀ (text : Text) (n : Triple), read kind text = .ok n → read kind n.render = .ok n := by
  constructor
  · intro n
    exact ⟨separable_of_read, Separable.read_render⟩
  · intro text n h
    exact (separable_of_read h).read_render

/-- The implied start makes the second name equal to the third, so that the line loses a part, and the
default package keeps its empty name. -/
theorem reads_back_separable_shortened :
    read .method "a:m:func_m".toList = .ok ⟨"a".toList, "func_m".toList, "func_m".toList⟩ ∧
      read .method "a:func_m".toList = .ok ⟨"a".toList, "func_m".toList, "func_m".toList⟩ ∧
      read .package "::net".toList = .ok ⟨[], [], "net".toList⟩ := by
  have long : read .method "a:m:func_m".toList = .ok ⟨"a".toList, "func_m".toList, "func_m".toList⟩ :=
    rfl
  have apart : Separable .package ⟨[], [], "net".toList⟩ := ⟨by decide, nofun, by decide⟩
  exact ⟨long, (reads_back_separable .method).2 _ _ long, ((reads_back_separable .package).1 _).mpr apart⟩

/-! ## What a line starts with -/

/-- A line holds the obfuscated name, and nothing or a colon after it. -/
theorem render_eq_append (n : Triple) :
    n.render = n.obf ∨ ∃ rest, n.render = n.obf ++ ':' :: rest := by
  unfold render
  split
  · exact .inr ⟨n.intermediate ++ ':' :: n.deobf, by simp⟩
  · split
    · exact .inr ⟨n.deobf, rfl⟩
    · exact .inl rfl

theorem startsWith_render {start : Text} (h : ':' ∉ start) (n : Triple) :
    Text.startsWith n.render start = Text.startsWith n.obf start := by
  rcases n.render_eq_append with is | ⟨rest, is⟩
  · rw [is]
  · rw [is, Text.startsWith_append_cons h]

theorem mem_render {n : Triple} {c : Char} (h : c ∈ n.render) :
    c = ':' ∨ ∃ name ∈ n.toList, c ∈ name := by
  rw [render_eq_join] at h
  refine (Text.mem_join h).imp_right fun ⟨name, hn, inside⟩ => ?_
  exact ⟨name, mem_written hn, inside⟩

theorem render_ne_nil (n : Triple) : n.render ≠ [] := by
  unfold render
  split
  · simp
  · split
    · simp
    · next same => exact fun none => same (.inr none)

theorem Readable.plain {kind : Kind} {n : Triple} (h : n.Readable kind) :
    ∀ c ∈ n.render, isBlank c = false ∧ c ≠ '#' ∧ c ≠ '!' := by
  intro c hc
  rcases mem_render hc with rfl | ⟨name, hn, hc⟩
  · decide
  · obtain ⟨blank, _, comment, access⟩ := h.clean name hn c hc
    exact ⟨blank, comment, access⟩

/-! ## Owners -/

/-- The names before the last dot. -/
def owner (n : Triple) : Triple where
  obf := (MemberName.splitOwner n.obf).1.getD []
  intermediate := (MemberName.splitOwner n.intermediate).1.getD []
  deobf := (MemberName.splitOwner n.deobf).1.getD []

/-- The names after the last dot. -/
def localNames (n : Triple) : Triple where
  obf := (MemberName.splitOwner n.obf).2
  intermediate := (MemberName.splitOwner n.intermediate).2
  deobf := (MemberName.splitOwner n.deobf).2

theorem split_eq {n : Triple} (h : [] ∉ n.localNames.toList) :
    n.split = some (n.owner, n.localNames) := by
  have named : ¬(n.localNames.obf = [] ∨ n.localNames.intermediate = [] ∨
      n.localNames.deobf = []) := by
    rintro (none | none | none)
    · exact h (by simp [toList, none])
    · exact h (by simp [toList, none])
    · exact h (by simp [toList, none])
  exact if_neg named

/-- Names are the local ones inside the owner. -/
theorem qualify_localNames {n : Triple} (clean : ∀ name ∈ n.toList, Clean name)
    (start : ∀ name ∈ n.toList, name.head? ≠ some '.') : n.owner.qualify n.localNames = n := by
  have whole : ∀ name ∈ n.toList, MemberName.qualify
      ((MemberName.splitOwner name).1.getD []) (MemberName.splitOwner name).2 = name :=
    fun name hn => MemberName.qualify_splitOwner (clean name hn).not_mem_space (start name hn)
  simp only [toList, List.forall_mem_cons] at whole
  obtain ⟨obf, intermediate, deobf, _⟩ := whole
  unfold qualify owner localNames
  dsimp only
  rw [obf, intermediate, deobf]

end Triple
end SymbolMap.Outline
