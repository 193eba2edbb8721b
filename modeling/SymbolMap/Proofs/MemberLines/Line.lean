import SymbolMap.Proofs.Kind
import SymbolMap.Proofs.MemberLines.Placeholder
import SymbolMap.Proofs.Reads

/-!
The lines of classes and members, written and read back.

* `Declares`: lines that are made of words and declare something in the class above them;
* `Declares.readLines`: such lines are read to their end;
* `declared_mapped`, `declared_unmapped`: the line of a class;
* `memberName_local`, `memberName_slashed`: how a member goes by its new name.
-/
namespace SymbolMap.MemberLines

open MemberName (dotted slashed)
open Text (IsWord)

/-- A line made of words that declares something, behind tabs. What it declares hangs on its words alone. -/
inductive Declared : Option Owner → Text → Option Owner → List Declaration → Prop
  | line {o o' : Option Owner} {ds : List Declaration} (depth : Nat) (kind : Kind)
      (words : List Text) : (∀ word ∈ words, IsWord word) →
      (∀ line, Text.words line = kind.name.toList :: words → readLine o line = .ok (o', ds)) →
      Declared o (List.replicate depth '\t' ++ Text.join ' ' (kind.name.toList :: words)) o' ds

abbrev Declares := Reads Declared

namespace Declared

variable {o o' : Option Owner} {text : Text} {ds : List Declaration} (h : Declared o text o' ds)
include h

theorem readLine_eq : readLine o text = .ok (o', ds) := by
  cases h with
  | line depth kind words are read =>
    have all : ∀ word ∈ kind.name.toList :: words, IsWord word :=
      List.forall_mem_cons.mpr ⟨kind.isWord_name, are⟩
    refine read _ ?_
    rw [Text.words_append_of_blank, Text.words_join all]
    intro c hc
    rw [List.eq_of_mem_replicate hc]
    decide

theorem whole : '\n' ∉ text ∧ '\r' ∉ text.getLast? := by
  have none : ∀ c, isBlank c = true → c ≠ ' ' → c ≠ '\t' → c ∉ text := by
    intro c blank notSpace notTab mem
    cases h with
    | line depth kind words are read =>
      rcases List.mem_append.mp mem with tab | inside
      · exact notTab (List.eq_of_mem_replicate tab)
      · rcases Text.mem_join inside with space | ⟨word, hw, inside⟩
        · exact notSpace space
        · have isWord : IsWord word := by
            rcases List.mem_cons.mp hw with rfl | other
            · exact kind.isWord_name
            · exact are word other
          rw [isWord.2 c inside] at blank
          cases blank
  refine ⟨none '\n' (by decide) (by decide) (by decide), fun last => ?_⟩
  exact none '\r' (by decide) (by decide) (by decide) (List.mem_of_mem_getLast? last)

theorem isComment_eq_false : Text.isComment text = false := by
  cases h with
  | line depth kind words are read =>
    have tabs : ∀ c ∈ List.replicate depth '\t', isBlank c = true := by
      intro c hc
      rw [List.eq_of_mem_replicate hc]
      decide
    obtain ⟨more, joined⟩ := Text.exists_join_cons ' ' kind.name.toList words
    rw [joined]
    exact kind.isComment_append_name tabs more

end Declared

theorem Declares.readLines {o o' : Option Owner} {lines : List Text} {ds : List Declaration}
    (h : Declares o lines o' ds) {ls : List Line} (texts : ls.map (·.text) = lines)
    (declared : Array Declaration) :
    readLines o declared ls = .ok (declared.toList ++ ds) := by
  induction h generalizing ls declared with
  | nil o =>
    have none : ls = [] := List.map_eq_nil_iff.mp texts
    rw [none, MemberLines.readLines, List.append_nil]
  | cons first _ ih =>
    cases ls with
    | nil => cases texts
    | cons line ls =>
      obtain ⟨is, rest⟩ := List.cons.inj texts
      rw [← is] at first
      rw [MemberLines.readLines, first.readLine_eq]
      dsimp only
      rw [ih rest, Array.toList_appendList, List.append_assoc]

/-! ## Names on lines -/

/-- A name that stands on a line with slashes for its dots, and is read back. -/
structure Plain (name : Text) : Prop where
  word : IsWord name
  noSlash : '/' ∉ name

instance (name : Text) : Decidable (Plain name) :=
  decidable_of_iff (IsWord name ∧ '/' ∉ name) ⟨fun h => ⟨h.1, h.2⟩, fun h => ⟨h.word, h.noSlash⟩⟩

/-- A name without an owner. -/
structure Local (name : Text) : Prop extends Plain name where
  noDot : '.' ∉ name

instance (name : Text) : Decidable (Local name) :=
  decidable_of_iff (Plain name ∧ '.' ∉ name) ⟨fun h => ⟨h.1, h.2⟩, fun h => ⟨h.toPlain, h.noDot⟩⟩

theorem isWord_placeholder : IsWord placeholder := by decide

theorem Plain.isWord_slashed {name : Text} (h : Plain name) : IsWord (slashed name) := by
  refine ⟨fun none => h.word.1 (List.map_eq_nil_iff.mp none), fun c hc => ?_⟩
  rcases MemberName.mem_slashed hc with rfl | own
  · decide
  · exact h.word.2 c own

theorem Plain.isWord_className {name : Text} (h : Plain name) : IsWord (className name) := by
  unfold className
  split
  · exact h.isWord_slashed
  · refine ⟨fun none => h.word.1 (List.append_eq_nil_iff.mp none).2, fun c hc => ?_⟩
    rcases List.mem_append.mp hc with put | own
    · exact isWord_placeholder.2 c put
    · exact h.word.2 c own

/-- A name inside of an owner is as plain as both are. -/
theorem Plain.member {owner name : Text} (ho : Plain owner) (hn : Plain name) :
    Plain (owner ++ '.' :: name) := by
  refine ⟨⟨by simp, fun c hc => ?_⟩, fun slash => ?_⟩
  · rcases List.mem_append.mp hc with first | rest
    · exact ho.word.2 c first
    · rcases List.mem_cons.mp rest with rfl | last
      · decide
      · exact hn.word.2 c last
  · rcases List.mem_append.mp slash with first | rest
    · exact ho.noSlash first
    · exact hn.noSlash ((List.mem_cons.mp rest).resolve_left (by decide))

theorem Plain.not_mem_space {name : Text} (h : Plain name) : ' ' ∉ name :=
  fun mem => absurd (h.word.2 ' ' mem) (by decide)

theorem Local.no_separator {name : Text} (h : Local name) :
    ∀ c ∈ name, MemberName.isSeparator c = false := by
  intro c hc
  refine MemberName.isSeparator_eq_false_iff.mpr ⟨fun dot => h.noDot (dot ▸ hc), ?_⟩
  rintro rfl
  exact h.not_mem_space hc

theorem memberName_local {name : Text} (h : Local name) (owner : Text) :
    memberName owner name = owner ++ '.' :: name := by
  unfold memberName
  simp [h.noDot, h.noSlash]

/-- A name with a dot in it is written with a slash, and so is not taken for a local one. -/
theorem memberName_slashed {name : Text} (dot : '.' ∈ name) (noSlash : '/' ∉ name) (owner : Text) :
    memberName owner (slashed name) = name := by
  have slash := MemberName.slash_mem_slashed dot
  unfold memberName
  rw [if_pos (by simp [slash])]
  exact MemberName.dotted_slashed noSlash

theorem join_two (a b : Text) : Text.join ' ' [a, b] = a ++ ' ' :: b := by
  simp [Text.join]

theorem join_three (a b c : Text) : Text.join ' ' [a, b, c] = a ++ ' ' :: b ++ ' ' :: c := by
  simp [Text.join]

theorem join_four (a b c d : Text) :
    Text.join ' ' [a, b, c, d] = a ++ ' ' :: b ++ ' ' :: c ++ ' ' :: d := by
  simp [Text.join]

/-! ## Classes -/

theorem readLine_class {o : Option Owner} {line : Text} {words : List Text} {o' : Owner}
    {ds : List Declaration} (is : Text.words line = Kind.class_.name.toList :: words)
    (read : readClass words = .ok (o', ds)) : readLine o line = .ok (some o', ds) := by
  unfold readLine
  rw [is]
  dsimp only
  rw [Kind.readWord_name]
  change (do return (← readClass words).map some id) = _
  rw [read]
  rfl

theorem declared_mapped {obf deobf : Text} (ho : Plain obf) (hd : Plain deobf)
    (other : Text.startsWith obf "none.".toList = false) (o : Option Owner) :
    Declared o ("CLASS ".toList ++ className obf ++ ' ' :: slashed deobf) (some ⟨obf, deobf⟩)
      [.names .class_ obf deobf] := by
  have read : readClass [className obf, slashed deobf] =
      .ok (⟨obf, deobf⟩, [.names .class_ obf deobf]) := by
    unfold readClass
    dsimp only
    rw [stripPlaceholder_className ho.noSlash other, MemberName.dotted_slashed hd.noSlash]
  have line := Declared.line (o := o) 0 .class_ [className obf, slashed deobf]
    (by simp [ho.isWord_className, hd.isWord_slashed]) fun line is => readLine_class is read
  rw [join_three] at line
  exact line

theorem declared_unmapped {obf : Text} (ho : Plain obf)
    (other : Text.startsWith obf "none.".toList = false) (o : Option Owner) :
    Declared o ("CLASS ".toList ++ className obf) (some ⟨obf, obf⟩) [] := by
  have read : readClass [className obf] = .ok (⟨obf, obf⟩, []) := by
    unfold readClass
    dsimp only
    rw [stripPlaceholder_className ho.noSlash other]
  have line := Declared.line (o := o) 0 .class_ [className obf]
    (by simp [ho.isWord_className]) fun line is => readLine_class is read
  rw [join_two] at line
  exact line

end SymbolMap.MemberLines
