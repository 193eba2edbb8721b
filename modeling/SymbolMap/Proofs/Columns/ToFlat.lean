import SymbolMap.Proofs.Columns.RoundTrip
import SymbolMap.Proofs.Flat

/-!
Tables that were loaded from columns, written in the flat dialect.

* `Worded.isWord_names`: the names are made of words, with spaces between them;
* `Worded.writable`: a flat line can hold them, if the obfuscated one has no equals sign;
* `restores_flat_iff`: that is all that it takes for the table to be restored;
* `flat_restores_of_load_columns`: so a text without equals signs loses nothing.
-/
namespace SymbolMap.Columns

open MemberName (dotted)
open Text (IsWord)

variable {kind : Kind} {e : Entry}

/-! ## Names on flat lines -/

theorem mem_nameOf {words : List Text} {c : Char} (h : c ∈ nameOf words) :
    c = ' ' ∨ c = '.' ∨ ∃ w ∈ words, c ∈ w := by
  cases words with
  | nil => exact absurd h List.not_mem_nil
  | cons first words =>
    rcases Text.mem_join h with space | ⟨piece, hp, inside⟩
    · exact .inl space
    · rcases List.mem_cons.mp hp with rfl | later
      · obtain ⟨x, hx, rfl⟩ := List.mem_map.mp inside
        by_cases slash : x = '/'
        · simp [slash]
        · exact .inr (.inr ⟨first, List.mem_cons_self, by simpa [slash] using hx⟩)
      · exact .inr (.inr ⟨piece, List.mem_cons_of_mem _ later, inside⟩)

theorem isWord_dotted {word : Text} (h : IsWord word) : IsWord (dotted word) :=
  isWord_replaceChar (by decide) h

/-- A name is made of words too, of which the first has its slashes turned into dots. -/
theorem exists_nameOf_eq_join {words : List Text} (some : words ≠ []) (h : ∀ w ∈ words, IsWord w) :
    ∃ words', words' ≠ [] ∧ (∀ w ∈ words', IsWord w) ∧ nameOf words = Text.join ' ' words' := by
  cases words with
  | nil => exact absurd rfl some
  | cons first words =>
    obtain ⟨word, others⟩ := List.forall_mem_cons.mp h
    exact ⟨dotted first :: words, List.cons_ne_nil _ _,
      List.forall_mem_cons.mpr ⟨isWord_dotted word, others⟩, rfl⟩

/-- A name that neither is empty nor has white space at its ends or a line feed in it. -/
structure Solid (name : Text) : Prop where
  filled : name ≠ []
  tight : Text.Tight name
  whole : '\n' ∉ name

theorem solid_nameOf {words : List Text} (some : words ≠ []) (h : ∀ w ∈ words, IsWord w) :
    Solid (nameOf words) := by
  obtain ⟨words', some', isWord, is⟩ := exists_nameOf_eq_join some h
  obtain ⟨filled, tight⟩ := Text.tight_join some' isWord
  rw [is]
  refine ⟨filled, tight, fun mem => ?_⟩
  have space := Text.eq_space_of_mem_join isWord mem (by decide)
  exact absurd space (by decide)

namespace Worded

variable (h : Worded kind e)
include h

theorem solid : Solid e.obf ∧ Solid e.deobf := by
  obtain ⟨a, b, same, wide, isWord, obf, deobf⟩ := h
  obtain ⟨isA, isB⟩ := List.forall_mem_append.mp isWord
  rw [obf, deobf]
  exact ⟨solid_nameOf (ne_nil_of_widths wide) isA,
    solid_nameOf (ne_nil_of_widths (same ▸ wide)) isB⟩

/-- The first equals sign of a flat line must be the one that was written between the names. -/
theorem writable (noEquals : '=' ∉ e.obf) : Flat.Writable e.obf e.deobf where
  filled := ⟨h.solid.1.filled, h.solid.2.filled⟩
  first := noEquals
  last := h.solid.2.tight.2
  whole := ⟨h.solid.1.whole, h.solid.2.whole⟩

end Worded

/-! ## Tables that were loaded -/

section
variable {side : Option Text} {disk : Disk} {text : Text} {overwrite : Bool}
  (loaded : ((Dialect.columns { side }).load disk text (.empty false) overwrite).result = .ok ())
include loaded

theorem threeWay_of_load :
    ((Dialect.columns { side }).load disk text (.empty false) overwrite).table.threeWay = false :=
  (lineByLine { side }).threeWay_of_load loaded

/-- A flat line ends the first name at its first equals sign, whatever the name was. -/
theorem restores_flat_iff :
    Dialect.flat.Restores
        ((Dialect.columns { side }).load disk text (.empty false) overwrite).table ↔
      ∀ kind, ∀ e ∈ ((Dialect.columns { side }).load disk text (.empty false) overwrite).table.entries
        kind, '=' ∉ e.obf := by
  have lines := lineByLine { side }
  have twoWay := threeWay_of_load loaded
  have sound := lines.sound_of_load (Table.sound_of_empty false) loaded
  constructor
  · intro restores kind e mem
    obtain ⟨again, same⟩ := restores disk overwrite
    rw [twoWay] at again same
    rw [← same] at mem
    obtain ⟨line, _, _, whole, said, _, rfl⟩ := Flat.lineByLine.exists_line again mem
    obtain ⟨head, split⟩ := Flat.of_read said
    exact (Flat.of_splitLine whole split).2.2.first
  · intro noEquals
    apply Flat.lineByLine.restores sound fun e => .twoWay e.obf e.deobf
    · intro kind e written
      have mem := (Table.mem_written.mp written).2
      obtain ⟨line, kind', e', _, said, same, rfl⟩ := lines.exists_line loaded mem
      have worded := (of_read rfl said).congr same
      apply (Flat.head_name kind).readsAs
      exact worded.writable (noEquals kind (e'.conform false) mem)
    · intro kind e mem
      have form := sound.conform_entries mem
      rw [twoWay] at form ⊢
      exact form

end

/-- A text without equals signs gives no name with one. -/
theorem not_mem_of_read {side : Option Text} {line : Text} {kind : Kind} {e : Entry}
    (noEquals : '=' ∉ line) (h : read { side } line = .ok (.entry kind e)) : '=' ∉ e.obf := by
  obtain ⟨a, b, _, _, inside, obf, _⟩ := exists_words_of_read rfl h
  rw [obf]
  intro mem
  rcases mem_nameOf mem with space | dot | ⟨word, hw, own⟩
  · exact absurd space (by decide)
  · exact absurd dot (by decide)
  · have mem := (List.mem_filter.mp (inside word (List.mem_append_left b hw))).1
    exact noEquals (Text.of_mem_splitOnP mem _ own).1

/-- Converting from the columnar to the flat dialect loses nothing: whatever text without equals signs a table
was loaded from, what is written flat for it gives the same entries again, in the same order. -/
theorem flat_restores_of_load_columns {side : Option Text} (disk : Disk) (text : Text) (overwrite : Bool)
    (noEquals : '=' ∉ text)
    (loaded : ((Dialect.columns { side }).load disk text (.empty false) overwrite).result = .ok ()) :
    ((Dialect.columns { side }).load disk text (.empty false) overwrite).table.threeWay = false ∧
      Dialect.flat.Restores
        ((Dialect.columns { side }).load disk text (.empty false) overwrite).table := by
  refine ⟨threeWay_of_load loaded, (restores_flat_iff loaded).mpr ?_⟩
  intro kind e mem
  obtain ⟨line, inside, _, e', said, _, rfl⟩ := (lineByLine { side }).exists_mem_lines loaded mem
  apply not_mem_of_read _ said
  exact fun mem => noEquals (Text.mem_of_mem_lines inside mem)

/-- Words that start like comments, sides and kinds, with colons in them, and methods of all shapes. -/
def colonsText : Text :=
  ["PK: . net/x:y #S", "CL: #CL: a//b#", "FD: //a/b :c: #", "MD: :/a b:/c d/e (f #g",
    "MD: a/b c (La:b;)V net/C d (I)La/b;", "MD: a/b (I)V c/d (J)V", "CS: a/<init> b/<init>"].flatMap
    fun line => line.toList ++ ['\n']

def colonsLoad : Load Unit := (Dialect.columns {}).load (.ofFiles []) colonsText (.empty false) false

theorem flat_restores_colons :
    '=' ∉ colonsText ∧ colonsLoad.result = .ok () ∧ colonsLoad.table.size = 7 ∧
      Dialect.flat.Restores colonsLoad.table := by
  have noEquals : '=' ∉ colonsText := by decide +kernel
  have checked : colonsLoad.result.isOk = true ∧ colonsLoad.table.size = 7 := by decide +kernel
  have loaded : colonsLoad.result = .ok () := eq_ok_of_isOk checked.1
  have restored := flat_restores_of_load_columns (.ofFiles []) colonsText false noEquals loaded
  exact ⟨noEquals, loaded, checked.2, restored.2⟩

end SymbolMap.Columns
