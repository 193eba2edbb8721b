import SymbolMap.Proofs.Dialect.Lines
import SymbolMap.Proofs.Outcome
import SymbolMap.Proofs.Text.MemberName

/-!
The columnar dialect, whose lines are read back from what is written.

* `readNames_eq_some_iff`: the words of a line are two names of equally many words;
* `renderMethod_join`: only the first word of a method's name is written with slashes;
* `exists_words_renderName`: a name that was read is written as words that are read as it;
* `restores_of_load_columns`: what is written for a table that was loaded gives the same entries again.
-/
namespace SymbolMap.Columns

open MemberName (dotted slashed splitDescriptor)
open Text (IsWord)

/-- How many words a name of a kind can have. -/
def widths (kind : Kind) : List Nat :=
  if kind.hasDescriptor then [1, 2, 3] else [1]

theorem widths_congr {kind kind' : Kind} (same : kind.base = kind'.base) :
    widths kind = widths kind' := by
  unfold widths Kind.hasDescriptor
  rw [same]

theorem ne_nil_of_widths {kind : Kind} {words : List Text} (wide : words.length ∈ widths kind) :
    words ≠ [] := by
  rintro rfl
  cases kind <;> exact absurd wide (by decide)

/-- The name that words stand for. Only the first of them has dots for its slashes. -/
def nameOf : List Text → Text
  | [] => []
  | first :: words => Text.join ' ' (dotted first :: words)

/-! ## The words of names -/

/-- Whichever words of a method's name are given, it is they with the first one dotted. -/
theorem methodName_eq_nameOf (name : Text) (className descriptor : Option Text) :
    methodName false className name descriptor =
      nameOf (className.toList ++ name :: descriptor.toList) := by
  cases className <;> cases descriptor <;>
    simp [methodName, nameOf, MemberName.withDescriptor, Text.join, dotted]

/-- The parenthesis that tells a descriptor from a name does not matter to what four words stand for. -/
theorem readMethod_eq_some_iff {words : List Text} {obf deobf : Text} :
    readMethod false words = some (obf, deobf) ↔ ∃ a b, words = a ++ b ∧ a.length = b.length ∧
      a.length ∈ [1, 2, 3] ∧ obf = nameOf a ∧ deobf = nameOf b := by
  constructor
  · intro h
    unfold readMethod at h
    simp only [methodName_eq_nameOf] at h
    split at h
    · next w w' =>
      cases h
      exact ⟨[w], [w'], rfl, rfl, by simp, rfl, rfl⟩
    · next w x w' x' =>
      refine ⟨[w, x], [w', x'], rfl, rfl, by simp, ?_⟩
      split at h <;> cases h <;> exact ⟨rfl, rfl⟩
    · next w x y w' x' y' =>
      cases h
      exact ⟨[w, x, y], [w', x', y'], rfl, rfl, by simp, rfl, rfl⟩
    · cases h
  · rintro ⟨a, b, rfl, same, wide, rfl, rfl⟩
    match a, b, same, wide with
    | [w], [w'], _, _ => simp [readMethod, methodName_eq_nameOf]
    | [w, x], [w', x'], _, _ => simp [readMethod, methodName_eq_nameOf]
    | [w, x, y], [w', x', y'], _, _ => simp [readMethod, methodName_eq_nameOf]

theorem readNames_eq_some_iff {kind : Kind} {words : List Text} {obf deobf : Text} :
    readNames false kind words = some (obf, deobf) ↔ ∃ a b, words = a ++ b ∧ a.length = b.length ∧
      a.length ∈ widths kind ∧ obf = nameOf a ∧ deobf = nameOf b := by
  unfold readNames widths
  split
  · exact readMethod_eq_some_iff
  · constructor
    · intro h
      split at h
      · next w w' =>
        cases h
        exact ⟨[w], [w'], rfl, rfl, by simp, by simp [nameOf, Text.join], by simp [nameOf, Text.join]⟩
      · cases h
    · rintro ⟨a, b, rfl, same, wide, rfl, rfl⟩
      obtain ⟨w, rfl⟩ := List.length_eq_one_iff.mp (List.mem_singleton.mp wide)
      obtain ⟨w', rfl⟩ := List.length_eq_one_iff.mp same.symm
      simp [nameOf, Text.join]

theorem renderMethod_append {word : Text} (noSpace : ' ' ∉ word) (more : Text) :
    renderMethod (word ++ ' ' :: more) = slashed word ++ ' ' :: more := by
  have start := Text.cut_append_cons noSpace more
  unfold renderMethod
  rcases MemberName.splitDescriptor_cases (word ++ ' ' :: more) with
    ⟨before, last, is, _, split⟩ | ⟨_, split⟩
  · rw [split]
    rw [is] at start
    dsimp only
    -- The descriptor is all that follows the first space, or it stands after a later one.
    cases found : Text.cut ' ' before with
    | none =>
      rw [Text.cut_append_cons (Text.not_mem_of_cut found)] at start
      cases start
      rfl
    | some pair =>
      obtain ⟨rfl, first⟩ := Text.eq_of_cut found
      rw [List.append_assoc, List.cons_append, Text.cut_append_cons first] at start
      cases start
      simp [MemberName.withDescriptor]
  · rw [split]
    dsimp only
    rw [start]
    rfl

theorem renderMethod_of_no_space {word : Text} (noSpace : ' ' ∉ word) :
    renderMethod word = slashed word := by
  unfold renderMethod
  rw [MemberName.splitDescriptor_of_no_space noSpace]
  dsimp only
  rw [Text.cut_of_not_mem noSpace]
  rfl

/-- Only the first word of a method's name is written with slashes. -/
theorem renderMethod_join {word : Text} (noSpace : ' ' ∉ word) (words : List Text) :
    renderMethod (Text.join ' ' (word :: words)) = Text.join ' ' (slashed word :: words) := by
  cases words with
  | nil => simpa [Text.join] using renderMethod_of_no_space noSpace
  | cons second words =>
    rw [Text.join_cons_cons, Text.join_cons_cons, renderMethod_append noSpace]

theorem isWord_replaceChar {old new : Char} (notBlank : isBlank new = false) {word : Text}
    (h : IsWord word) : IsWord (Text.replaceChar old new word) := by
  constructor
  · simpa [Text.replaceChar] using h.1
  · intro c hc
    obtain ⟨x, hx, rfl⟩ := List.mem_map.mp hc
    split
    · exact notBlank
    · exact h.2 x hx

theorem space_not_mem {word : Text} (h : IsWord word) : ' ' ∉ word :=
  fun mem => absurd (h.2 ' ' mem) (by decide)

theorem slash_not_mem_dotted (word : Text) : '/' ∉ dotted word := by
  intro mem
  obtain ⟨c, _, is⟩ := List.mem_map.mp mem
  split at is
  · cases is
  · next other => exact other is

/-- A name that was read is written as words that are read as it. -/
theorem exists_words_renderName {kind : Kind} {words : List Text} (isWord : ∀ w ∈ words, IsWord w)
    (wide : words.length ∈ widths kind) :
    ∃ written, renderName kind (nameOf words) = Text.join ' ' written ∧ nameOf written = nameOf words ∧
      written.length = words.length ∧ ∀ w ∈ written, IsWord w := by
  obtain ⟨first, words, rfl⟩ := List.exists_cons_of_ne_nil (ne_nil_of_widths wide)
  obtain ⟨word, others⟩ := List.forall_mem_cons.mp isWord
  -- There are no slashes in the first word of a name, so dots can be written as slashes.
  have noSlash := slash_not_mem_dotted first
  have isDotted : IsWord (dotted first) := isWord_replaceChar (by decide) word
  have turned : IsWord (slashed (dotted first)) := isWord_replaceChar (by decide) isDotted
  have same : nameOf (slashed (dotted first) :: words) = nameOf (first :: words) := by
    rw [nameOf, MemberName.dotted_slashed noSlash, nameOf]
  have single : kind.hasDescriptor = false → words = [] := by
    intro none
    simpa [widths, none] using wide
  cases kind with
  | method | constructor =>
    refine ⟨slashed (dotted first) :: words, ?_, same, rfl, List.forall_mem_cons.mpr ⟨turned, others⟩⟩
    exact renderMethod_join (space_not_mem isDotted) words
  | class_ | field =>
    obtain rfl := single rfl
    refine ⟨[slashed (dotted first)], ?_, same, rfl, List.forall_mem_singleton.mpr turned⟩
    simp [nameOf, renderName, Text.join]
  | package =>
    obtain rfl := single rfl
    by_cases default : Text.byteSize (dotted first) = 1
    · refine ⟨[dotted first], ?_, ?_, rfl, List.forall_mem_singleton.mpr isDotted⟩
      · simp [nameOf, renderName, Text.join, default]
      · rw [nameOf, MemberName.dotted_of_not_mem noSlash, nameOf]
    · refine ⟨[slashed (dotted first)], ?_, same, rfl, List.forall_mem_singleton.mpr turned⟩
      simp [nameOf, renderName, Text.join, default]

/-! ## Lines -/

/-- The names are those of words, as many for the one as for the other. -/
def Worded (kind : Kind) (e : Entry) : Prop :=
  ∃ a b, a.length = b.length ∧ a.length ∈ widths kind ∧ (∀ w ∈ a ++ b, IsWord w) ∧
    e.obf = nameOf a ∧ e.deobf = nameOf b

theorem Worded.congr {kind kind' : Kind} {e : Entry} (h : Worded kind' e)
    (same : kind'.base = kind.base) : Worded kind e := by
  unfold Worded at h ⊢
  rwa [widths_congr same] at h

/-- The last word of the deobfuscated name does not look like a side. -/
def Unmarked (e : Entry) : Prop :=
  ∀ last ∈ (e.deobf.splitOn ' ').getLast?, last.head? ≠ some '#'

instance (e : Entry) : Decidable (Unmarked e) :=
  inferInstanceAs (Decidable (∀ last ∈ (e.deobf.splitOn ' ').getLast?, last.head? ≠ some '#'))

/-- The words that a line ends in after the names. -/
def marks (o : Options) : List Text :=
  match o.side with
  | some side => ['#' :: side]
  | none => []

theorem mem_of_mem_splitSide {words : List Text} {word : Text} (h : word ∈ (splitSide words).1) :
    word ∈ words := by
  unfold splitSide at h
  split at h
  · exact List.dropLast_subset _ h
  · exact h

/-- The names that a line gives are made of its words. -/
theorem exists_words_of_read {o : Options} (keeps : o.strip = false) {line : Text} {kind : Kind}
    {e : Entry} (h : read o line = .ok (.entry kind e)) :
    ∃ a b, a.length = b.length ∧ a.length ∈ widths kind ∧ (∀ w ∈ a ++ b, w ∈ Text.words line) ∧
      e.obf = nameOf a ∧ e.deobf = nameOf b := by
  unfold read at h
  dsimp only at h
  split at h
  · next word first second rest is =>
    have inside : ∀ w ∈ first :: second :: rest, w ∈ Text.words line := by
      intro w hw
      apply mem_of_mem_splitSide
      rw [is]
      exact List.mem_cons_of_mem _ hw
    obtain ⟨kind', _, h⟩ := bind_eq_ok_iff.mp h
    split at h
    · cases h
    · next obf deobf named =>
      rw [keeps] at named
      obtain ⟨a, b, joined, same, wide, rfl, rfl⟩ := readNames_eq_some_iff.mp named
      split at h
      · cases h
        exact ⟨a, b, same, wide, joined ▸ inside, rfl, rfl⟩
      · cases h
  · cases h

theorem of_read {o : Options} (keeps : o.strip = false) {line : Text} {kind : Kind} {e : Entry}
    (h : read o line = .ok (.entry kind e)) : Worded kind e := by
  obtain ⟨a, b, same, wide, inside, obf, deobf⟩ := exists_words_of_read keeps h
  exact ⟨a, b, same, wide, fun w hw => Text.isWord_of_mem_words (inside w hw), obf, deobf⟩

theorem trimColons_shortName (kind : Kind) :
    trimColons (kind.shortName.toList ++ [':']) = kind.shortName.toList := by
  cases kind <;> decide

theorem isWord_start (kind : Kind) : IsWord (kind.shortName.toList ++ [':']) := by
  cases kind <;> decide

theorem render_eq_join {o : Options} {kind : Kind} {e : Entry} {a b : List Text} (na : a ≠ [])
    (nb : b ≠ []) (obf : renderName kind e.obf = Text.join ' ' a)
    (deobf : renderName kind e.deobf = Text.join ' ' b) :
    render o kind e = Text.join ' ' ((kind.shortName.toList ++ [':']) :: (a ++ b ++ marks o)) := by
  rw [Text.join_cons_eq_flatMap, List.flatMap_append, List.flatMap_append,
    ← Text.cons_join_eq_flatMap ' ' na, ← Text.cons_join_eq_flatMap ' ' nb, ← obf, ← deobf]
  unfold render marks
  cases o.side <;> simp

/-- What is made of words with spaces between them, a kind first, can stand in a text. -/
theorem stands_join (kind : Kind) {words : List Text} (isWord : ∀ w ∈ words, IsWord w) :
    Dialect.Stands (Text.join ' ' ((kind.shortName.toList ++ [':']) :: words)) := by
  have blanks : ∀ c ∈ Text.join ' ' ((kind.shortName.toList ++ [':']) :: words),
      isBlank c = true → c = ' ' :=
    fun _ hc => Text.eq_space_of_mem_join (List.forall_mem_cons.mpr ⟨isWord_start kind, isWord⟩) hc
  refine ⟨fun mem => ?_, fun mem => ?_, ?_⟩
  · exact absurd (blanks _ mem (by decide)) (by decide)
  · exact absurd (blanks _ (List.mem_of_mem_getLast? mem) (by decide)) (by decide)
  · rw [Text.join_cons_eq_flatMap, List.append_assoc]
    exact kind.isComment_shortName _

theorem isWord_marks {o : Options} (side : ∀ side ∈ o.side, ∀ c ∈ side, isBlank c = false) :
    ∀ w ∈ marks o, IsWord w := by
  unfold marks
  cases is : o.side with
  | none => simp
  | some found =>
    refine List.forall_mem_singleton.mpr ⟨by simp, List.forall_mem_cons.mpr ⟨by decide, ?_⟩⟩
    exact side found is

theorem splitSide_marks {o : Options} {words : List Text}
    (unmarked : o.side = none → ∀ last ∈ words.getLast?, last.head? ≠ some '#') :
    ∃ side, splitSide (words ++ marks o) = (words, side) ∧ o.accepts side = true := by
  unfold splitSide marks Options.accepts
  cases is : o.side with
  | some side => exact ⟨side, by simp, by simp⟩
  | none =>
    refine ⟨[], ?_, rfl⟩
    dsimp only
    rw [List.append_nil]
    split
    · next side last => exact absurd rfl (unmarked is _ last)
    · rfl

/-- The last word of a name looks like a side only if the name does. -/
theorem head_of_unmarked {words : List Text} (isWord : ∀ w ∈ words, IsWord w) {e : Entry}
    (deobf : e.deobf = nameOf words) (unmarked : Unmarked e) :
    ∀ last ∈ words.getLast?, last.head? ≠ some '#' := by
  cases words with
  | nil => simp
  | cons first words =>
    obtain ⟨word, others⟩ := List.forall_mem_cons.mp isWord
    have isDotted : IsWord (dotted first) := isWord_replaceChar (by decide) word
    have pieces : e.deobf.splitOn ' ' = dotted first :: words := by
      rw [deobf]
      apply List.splitOn_intercalate ' ' _ (List.cons_ne_nil _ _)
      exact List.forall_mem_cons.mpr
        ⟨space_not_mem isDotted, fun w hw => space_not_mem (others w hw)⟩
    unfold Unmarked at unmarked
    rw [pieces] at unmarked
    cases words with
    | cons second words => simpa using unmarked
    | nil =>
      intro last hl start
      obtain rfl : first = last := by simpa using hl
      obtain ⟨rest, rfl⟩ := List.head?_eq_some_iff.mp start
      exact unmarked _ rfl rfl

theorem read_of_words {o : Options} (keeps : o.strip = false) {kind : Kind} {line : Text}
    {a b : List Text} {side : Text} (accepts : o.accepts side = true)
    (words : splitSide (Text.words line) = ((kind.shortName.toList ++ [':']) :: (a ++ b), side))
    (same : a.length = b.length) (wide : a.length ∈ widths kind) :
    read o line = .ok (.entry kind (.twoWay (nameOf a) (nameOf b))) := by
  have named := readNames_eq_some_iff.mpr ⟨a, b, rfl, same, wide, rfl, rfl⟩
  obtain ⟨first, second, rest, is⟩ : ∃ first second rest, a ++ b = first :: second :: rest := by
    match a, b, same, ne_nil_of_widths wide with
    | first :: second :: rest, b, _, _ => exact ⟨first, second, rest ++ b, rfl⟩
    | [first], second :: rest, _, _ => exact ⟨first, second, rest, rfl⟩
  rw [is] at words named
  unfold read
  rw [words]
  dsimp only
  rw [trimColons_shortName, Kind.readWord_shortName, keeps]
  simp [bind, Except.bind, named, accepts]
  rfl

/-- The line of an entry whose names were read is read as the entry. -/
theorem readsAs {o : Options} (keeps : o.strip = false) {kind : Kind} {e : Entry} (worded : Worded kind e)
    (side : ∀ side ∈ o.side, ∀ c ∈ side, isBlank c = false) (unmarked : o.side = none → Unmarked e) :
    Dialect.ReadsAs (read o) (render o kind e) kind (.twoWay e.obf e.deobf) := by
  obtain ⟨a, b, same, wide, isWord, obf, deobf⟩ := worded
  obtain ⟨isA, isB⟩ := List.forall_mem_append.mp isWord
  obtain ⟨a', writtenA, nameA, lengthA, isA'⟩ := exists_words_renderName isA wide
  obtain ⟨b', writtenB, nameB, lengthB, isB'⟩ := exists_words_renderName isB (same ▸ wide)
  rw [← obf] at writtenA nameA
  rw [← deobf] at writtenB nameB
  have wide' : a'.length ∈ widths kind := lengthA ▸ wide
  have same' : a'.length = b'.length := by rw [lengthA, lengthB, same]
  have na : a' ≠ [] := ne_nil_of_widths wide'
  have nb : b' ≠ [] := ne_nil_of_widths (same' ▸ wide')
  have isWord' : ∀ w ∈ a' ++ b' ++ marks o, IsWord w :=
    List.forall_mem_append.mpr ⟨List.forall_mem_append.mpr ⟨isA', isB'⟩, isWord_marks side⟩
  have last : o.side = none →
      ∀ last ∈ ((kind.shortName.toList ++ [':']) :: (a' ++ b')).getLast?, last.head? ≠ some '#' := by
    intro none
    rw [← List.cons_append, List.getLast?_append, Option.or_of_isSome (by simp [nb])]
    exact head_of_unmarked isB' nameB.symm (unmarked none)
  obtain ⟨found, split, accepts⟩ := splitSide_marks last
  have line := render_eq_join (o := o) na nb writtenA writtenB
  refine ⟨?_, ?_⟩
  · rw [line]
    exact stands_join kind isWord'
  · rw [← nameA, ← nameB]
    apply read_of_words keeps accepts _ same' wide'
    rw [line, Text.words_join (List.forall_mem_cons.mpr ⟨isWord_start kind, isWord'⟩)]
    exact split

/-! ## Tables that were loaded -/

theorem lineByLine (o : Options) : Dialect.LineByLine (.columns o) (read o) (render o) where
  rows _ := rfl
  list _ := rfl

/-- Whatever text a table was loaded from, what is written for it gives the same entries again, in the same
order. Without a side no name may look as if it ended in one. -/
theorem restores_of_load_columns {o : Options} (keeps : o.strip = false) (disk : Disk) (text : Text)
    (overwrite : Bool)
    (loaded : ((Dialect.columns o).load disk text (.empty false) overwrite).result = .ok ())
    (marked : (∃ side, o.side = some side ∧ ∀ c ∈ side, isBlank c = false) ∨
      o.side = none ∧ ∀ kind,
        ∀ e ∈ ((Dialect.columns o).load disk text (.empty false) overwrite).table.entries kind,
          Unmarked e) :
    ((Dialect.columns o).load disk text (.empty false) overwrite).table.threeWay = false ∧
      (Dialect.columns o).Restores
        ((Dialect.columns o).load disk text (.empty false) overwrite).table := by
  have lines := lineByLine o
  apply lines.restores_of_load loaded
  intro kind e mem
  obtain ⟨line, kind', e', _, said, same, rfl⟩ := lines.exists_line loaded mem
  have worded := (of_read keeps said).congr same
  rcases marked with ⟨side, is, notBlank⟩ | ⟨none, unmarked⟩
  · apply readsAs keeps worded
    · simpa [is] using notBlank
    · simp [is]
  · apply readsAs keeps worded
    · simp [none]
    · exact fun _ => unmarked kind (e'.conform false) mem

/-- Lines of all shapes, with and without sides, and with white space of several sorts. -/
def shapesText : Text :=
  ("PK: . net/x #C\nCL:\u3000a/b n/\u00e9.c\nMD:: a/b c/d #S\nMD a/b (I/J) c/#d x/y #\nFD \t#x y/z \r\n" ++
    "MD: a/b c/d e/f g/h\nmd: a/b c (I)V d/e f (J)V\n").toList

def shapesLoad : Load Unit := (Dialect.columns {}).load (.ofFiles []) shapesText (.empty false) true

/-- The shapes are read with their sides left aside, and are read again without them. -/
theorem restores_shapes :
    shapesLoad.result = .ok () ∧ (∀ kind, ∀ e ∈ shapesLoad.table.entries kind, Unmarked e) ∧
      shapesLoad.table.size = 7 ∧ (Dialect.columns {}).Restores shapesLoad.table := by
  -- One evaluation shows all that is to be known of the load.
  have checked : shapesLoad.result.isOk = true ∧ shapesLoad.table.size = 7 ∧
      ∀ kind ∈ Kind.all, ∀ e ∈ shapesLoad.table.entries kind, Unmarked e := by
    decide +kernel
  have loaded : shapesLoad.result = .ok () := eq_ok_of_isOk checked.1
  have unmarked : ∀ kind, ∀ e ∈ shapesLoad.table.entries kind, Unmarked e :=
    fun kind => checked.2.2 kind (by cases kind <;> decide)
  have restored :=
    restores_of_load_columns rfl (.ofFiles []) shapesText true loaded (.inr ⟨rfl, unmarked⟩)
  exact ⟨loaded, unmarked, checked.2.1, restored.2⟩

end SymbolMap.Columns
