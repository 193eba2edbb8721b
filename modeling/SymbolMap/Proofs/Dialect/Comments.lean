import SymbolMap.Dialect.Loading
import SymbolMap.Proofs.Dialect.Parts
import SymbolMap.Proofs.Outline.Independence
import SymbolMap.Proofs.Text.Numbered
import SymbolMap.Proofs.Text.Words

/-!
Comments between the lines of a text.

* `Text.meaningful_insert`: a comment that is put between the lines of a text is passed over, and the lines after
  it are counted one further;
* `Outline.Item.read_of_isComment`: an outline, which looks for comments in its own way, passes over the same ones;
* `Progress.takeAll_past`, `MemberLines.readLines_past`, `Outline.readLines_past`: what lines come to does not
  hang on their numbers, apart from the number of a line that cannot be read;
* `loads_pass_over_comment`: so a load of a text with a comment is the load of the text without it, whichever way
  imports are opened.
-/
namespace SymbolMap

/-- The line in a text in which one more line is put after the first `k`. -/
def Line.past (k : Nat) (line : Line) : Line :=
  if k < line.number then line.later 1 else line

@[simp] theorem Line.text_past (k : Nat) (line : Line) : (line.past k).text = line.text := by
  unfold past
  split <;> rfl

/-- What is wrong with a line, in a text in which one more line is put after the first `k`. -/
def FormatError.past (k : Nat) (e : FormatError) : FormatError := ⟨e.line.past k, e.fault⟩

def LoadError.past (k : Nat) : LoadError → LoadError
  | .format e => .format (e.past k)
  | .resource task e => .resource task e

/-- The load of a text in which one more line is put after the first `k`, if that line says nothing. -/
def Load.past {α : Type} (k : Nat) (l : Load α) : Load α :=
  { l with result := l.result.mapError (.past k) }

theorem Load.andTell_past {α : Type} (l : Load α) (k : Nat) (tell : α → Event) :
    (l.past k).andTell tell = (l.andTell tell).past k := by
  obtain ⟨table, events, result⟩ := l
  cases result with
  | error e => rfl
  | ok a => rfl

/-! ## Lines -/

namespace Text

section
variable {a c : Text} (ended : Ended a) (whole : '\n' ∉ c) (b : Text)
include ended whole

theorem lines_insert : lines (a ++ c ++ '\n' :: b) = lines a ++ chomp c :: lines b := by
  rw [List.append_assoc, lines_append ended, lines_cons_newline c b whole]

theorem numbered_insert : numbered (a ++ c ++ '\n' :: b) =
    numbered a ++ ⟨(lines a).length + 1, chomp c⟩ ::
      (numbered b).map (Line.later ((lines a).length + 1)) := by
  have line : lines (c ++ ['\n']) = [chomp c] := lines_cons_newline c [] whole
  have alone : numbered (c ++ ['\n']) = [⟨1, chomp c⟩] := by
    unfold numbered
    rw [line]
    rfl
  have closed : Ended (c ++ ['\n']) := .inr (List.getLast?_concat ..)
  have split : a ++ c ++ '\n' :: b = a ++ (c ++ ['\n'] ++ b) := by simp
  rw [split, numbered_append ended, numbered_append closed, alone, line, List.map_append, List.map_map]
  have counted : Line.later (lines a).length ∘ Line.later [chomp c].length =
      Line.later ((lines a).length + 1) := by
    funext line
    simp only [Function.comp_apply, Line.later, List.length_singleton, Line.mk.injEq, and_true]
    omega
  rw [counted]
  simp [Line.later, Nat.add_comm]

end

theorem map_past_numbered (t : Text) : (numbered t).map (Line.past (lines t).length) = numbered t := by
  refine (List.map_congr_left fun line mem => ?_).trans (List.map_id' _)
  obtain ⟨i, is⟩ := List.mem_iff_getElem?.mp mem
  rw [getElem?_numbered, Option.map_eq_some_iff] at is
  obtain ⟨text, found, rfl⟩ := is
  obtain ⟨bound, _⟩ := List.getElem?_eq_some_iff.mp found
  exact if_neg (Nat.not_lt.mpr bound)

theorem map_past_later (k : Nat) (t : Text) :
    ((numbered t).map (Line.later k)).map (Line.past k) = (numbered t).map (Line.later (k + 1)) := by
  rw [List.map_map]
  refine List.map_congr_left fun line mem => ?_
  obtain ⟨i, is⟩ := List.mem_iff_getElem?.mp mem
  rw [getElem?_numbered, Option.map_eq_some_iff] at is
  obtain ⟨text, _, rfl⟩ := is
  have after : k < (Line.later k ⟨i + 1, text⟩).number := by
    show k < i + 1 + k
    omega
  rw [Function.comp_apply, Line.past, if_pos after]
  rfl

theorem isComment_text_past (k : Nat) :
    (fun line : Line => !isComment line.text) ∘ Line.past k = fun line => !isComment line.text := by
  funext line
  simp

/-- A comment between the lines of a text is passed over, and the lines after it are counted one further. -/
theorem meaningful_insert {a c : Text} (ended : Ended a) (whole : '\n' ∉ c) (comment : isComment c = true)
    (b : Text) : meaningful (a ++ c ++ '\n' :: b) =
      (meaningful (a ++ b)).map (Line.past (lines a).length) := by
  have passed : isComment (chomp c) = true := (isComment_chomp c).trans comment
  unfold meaningful
  rw [numbered_insert ended whole, List.filter_append, List.filter_cons_of_neg (by simp [passed]),
    numbered_append ended, ← isComment_text_past (lines a).length, ← List.filter_map, List.map_append,
    map_past_numbered, map_past_later, List.filter_append, isComment_text_past]

end Text

/-! ## Outlines -/

namespace Outline

theorem Item.read_eq_nothing {line : Text} (h : Text.trim (line.takeWhile (· != '#')) = [] ∨
    ∃ more, Text.trim (line.takeWhile (· != '#')) = '/' :: '/' :: more) : read line = .ok .nothing := by
  unfold read
  dsimp only
  rcases h with is | ⟨more, is⟩
  · rw [is]
  · rw [is]
    rfl

/-- An outline passes over a comment, whatever stands after a number sign in it. -/
theorem Item.read_of_isComment {line : Text} (comment : Text.isComment line = true) :
    read line = .ok .nothing := by
  obtain ⟨blanks, rest, hb, rfl, mark⟩ := Text.exists_blank_of_isComment comment
  have unmarked : ∀ c ∈ blanks, (c != '#') = true := by
    intro c mem
    have blank := hb c mem
    simp only [bne_iff_ne]
    rintro rfl
    exact absurd blank (by decide)
  apply read_eq_nothing
  rw [List.takeWhile_append_of_pos unmarked]
  rcases mark with rfl | ⟨more, rfl⟩ | ⟨more, rfl⟩
  · rw [List.takeWhile_nil, List.append_nil]
    exact .inl (Text.trim_of_blank hb)
  · rw [List.takeWhile_cons_of_neg (by decide), List.append_nil]
    exact .inl (Text.trim_of_blank hb)
  · rw [List.takeWhile_cons_of_pos (by decide), List.takeWhile_cons_of_pos (by decide),
      Text.trim_append_of_blank hb, Text.trim_cons (by decide), Text.trimEnd_cons (by decide)]
    exact .inr ⟨_, rfl⟩

theorem readLine_of_isComment {line : Text} (comment : Text.isComment line = true)
    (importName : Text → Import) (c : Context) (s : Imports) :
    readLine importName c s line = (s, .ok (c, [])) := by
  unfold readLine
  rw [Item.read_of_isComment comment]

section
variable (importName : Text → Import) (c : Context) (declared : Array Declaration) (s : Imports)

/-- Without its comments an outline is read the same. -/
theorem readLines_filter (lines : List Line) :
    readLines importName c declared s (lines.filter fun line => !Text.isComment line.text) =
      readLines importName c declared s lines := by
  induction lines generalizing c declared s with
  | nil => rfl
  | cons line lines ih =>
    by_cases comment : Text.isComment line.text = true
    · rw [List.filter_cons_of_neg (by simp [comment]), ih,
        readLines_of_ok (readLine_of_isComment comment importName c s)]
      simp
    · rw [List.filter_cons_of_pos (by simp [comment])]
      rcases first : readLine importName c s line.text with ⟨next, fault | ⟨c', more⟩⟩
      · rw [readLines_of_error first, readLines_of_error first]
      · rw [readLines_of_ok first, readLines_of_ok first, ih]

theorem readLines_past (k : Nat) (lines : List Line) :
    readLines importName c declared s (lines.map (Line.past k)) =
      ((readLines importName c declared s lines).1,
        (readLines importName c declared s lines).2.mapError (FormatError.past k)) := by
  induction lines generalizing c declared s with
  | nil => rfl
  | cons line lines ih =>
    rw [List.map_cons]
    rcases first : readLine importName c s line.text with ⟨next, fault | ⟨c', more⟩⟩
    · have moved : readLine importName c s (line.past k).text = (next, .error fault) := by
        rw [Line.text_past, first]
      rw [readLines_of_error first, readLines_of_error moved]
      rfl
    · have moved : readLine importName c s (line.past k).text = (next, .ok (c', more)) := by
        rw [Line.text_past, first]
      rw [readLines_of_ok first, readLines_of_ok moved, ih]

end

section
variable {a c : Text} (ended : Text.Ended a) (whole : '\n' ∉ c) (comment : Text.isComment c = true) (b : Text)
include ended whole comment

theorem levels_insert (i : Importer) : levels i (a ++ c ++ '\n' :: b) = levels i (a ++ b) := by
  have passed : Item.read (Text.chomp c) = .ok .nothing :=
    Item.read_of_isComment ((Text.isComment_chomp c).trans comment)
  have nothing : namesIn (Text.chomp c :: Text.lines b) = namesIn (Text.lines b) :=
    List.filterMap_cons_none (by rw [passed])
  have names : importedNames (a ++ c ++ '\n' :: b) = importedNames (a ++ b) := by
    rw [importedNames_eq, importedNames_eq, Text.lines_insert ended whole, Text.lines_append ended,
      namesIn_append, namesIn_append, nothing]
  unfold levels
  rw [List.flatMap_cons, List.flatMap_cons, names]

theorem loadBy_insert (importName : Text → Import) (s : Imports) (t : Table) (overwrite : Bool) :
    loadBy importName s (a ++ c ++ '\n' :: b) t overwrite =
      (loadBy importName s (a ++ b) t overwrite).past (Text.lines a).length := by
  have meant := Text.meaningful_insert ended whole comment b
  unfold Text.meaningful at meant
  unfold loadBy
  rw [← readLines_filter, meant, readLines_past, readLines_filter]
  rcases readLines importName {} #[] s (Text.numbered (a ++ b)) with ⟨s, e | ds⟩
  · rfl
  · rfl

theorem loadFrom_insert (i : Importer) (base : Option Path) (seen : List Text) (t : Table) (overwrite : Bool) :
    loadFrom i base seen (a ++ c ++ '\n' :: b) t overwrite =
      (loadFrom i base seen (a ++ b) t overwrite).past (Text.lines a).length := by
  rw [loadFrom_eq_loadBy, loadFrom_eq_loadBy, levels_insert ended whole comment]
  exact loadBy_insert ended whole comment b _ _ t overwrite

end
end Outline

namespace MemberLines

theorem readLines_past (k : Nat) (owner : Option Owner) (declared : Array Declaration) (lines : List Line) :
    readLines owner declared (lines.map (Line.past k)) =
      (readLines owner declared lines).mapError (FormatError.past k) := by
  induction lines generalizing owner declared with
  | nil => rfl
  | cons line lines ih =>
    rw [List.map_cons, readLines, readLines, Line.text_past]
    cases readLine owner line.text with
    | error fault => rfl
    | ok next => exact ih next.1 (declared ++ next.2)

theorem load_insert {a c : Text} (ended : Text.Ended a) (whole : '\n' ∉ c)
    (comment : Text.isComment c = true) (b : Text) (t : Table) (overwrite : Bool) :
    load (a ++ c ++ '\n' :: b) t overwrite =
      (load (a ++ b) t overwrite).past (Text.lines a).length := by
  unfold load readText
  rw [Text.meaningful_insert ended whole comment, readLines_past]
  cases readLines none #[] (Text.meaningful (a ++ b)) with
  | error e => rfl
  | ok ds => rfl

end MemberLines

theorem Progress.takeAll_past (k : Nat) (read : Text → Except Fault Row) (overwrite : Bool) (p : Progress)
    (lines : List Line) :
    p.takeAll overwrite ((lines.map (Line.past k)).map fun line => (line, read line.text)) =
      ((p.takeAll overwrite (lines.map fun line => (line, read line.text))).1,
        (p.takeAll overwrite (lines.map fun line => (line, read line.text))).2.map
          (FormatError.past k)) := by
  induction lines generalizing p with
  | nil => rfl
  | cons line lines ih =>
    rw [List.map_cons, List.map_cons, List.map_cons, Line.text_past]
    cases read line.text with
    | error fault => rfl
    | ok row => exact ih (p.take overwrite row)

namespace Dialect

theorem loadRows_insert {a c : Text} (ended : Text.Ended a) (whole : '\n' ∉ c)
    (comment : Text.isComment c = true) (b : Text) (d : Dialect) (read : Text → Except Fault Row) (t : Table)
    (overwrite : Bool) :
    d.loadRows (rowsOf read (a ++ c ++ '\n' :: b)) t overwrite =
      (d.loadRows (rowsOf read (a ++ b)) t overwrite).past (Text.lines a).length := by
  unfold loadRows rowsOf
  rw [Text.meaningful_insert ended whole comment, Progress.takeAll_past]
  rcases Progress.takeAll overwrite { table := t }
    ((Text.meaningful (a ++ b)).map fun line => (line, read line.text)) with ⟨p, stop⟩
  cases stop with
  | none => rfl
  | some e => rfl

/-- To load a text that has a comment between its lines is to load the text without the comment, in every dialect
that has comments of its own: the table, what is told and what an outline reports are the same, and so is what is
wrong with the text, except that the lines after the comment are counted one further. In an outline that is so
with any importer, and whatever else its imports may come to. -/
theorem loads_pass_over_comment {a c : Text} (ended : Text.Ended a) (whole : '\n' ∉ c)
    (comment : Text.isComment c = true) (b : Text) (t : Table) (overwrite : Bool) :
    (∀ (disk : Disk) (d : Dialect), (∀ o, d ≠ .sheet o) →
      d.load disk (a ++ c ++ '\n' :: b) t overwrite =
        (d.load disk (a ++ b) t overwrite).past (Text.lines a).length) ∧
    (∀ (i : Importer) (base : Option Path) (seen : List Text),
      Outline.loadFrom i base seen (a ++ c ++ '\n' :: b) t overwrite =
        (Outline.loadFrom i base seen (a ++ b) t overwrite).past (Text.lines a).length) ∧
    ∀ (importName : Text → Outline.Import) (s : Outline.Imports),
      Outline.loadBy importName s (a ++ c ++ '\n' :: b) t overwrite =
        (Outline.loadBy importName s (a ++ b) t overwrite).past (Text.lines a).length := by
  have outlines := fun i base seen => Outline.loadFrom_insert ended whole comment b i base seen t overwrite
  have imports := fun importName s => Outline.loadBy_insert ended whole comment b importName s t overwrite
  refine ⟨fun disk d other => ?_, outlines, imports⟩
  by_cases lined : d.ReadsLines
  · obtain ⟨read, rows⟩ := exists_rowsOf lined
    rw [load_of_rows (rows _), load_of_rows (rows _), loadRows_insert ended whole comment]
  · cases d with
    | flat => exact absurd trivial lined
    | sidedFlat side => exact absurd trivial lined
    | threeWay strip => exact absurd trivial lined
    | columns o => exact absurd trivial lined
    | sheet o => exact absurd rfl (other o)
    | memberLines => exact MemberLines.load_insert ended whole comment b t overwrite
    | outline =>
      show (Outline.loadText _ _ _ _).andTell _ = ((Outline.loadText _ _ _ _).andTell _).past _
      unfold Outline.loadText
      rw [outlines, Load.andTell_past]

/-- A line that only an outline cuts at the number sign, and whose tab would be a place in a package. -/
def note : Text := "\t// b:C # none\r".toList

/-- An import, and a class with a field whose access is asked for. -/
def noted : Text := ">>x\n\tb:C\n\t\tpublic!x:f\n".toList

/-- The same, but nothing stands before the exclamation mark. -/
def broken : Text := "\tb:C\n\t\t!x:f\n".toList

/-- One file is opened by its name, from whatever base, and no base is known for its own imports. -/
def oneResource : Importer where
  fetch _ name :=
    if name = ['x'] then .ok ⟨"q:r\n".toList, none⟩
    else .error ⟨⟨name⟩, .other "NotFound" "no such resource"⟩
  texts := ["q:r\n".toList]
  mem_texts _ name source opened := by
    split at opened
    · cases opened
      exact List.mem_singleton_self _
    · cases opened

/-- An import that is not looked for. -/
def knownImport (name : Text) : Outline.Import := fun s => (s, [.names .package ⟨name, name, name⟩])

theorem loads_pass_over_note :
    let resourceLoad :=
      Outline.loadFrom oneResource none [] ("a:p\n".toList ++ note ++ '\n' :: noted) (.empty true) false
    let knownLoad :=
      Outline.loadBy knownImport { seen := [] } ("a:p\n".toList ++ note ++ '\n' :: noted) (.empty true) false
    Text.Ended "a:p\n".toList ∧ '\n' ∉ note ∧ Text.isComment note = true ∧
    (load .empty .outline ("a:p\n".toList ++ note ++ '\n' :: broken) (.empty true) false).result =
      .error (.format ⟨⟨4, "\t\t!x:f".toList⟩, .emptyAccess⟩) ∧
    resourceLoad.table.entries .package = [.threeWay ['a'] ['p'] ['p'], .threeWay ['q'] ['r'] ['r']] ∧
    resourceLoad.table.entries .field = [.threeWay "a.b.x".toList "p.C.f".toList "p.C.f".toList] ∧
    knownLoad.table.entries .package = [.threeWay ['a'] ['p'] ['p'], .threeWay ['x'] ['x'] ['x']] := by
  intro resourceLoad knownLoad
  have ended : Text.Ended "a:p\n".toList := by decide
  have whole : '\n' ∉ note := by decide
  have comment : Text.isComment note = true := by decide +kernel
  have fails : (load .empty .outline ("a:p\n".toList ++ broken) (.empty true) false).result =
      .error (.format ⟨⟨3, "\t\t!x:f".toList⟩, .emptyAccess⟩) :=
    error?_eq_some_iff.mp (by decide +kernel)
  have one : (Text.lines "a:p\n".toList).length = 1 := by decide +kernel
  obtain ⟨_, opened, imported⟩ := loads_pass_over_comment ended whole comment noted (.empty true) false
  have resources : resourceLoad = _ := opened oneResource none []
  have known : knownLoad = _ := imported knownImport { seen := [] }
  rw [resources, known]
  refine ⟨ended, whole, comment, ?_, by decide +kernel, by decide +kernel, by decide +kernel⟩
  rw [(loads_pass_over_comment ended whole comment broken (.empty true) false).1 .empty .outline nofun, one]
  exact congrArg (Except.mapError (LoadError.past 1)) fails

end Dialect
end SymbolMap
