import SymbolMap.Dialect.Columns
import SymbolMap.Proofs.Rows
import SymbolMap.Proofs.Text.Words

/-!
The lines of the columnar dialect that are wanted on a side.

* `read_side`: a side only turns mappings into rows of the other side;
* `isOk_rowsOf_iff`: whether a text can be read does not depend on the side;
* `mappings_rowsOf`: the mappings of a side are those of its lines.
-/
namespace SymbolMap.Columns

open Progress (mapping? mappings)

/-- What the lines of a text say: the words of each that is no comment. -/
def spoken (text : Text) : List (List Text) :=
  ((Text.lines text).filter fun line => !Text.isComment line).map Text.words

/-- A side only decides whether a line is wanted, after all of the line has been read. -/
theorem read_side (side : Text) (line : Text) :
    read { side := some side } line = (read {} line).map fun
      | .entry kind e =>
        if Options.accepts { side := some side } (splitSide (Text.words line)).2 then .entry kind e
        else .otherSide [.skippedSide kind e.obf (splitSide (Text.words line)).2]
      | row => row := by
  unfold read
  dsimp only
  split
  · next word first second rest is =>
    cases Kind.readWord (trimColons word) with
    | error fault => rfl
    | ok kind =>
      simp only [bind, Except.bind]
      cases readNames false kind (first :: second :: rest) <;> rfl
  · rfl

theorem isOk_read_side (side : Text) (line : Text) :
    (read { side := some side } line).isOk = (read {} line).isOk := by
  rw [read_side]
  cases read {} line <;> rfl

theorem mapping?_read_side (side : Text) (line : Text) :
    mapping? (read { side := some side } line) =
      if Options.accepts { side := some side } (splitSide (Text.words line)).2
      then mapping? (read {} line) else none := by
  rw [read_side]
  cases read {} line with
  | error fault => simp [Except.map, mapping?]
  | ok row =>
    cases row with
    | entry kind e =>
      by_cases wanted : Options.accepts { side := some side } (splitSide (Text.words line)).2 = true <;>
        simp [Except.map, mapping?, wanted]
    | otherSide told => simp [Except.map, mapping?]

/-- A line says what its words say. -/
theorem read_join_words (o : Options) (line : Text) :
    read o (Text.join ' ' (Text.words line)) = read o line := by
  unfold read
  rw [Text.words_join fun word hw => Text.isWord_of_mem_words hw]

theorem map_snd_rowsOf (o : Options) (text : Text) :
    (rowsOf (read o) text).map (·.2) = (spoken text).map fun words => read o (Text.join ' ' words) := by
  rw [Progress.map_snd_rowsOf, Text.map_text_meaningful_eq_filter, spoken, List.map_map]
  exact List.map_congr_left fun line _ => (read_join_words o line).symm

/-- Whether a text can be read does not depend on the side. -/
theorem isOk_rowsOf_iff (side : Option Text) (text : Text) :
    (∀ row ∈ rowsOf (read { side }) text, row.2.isOk = true) ↔
      ∀ words ∈ spoken text, (read {} (Text.join ' ' words)).isOk = true := by
  have same : ∀ line, (read { side } line).isOk = (read {} line).isOk := by
    intro line
    cases side with
    | none => rfl
    | some side => exact isOk_read_side side line
  have rows := List.forall_mem_map (f := Prod.snd) (l := rowsOf (read { side }) text)
    (P := fun row => row.isOk = true)
  rw [← rows, map_snd_rowsOf, List.forall_mem_map]
  simp only [same]

/-- The mappings of a side are those of its lines and of the lines without a side. -/
theorem mappings_rowsOf (side : Option Text) (text : Text) :
    mappings (rowsOf (read { side }) text) =
      ((spoken text).filter fun words => Options.accepts { side } (splitSide words).2).filterMap
        fun words => mapping? (read {} (Text.join ' ' words)) := by
  have each : ∀ line, mapping? (read { side } (Text.join ' ' (Text.words line))) =
      if Options.accepts { side } (splitSide (Text.words line)).2
      then mapping? (read {} (Text.join ' ' (Text.words line))) else none := by
    intro line
    rw [read_join_words, read_join_words]
    cases side with
    | none => rfl
    | some side => exact mapping?_read_side side line
  rw [Progress.mappings_eq_filterMap, map_snd_rowsOf, List.filterMap_map, List.filterMap_filter, spoken,
    List.filterMap_map, List.filterMap_map]
  exact congrArg (fun f => List.filterMap f _) (funext each)

end SymbolMap.Columns
