import SymbolMap.Proofs.Dialect.Lines
import SymbolMap.Proofs.Outcome
import SymbolMap.Proofs.Scan

/-!
Texts that are loaded part by part, in the dialects with one mapping a line.

* `ReadsLines`, `exists_rowsOf`: the dialects in which a row is a line;
* `takeAll_eq_scan`, `load_eq_scan`: such a load takes the lines one after the other into the table;
* `load_append`: so a load of two texts is a load of the first and then of the second, also where it fails.
-/
namespace SymbolMap

/-- What is wrong with a text, if `k` more lines stand before it. -/
def LoadError.later (k : Nat) : LoadError → LoadError
  | .format e => .format (e.later k)
  | .resource task e => .resource task e

/-- A table with what a row says. -/
def Table.takeRow (overwrite : Bool) (t : Table) : Row → Table
  | .entry kind e => (t.add kind e overwrite).1
  | .otherSide _ => t

/-- What a line does to a table. -/
def takeLine (read : Text → Except Fault Row) (overwrite : Bool) (t : Table) (line : Text) :
    Except Fault Table :=
  (read line).map (t.takeRow overwrite)

theorem Progress.table_take (overwrite : Bool) (p : Progress) (row : Row) :
    (p.take overwrite row).table = p.table.takeRow overwrite row := by
  cases row <;> rfl

/-- Rows that are lines are taken as the lines are. -/
theorem Progress.takeAll_eq_scan (read : Text → Except Fault Row) (overwrite : Bool) (p : Progress)
    (lines : List Line) :
    let taken := p.takeAll overwrite (lines.map fun line => (line, read line.text))
    (taken.1.table, taken.2) = scan (takeLine read overwrite) p.table lines := by
  induction lines generalizing p with
  | nil => rfl
  | cons line lines ih =>
    rw [List.map_cons]
    cases said : read line.text with
    | error fault =>
      have refused : takeLine read overwrite p.table line.text = .error fault := map_eq_error_iff.mpr said
      rw [scan_cons_of_error refused]
      rfl
    | ok row =>
      have taken : takeLine read overwrite p.table line.text = .ok (p.take overwrite row).table :=
        map_eq_ok_iff.mpr ⟨row, said, (p.table_take overwrite row).symm⟩
      rw [scan_cons_of_ok taken]
      exact ih (p.take overwrite row)

namespace Dialect

/-- Each row of these dialects is a line. A row of a sheet may go on over several of them. -/
def ReadsLines : Dialect → Prop
  | flat | sidedFlat _ | threeWay _ | columns _ => True
  | sheet _ | outline | memberLines => False

theorem exists_rowsOf {d : Dialect} (lined : d.ReadsLines) :
    ∃ read, ∀ text, d.rows? text = some (rowsOf read text) := by
  cases d with
  | flat => exact ⟨Flat.read, fun _ => rfl⟩
  | sidedFlat side => exact ⟨Flat.readSided side, fun _ => rfl⟩
  | threeWay strip => exact ⟨ThreeWay.read strip, fun _ => rfl⟩
  | columns o => exact ⟨Columns.read o, fun _ => rfl⟩
  | sheet | outline | memberLines => exact lined.elim

/-- How a load ends that stopped at a line, or at none. -/
def outcome : Option FormatError → Except LoadError Unit
  | none => .ok ()
  | some e => .error (.format e)

theorem outcome_eq_ok_iff {stop : Option FormatError} : outcome stop = .ok () ↔ stop = none := by
  cases stop <;> simp [outcome]

theorem outcome_eq_error_iff {stop : Option FormatError} {e : LoadError} :
    outcome stop = .error e ↔ ∃ invalid, stop = some invalid ∧ e = .format invalid := by
  cases stop with
  | none => simp [outcome]
  | some invalid => simp [outcome, eq_comm]

theorem outcome_map_later (k : Nat) (stop : Option FormatError) :
    outcome (stop.map (FormatError.later k)) = (outcome stop).mapError (LoadError.later k) := by
  cases stop <;> rfl

section
variable {d : Dialect} {read : Text → Except Fault Row}
  (rows : ∀ text, d.rows? text = some (rowsOf read text))
include rows

/-- Lines are taken into the table one after the other, up to the first that cannot be read. -/
theorem load_eq_scan (disk : Disk) (text : Text) (t : Table) (overwrite : Bool) :
    let taken := scan (passingComments (takeLine read overwrite)) t (Text.numbered text)
    (d.load disk text t overwrite).table = taken.1 ∧
      (d.load disk text t overwrite).result = outcome taken.2 := by
  have taken := Progress.takeAll_eq_scan read overwrite { table := t } (Text.meaningful text)
  rw [scan_meaningful] at taken
  dsimp only at taken ⊢
  rw [← taken]
  rw [load_of_rows (rows text)]
  unfold loadRows rowsOf
  rcases Progress.takeAll overwrite { table := t }
    ((Text.meaningful text).map fun line => (line, read line.text)) with ⟨p, stop⟩
  cases stop with
  | none => exact ⟨rfl, rfl⟩
  | some e => exact ⟨rfl, rfl⟩

end

/-- To load a text and another after it is to load the one and then the other, where the lines of the second
are counted on. If the first fails the second does not matter. A load that fails at a line has done what the
lines before it do. -/
theorem load_append {d : Dialect} (lined : d.ReadsLines) (disk : Disk) (t : Table) (overwrite : Bool) :
    (∀ a b : Text, Text.Ended a →
      let first := d.load disk a t overwrite
      let whole := d.load disk (a ++ b) t overwrite
      (∀ e, first.result = .error e → whole.result = .error e ∧ whole.table = first.table) ∧
      (first.result = .ok () →
        let second := d.load disk b first.table overwrite
        whole.result = second.result.mapError (.later (Text.lines a).length) ∧
          whole.table = second.table)) ∧
    ∀ text e, (d.load disk text t overwrite).result = .error e → ∃ invalid, e = .format invalid ∧
      (∃ u, u <+: text ∧ Text.lines u = (Text.lines text).take (invalid.line.number - 1)) ∧
      ∀ u, Text.lines u = (Text.lines text).take (invalid.line.number - 1) →
        (d.load disk u t overwrite).result = .ok () ∧
          (d.load disk u t overwrite).table = (d.load disk text t overwrite).table := by
  obtain ⟨read, rows⟩ := exists_rowsOf lined
  have loaded := load_eq_scan rows disk
  constructor
  · intro a b ended
    obtain ⟨tableA, resultA⟩ := loaded a t overwrite
    obtain ⟨table, result⟩ := loaded (a ++ b) t overwrite
    dsimp only
    rcases taken : scan (passingComments (takeLine read overwrite)) t (Text.numbered a) with ⟨u, stop⟩
    rw [taken] at tableA resultA
    rw [tableA, resultA, table, result]
    constructor
    · intro e fails
      obtain ⟨invalid, rfl, rfl⟩ := outcome_eq_error_iff.mp fails
      rw [scan_numbered_append_of_some ended b taken]
      exact ⟨rfl, rfl⟩
    · intro ok
      obtain rfl := outcome_eq_ok_iff.mp ok
      obtain ⟨tableB, resultB⟩ := loaded b u overwrite
      rw [scan_numbered_append ended b taken, tableB, resultB, outcome_map_later]
      exact ⟨rfl, rfl⟩
  · intro text e fails
    obtain ⟨table, result⟩ := loaded text t overwrite
    rcases taken : scan (passingComments (takeLine read overwrite)) t (Text.numbered text) with ⟨v, stop⟩
    rw [taken] at table result
    obtain ⟨invalid, rfl, rfl⟩ := outcome_eq_error_iff.mp (result.symm.trans fails)
    refine ⟨invalid, rfl, Text.exists_prefix_lines text _, fun u same => ?_⟩
    obtain ⟨tableU, resultU⟩ := loaded u t overwrite
    rw [scan_of_lines_before taken same] at tableU resultU
    exact ⟨resultU, tableU.trans table.symm⟩

/-- A class, a comment and a field of the other side, in lines with two sorts of ends. -/
def sidedPart : Text := "CL: a p/A\r\n# note\nFD: a/x p/A/y #S\n".toList

/-- A class, and a line that is too short. -/
def brokenPart : Text := "CL: c p/C\nCL: d".toList

def clientLoad (text : Text) (t : Table) : Load Unit :=
  load .empty (.columns { side := some ['C'] }) text t false

theorem load_append_sides :
    Text.Ended sidedPart ∧
    let first := clientLoad sidedPart (.empty false)
    let whole := clientLoad (sidedPart ++ brokenPart) (.empty false)
    first.result = .ok () ∧
    (clientLoad brokenPart first.table).result = .error (.format ⟨⟨2, "CL: d".toList⟩, .fewSections⟩) ∧
    whole.result = .error (.format ⟨⟨5, "CL: d".toList⟩, .fewSections⟩) ∧
    whole.table = (clientLoad brokenPart first.table).table ∧
    whole.table.entries .class_ =
      [.twoWay ['a'] "p.A".toList, .twoWay ['c'] "p.C".toList] := by
  have ended : Text.Ended sidedPart := by decide +kernel
  have ok : (clientLoad sidedPart (.empty false)).result = .ok () :=
    toOption_eq_some_iff.mp (by decide +kernel)
  have broken : (clientLoad brokenPart (clientLoad sidedPart (.empty false)).table).result =
      .error (.format ⟨⟨2, "CL: d".toList⟩, .fewSections⟩) :=
    error?_eq_some_iff.mp (by decide +kernel)
  have parts := (load_append (d := .columns { side := some ['C'] }) trivial .empty (.empty false) false).1
    sidedPart brokenPart ended
  obtain ⟨result, table⟩ := parts.2 ok
  have counted : (Text.lines sidedPart).length = 3 := by decide +kernel
  have fails := result.trans (congrArg (Except.mapError (LoadError.later (Text.lines sidedPart).length)) broken)
  rw [counted] at fails
  exact ⟨ended, ok, broken, fails, table, by decide +kernel⟩

end Dialect
end SymbolMap
