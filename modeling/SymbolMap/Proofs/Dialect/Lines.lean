import SymbolMap.Dialect.Storing
import SymbolMap.Proofs.Kind
import SymbolMap.Proofs.Listing
import SymbolMap.Proofs.Rows

/-!
Dialects that read every line by itself and write a line for each entry.

* `loadRows_of_ok`, `table_of_loadRows`: a load of rows adds their mappings, if all could be read;
* `LineByLine.exists_mem_lines`: each entry of a loaded table was read from a line;
* `LineByLine.restores`: if the line of each entry is read as that entry, what is written for a table gives
  an empty one the same entries.
-/
namespace SymbolMap.Dialect

open Progress (mappings)

section
variable {d : Dialect} {rows : List (Line × Except Fault Row)}

theorem loadRows_of_ok (ok : ∀ row ∈ rows, row.2.isOk = true) (t : Table) (overwrite : Bool) :
    ∃ told, d.loadRows rows t overwrite = ⟨t.addAll overwrite (mappings rows), told, .ok ()⟩ := by
  obtain ⟨table, fault⟩ := Progress.takeAll_of_ok overwrite ok { table := t }
  unfold loadRows
  split
  · next p is =>
    rw [is] at table
    exact ⟨_, by rw [table]⟩
  · next is =>
    rw [is] at fault
    cases fault

theorem load_of_rows {text : Text} (given : d.rows? text = some rows) (disk : Disk) (t : Table)
    (overwrite : Bool) : d.load disk text t overwrite = d.loadRows rows t overwrite := by
  unfold load
  rw [given]

theorem loadPath_of_rows {disk : Disk} {path : Path} {text : Text} (read : disk.read path = .ok text)
    (given : d.rows? text = some rows) (t : Table) (overwrite : Bool) :
    d.loadPath disk path t overwrite = d.loadRows rows t overwrite := by
  have other : d ≠ .outline := by
    rintro rfl
    cases given
  unfold loadPath
  rw [if_neg other, read]
  exact load_of_rows given disk t overwrite

variable {t : Table} {overwrite : Bool} (ok : (d.loadRows rows t overwrite).result = .ok ())
include ok

theorem isOk_of_loadRows : ∀ row ∈ rows, row.2.isOk = true := by
  have none : (({ table := t } : Progress).takeAll overwrite rows).2 = none := by
    unfold loadRows at ok
    split at ok
    · next is => rw [is]
    · cases ok
  exact Progress.ok_of_takeAll none

theorem table_of_loadRows :
    (d.loadRows rows t overwrite).table = t.addAll overwrite (mappings rows) := by
  obtain ⟨told, is⟩ := loadRows_of_ok (d := d) (isOk_of_loadRows ok) t overwrite
  rw [is]

end

/-- What the dialect writes for a table gives an empty one of its type the same entries of every kind, in
the same order. -/
def Restores (d : Dialect) (t : Table) : Prop :=
  ∀ disk overwrite,
    let again := d.load disk (d.store t) (.empty t.threeWay) overwrite
    again.result = .ok () ∧ ∀ kind, again.table.entries kind = t.entries kind

/-- The dialect has one mapping a line, both ways. -/
structure LineByLine (d : Dialect) (read : Text → Except Fault Row)
    (render : Kind → Entry → Text) : Prop where
  rows : ∀ text, d.rows? text = some (rowsOf read text)
  list : ∀ t, d.list t = t.written.map fun (kind, e) => .line (render kind e)

/-- A line that is found again in a text, and that is no comment. -/
structure Stands (line : Text) : Prop where
  whole : '\n' ∉ line
  ended : '\r' ∉ line.getLast?
  meaningful : Text.isComment line = false

/-- A line that is found again and is read as a mapping. -/
structure ReadsAs (read : Text → Except Fault Row) (line : Text) (kind : Kind) (e : Entry) : Prop
    extends Stands line where
  read : read line = .ok (.entry kind e)

namespace LineByLine

variable {d : Dialect} {read : Text → Except Fault Row} {render : Kind → Entry → Text}
  (h : LineByLine d read render)
include h

theorem load_eq (disk : Disk) (text : Text) (t : Table) (overwrite : Bool) :
    d.load disk text t overwrite = d.loadRows (rowsOf read text) t overwrite :=
  load_of_rows (h.rows text) disk t overwrite

theorem lineTexts_list (t : Table) :
    Listing.lineTexts (d.list t) = t.written.map fun (kind, e) => render kind e := by
  rw [h.list, ← Listing.lineTexts_map_line (t.written.map fun (kind, e) => render kind e),
    List.map_map]
  rfl

variable {disk : Disk} {text : Text} {t : Table} {overwrite : Bool}

theorem table_of_load (loaded : (d.load disk text t overwrite).result = .ok ()) :
    (d.load disk text t overwrite).table = t.addAll overwrite (mappings (rowsOf read text)) := by
  rw [h.load_eq] at loaded ⊢
  exact table_of_loadRows loaded

theorem sound_of_load (sound : t.Sound) (loaded : (d.load disk text t overwrite).result = .ok ()) :
    (d.load disk text t overwrite).table.Sound := by
  rw [h.table_of_load loaded]
  exact sound.addAll overwrite _

theorem threeWay_of_load (loaded : (d.load disk text t overwrite).result = .ok ()) :
    (d.load disk text t overwrite).table.threeWay = t.threeWay := by
  rw [h.table_of_load loaded, Table.threeWay_addAll]

/-- Each entry of a loaded table was read from a line of the text. -/
theorem exists_mem_lines {threeWay : Bool}
    (loaded : (d.load disk text (.empty threeWay) overwrite).result = .ok ()) {kind : Kind}
    {e : Entry} (mem : e ∈ (d.load disk text (.empty threeWay) overwrite).table.entries kind) :
    ∃ line ∈ Text.lines text, ∃ kind' e', read line = .ok (.entry kind' e') ∧
      kind'.base = kind.base ∧ e = e'.conform threeWay := by
  rw [h.table_of_load loaded] at mem
  obtain ⟨kind', e', given, same, is⟩ := Table.exists_of_mem_addAll mem
  obtain ⟨_, row⟩ := Progress.exists_of_mem_mappings given
  obtain ⟨line, hl, found⟩ := List.mem_map.mp row
  have inside := Text.text_mem_lines (List.mem_filter.mp hl).1
  have said := (Prod.mk.inj found).2
  exact ⟨line.text, inside, kind', e', said, same, is⟩

theorem exists_line {threeWay : Bool}
    (loaded : (d.load disk text (.empty threeWay) overwrite).result = .ok ()) {kind : Kind}
    {e : Entry} (mem : e ∈ (d.load disk text (.empty threeWay) overwrite).table.entries kind) :
    ∃ line kind' e', '\n' ∉ line ∧ read line = .ok (.entry kind' e') ∧ kind'.base = kind.base ∧
      e = e'.conform threeWay := by
  obtain ⟨line, inside, kind', e', said, same, is⟩ := h.exists_mem_lines loaded mem
  exact ⟨line, kind', e', Text.whole_of_mem_lines inside, said, same, is⟩

/-- What is written for a table is read line by line. -/
theorem map_snd_rowsOf_store
    (stands : ∀ kind e, (kind, e) ∈ t.written → Stands (render kind e)) :
    (rowsOf read (d.store t)).map (·.2) = t.written.map fun (kind, e) => read (render kind e) := by
  have each : ∀ line ∈ Listing.lineTexts (d.list t), Stands line := by
    rw [h.lineTexts_list]
    intro line hl
    obtain ⟨⟨kind, e⟩, mem, rfl⟩ := List.mem_map.mp hl
    exact stands kind e mem
  have lines : Text.lines (d.store t) = Listing.lineTexts (d.list t) :=
    Listing.lines_text fun line hl => ⟨(each line hl).whole, (each line hl).ended⟩
  have texts : (Text.meaningful (d.store t)).map (·.text) = Listing.lineTexts (d.list t) := by
    rw [Text.map_text_meaningful, lines]
    rw [lines]
    exact fun line hl => (each line hl).meaningful
  rw [Progress.map_snd_rowsOf, texts, h.lineTexts_list, List.map_map]
  rfl

/-- A table is restored if each of its lines is read as its entry, in whatever form the line gives it. -/
theorem restores (sound : t.Sound) (form : Entry → Entry)
    (again : ∀ kind e, (kind, e) ∈ t.written → ReadsAs read (render kind e) kind (form e))
    (forms : ∀ kind, ∀ e ∈ t.entries kind, (form e).conform t.threeWay = e) : d.Restores t := by
  intro disk overwrite
  have rows : (rowsOf read (d.store t)).map (·.2) =
      t.written.map fun (kind, e) => .ok (.entry kind (form e)) := by
    rw [h.map_snd_rowsOf_store fun kind e mem => (again kind e mem).toStands]
    exact List.map_congr_left fun p hp => (again p.1 p.2 hp).read
  have ok : ∀ row ∈ rowsOf read (d.store t), row.2.isOk = true := by
    intro row hrow
    have mem := List.mem_map_of_mem (f := Prod.snd) hrow
    rw [rows] at mem
    obtain ⟨p, _, is⟩ := List.mem_map.mp mem
    rw [← is]
    rfl
  have given : mappings (rowsOf read (d.store t)) =
      t.written.map fun (kind, e) => (kind, form e) := by
    rw [Progress.mappings_eq_filterMap, rows, List.filterMap_map]
    exact congrFun (List.filterMap_eq_map (f := fun p => (p.1, form p.2))) t.written
  obtain ⟨told, is⟩ := loadRows_of_ok (d := d) ok (.empty t.threeWay) overwrite
  dsimp only
  rw [h.load_eq, is, given]
  exact ⟨rfl, sound.entries_addAll_written overwrite forms⟩

/-- A two-way table that was loaded is restored if each of its lines is read as its entry. -/
theorem restores_of_load (loaded : (d.load disk text (.empty false) overwrite).result = .ok ())
    (again : ∀ kind, ∀ e ∈ (d.load disk text (.empty false) overwrite).table.entries kind,
      ReadsAs read (render kind e) kind (.twoWay e.obf e.deobf)) :
    (d.load disk text (.empty false) overwrite).table.threeWay = false ∧
      d.Restores (d.load disk text (.empty false) overwrite).table := by
  have twoWay := h.threeWay_of_load loaded
  have sound := h.sound_of_load (Table.sound_of_empty false) loaded
  refine ⟨twoWay, h.restores sound (fun e => .twoWay e.obf e.deobf) ?_ ?_⟩
  · intro kind e written
    exact again kind e (Table.mem_written.mp written).2
  · intro kind e mem
    have form := sound.conform_entries mem
    rw [twoWay] at form ⊢
    exact form

/-- A table is not restored if one of its lines cannot be read. -/
theorem isOk_of_restores (stands : ∀ kind e, (kind, e) ∈ t.written → Stands (render kind e))
    (restores : d.Restores t) {kind : Kind} {e : Entry} (mem : (kind, e) ∈ t.written) :
    (read (render kind e)).isOk = true := by
  have loaded := (restores (.ofFiles []) false).1
  rw [h.load_eq] at loaded
  have found : read (render kind e) ∈ (rowsOf read (d.store t)).map (·.2) := by
    rw [h.map_snd_rowsOf_store stands]
    exact List.mem_map_of_mem (f := fun (kind, e) => read (render kind e)) mem
  obtain ⟨row, hrow, is⟩ := List.mem_map.mp found
  rw [← is]
  exact isOk_of_loadRows loaded row hrow

end LineByLine
end SymbolMap.Dialect
