import Mathlib.Data.List.Basic
import SymbolMap.Proofs.Dialect.Lines
import SymbolMap.Proofs.Sheet
import SymbolMap.Proofs.Sheet.Quoting
import SymbolMap.Proofs.Text.Number

/-!
The spreadsheet dialect, whose records are read back from what is written.

* `Storable`: names that neither the trimming of the fields nor the comments take anything from;
* `readFields_row`: a row is read as its entry, and accepted for its side;
* `Stays`: the lines that are left as they are when comments are blanked;
* `blankComments_store`, `contents_store`: what is left of what is written, and its records: the header and
  the rows of the entries;
* `sheet_restores_kind`: a sheet that is stored gives an empty table the same entries of its kind.
-/
namespace SymbolMap.Sheet

open Progress (mapping? mappings)

/-- Both names survive the trimming of fields and stand on one line. The first one does not start as a
comment does. -/
structure Storable (e : Entry) : Prop where
  filled : e.obf ≠ [] ∧ e.deobf ≠ []
  tight : Text.Tight e.obf ∧ Text.Tight e.deobf
  whole : ∀ c ∈ e.obf ++ e.deobf, isLineEnd c = false
  sign : Text.startsWith e.obf ['#'] = false
  slashes : Text.startsWith e.obf ['/', '/'] = false

instance (e : Entry) : Decidable (Storable e) :=
  have := List.decidableBAll (fun c => isLineEnd c = false) (e.obf ++ e.deobf)
  decidable_of_iff
    ((e.obf ≠ [] ∧ e.deobf ≠ []) ∧ (Text.Tight e.obf ∧ Text.Tight e.deobf) ∧
      (∀ c ∈ e.obf ++ e.deobf, isLineEnd c = false) ∧ Text.startsWith e.obf ['#'] = false ∧
      Text.startsWith e.obf ['/', '/'] = false)
    ⟨fun ⟨filled, tight, whole, sign, slashes⟩ => ⟨filled, tight, whole, sign, slashes⟩,
      fun h => ⟨h.filled, h.tight, h.whole, h.sign, h.slashes⟩⟩

theorem isBlank_of_isLineEnd {c : Char} (h : isLineEnd c = true) : isBlank c = true := by
  unfold isLineEnd at h
  rcases Bool.or_eq_true_iff.mp h with is | is
  · rw [beq_iff_eq.mp is]
    decide
  · rw [beq_iff_eq.mp is]
    decide

/-! ## Rows -/

/-- The fields that are written for an entry. -/
def row (o : Options) (e : Entry) : List Text :=
  [e.obf, e.deobf, Number.render (o.side.getD bothSides), []]

def headerFields : List Text :=
  ["searge", "name", "side", "desc"].map String.toList

theorem renderFields_headerFields : renderFields headerFields = header := by decide

theorem accepts_side (o : Options) : o.accepts (o.side.getD bothSides) = true := by
  unfold Options.accepts
  cases o.side <;> simp

variable {o : Options} {e : Entry}

theorem mem_render {c : Char} (mem : c ∈ render o e) :
    c = ',' ∨ c = '"' ∨ c ∈ e.obf ∨ c ∈ e.deobf ∨ c ∈ Number.render (o.side.getD bothSides) := by
  rcases Text.mem_join mem with comma | ⟨piece, hp, inside⟩
  · exact .inl comma
  · obtain ⟨field, hf, rfl⟩ := List.mem_map.mp hp
    refine .inr ((mem_renderField inside).imp_right fun own => ?_)
    simp only [List.mem_cons, List.not_mem_nil, or_false] at hf
    rcases hf with rfl | rfl | rfl | rfl
    · exact .inl own
    · exact .inr (.inl own)
    · exact .inr (.inr own)
    · exact absurd own List.not_mem_nil

/-- A row is read as its entry, and accepted for its side. -/
theorem readFields_row (filled : e.obf ≠ [] ∧ e.deobf ≠ []) (tight : Text.Tight e.obf ∧ Text.Tight e.deobf) :
    readFields o headerFields (row o e) = .ok (.entry o.kind (.twoWay e.obf e.deobf)) := by
  have columns : headerFields.map (fun field => Column.ofLabel? (Text.trim field)) =
      [some .searge, some .name, some .side, none] := by decide
  have digits := Number.isWord_render (o.side.getD bothSides)
  have fields : (row o e).map Text.trim = row o e := by
    simp only [row, List.map_cons, List.map_nil, Text.trim_of_tight tight.1,
      Text.trim_of_tight tight.2, Text.trim_of_tight (Text.tight_of_forall digits.2)]
    rfl
  unfold readFields readRecord
  rw [columns]
  dsimp only
  rw [fields]
  simp [row, List.zipIdx, Found.putAll, Found.put, Number.readEither_render, bind, Except.bind,
    Found.row, filled, accepts_side]

section
variable (h : Storable e)
include h

theorem not_mem_render {c : Char} (ends : isLineEnd c = true) : c ∉ render o e := by
  have blank := isBlank_of_isLineEnd ends
  intro mem
  rcases mem_render mem with rfl | rfl | obf | deobf | digit
  · cases blank
  · cases blank
  · rw [h.whole c (List.mem_append_left _ obf)] at ends
    cases ends
  · rw [h.whole c (List.mem_append_right _ deobf)] at ends
    cases ends
  · rw [(Number.isWord_render _).2 c digit] at blank
    cases blank

/-- The line of an entry is found again: it holds no line end and is no comment. -/
theorem stands_render : Dialect.Stands (render o e) where
  whole := not_mem_render h (by decide)
  ended mem := not_mem_render h (c := '\r') (by decide) (List.mem_of_mem_getLast? mem)
  meaningful := by
    have line : ∃ more, render o e = renderField e.obf ++ ',' :: more :=
      ⟨_, Text.join_cons_cons ',' _ _ _⟩
    obtain ⟨more, is⟩ := line
    rw [is]
    rcases renderField_cases e.obf with quoted | ⟨_, plain⟩
    · rw [quoted]
      exact Text.isComment_cons (by decide) (by decide) _
    · rw [plain]
      apply Text.isComment_of_startsWith
      · simp
      · intro c hc
        rw [List.head?_append, Option.or_of_isSome (by simp [h.filled.1])] at hc
        exact h.tight.1.1 c hc
      · rw [Text.startsWith_append_cons (by decide)]
        exact h.sign
      · rw [Text.startsWith_append_cons (by decide)]
        exact h.slashes

end

/-! ## Lines -/

/-- What is left of a line where comments are blanked. -/
def shown (line : Text) : Text :=
  if Text.isComment (Text.chomp line) then [] else Text.chomp line

/-- The line is left as it is: it is not taken for a comment, and no part of it for its end. -/
structure Stays (line : Text) : Prop where
  ended : '\r' ∉ line.getLast?
  said : line = [] ∨ Text.isComment line = false

instance (line : Text) : Decidable (Stays line) :=
  decidable_of_iff ('\r' ∉ line.getLast? ∧ (line = [] ∨ Text.isComment line = false))
    ⟨fun ⟨ended, said⟩ => ⟨ended, said⟩, fun h => ⟨h.ended, h.said⟩⟩

theorem Stays.shown_eq {line : Text} (h : Stays line) : shown line = line := by
  unfold shown
  rw [Text.chomp_of_getLast h.ended]
  rcases h.said with rfl | meaningful
  · rfl
  · rw [meaningful]
    rfl

/-- The lines of a row. There is more than one if a name has a line end. -/
def rowLines (o : Options) (e : Entry) : List Text := (render o e).splitOn '\n'

theorem Storable.stays (h : Storable e) : ∀ line ∈ rowLines o e, Stays line := by
  have stands := stands_render (o := o) h
  unfold rowLines
  rw [List.splitOn_eq_singleton stands.whole]
  exact List.forall_mem_singleton.mpr ⟨stands.ended, .inr stands.meaningful⟩

/-! ## Tables -/

theorem store_eq (o : Options) (t : Table) : (Dialect.sheet o).store t =
    header ++ '\n' :: (t.entries o.kind).flatMap fun e => render o e ++ ['\n'] := by
  have pieces : list o t = (header :: (t.entries o.kind).map (render o)).map .line := by
    unfold list
    simp
  unfold Dialect.store Dialect.list
  dsimp only
  rw [Listing.text_eq_flatMap, pieces, Listing.lineTexts_map_line, List.flatMap_cons, List.flatMap_map]
  simp

theorem lines_flatMap_render (o : Options) (es : List Entry) :
    Text.lines (es.flatMap fun e => render o e ++ ['\n']) = (es.flatMap (rowLines o)).map Text.chomp := by
  induction es with
  | nil => rfl
  | cons e es ih =>
    rw [List.flatMap_cons, List.flatMap_cons, List.append_assoc, List.singleton_append,
      Text.lines_append_newline, ih, List.map_append]
    rfl

/-- What is left of what is written, once comments are blanked. -/
theorem blankComments_store (o : Options) (t : Table) : blankComments ((Dialect.sheet o).store t) =
    Text.join '\n' (header :: ((t.entries o.kind).flatMap (rowLines o)).map shown) := by
  have whole : '\n' ∉ header := by decide
  have first : Text.chomp header = header := by decide
  have meaningful : Text.isComment header = false := by decide
  unfold blankComments
  rw [store_eq, Text.lines_cons_newline header _ whole, first, lines_flatMap_render, List.map_cons,
    meaningful, List.map_map]
  rfl

theorem join_lines (o : Options) (es : List Entry) :
    Text.join '\n' (header :: es.flatMap (rowLines o)) = Text.join '\n' (header :: es.map (render o)) := by
  rw [Text.join_cons_eq_flatMap, Text.join_cons_eq_flatMap, List.flatMap_assoc, List.flatMap_map]
  apply congrArg (header ++ ·)
  refine List.flatMap_congr fun e _ => ?_
  unfold rowLines
  rw [← Text.cons_join_eq_flatMap '\n' (List.splitOn_ne_nil '\n' (render o e)), Text.join_splitOn]

section
variable {t : Table}

/-- If all lines of the rows stay, then the records of what is written for a table are the header and the rows
of the entries. -/
theorem contents_store (stays : ∀ e ∈ t.entries o.kind, ∀ line ∈ rowLines o e, Stays line) :
    contents ((Dialect.sheet o).store t) = headerFields :: (t.entries o.kind).map (row o) := by
  have kept : ((t.entries o.kind).flatMap (rowLines o)).map shown =
      (t.entries o.kind).flatMap (rowLines o) := by
    refine (List.map_congr_left fun line hl => ?_).trans (List.map_id' _)
    obtain ⟨e, mem, inside⟩ := List.mem_flatMap.mp hl
    exact (stays e mem line inside).shown_eq
  have rendered : header :: (t.entries o.kind).map (render o) =
      (headerFields :: (t.entries o.kind).map (row o)).map renderFields := by
    rw [List.map_cons, renderFields_headerFields, List.map_map]
    rfl
  have filled : ∀ fields ∈ headerFields :: (t.entries o.kind).map (row o), Shown fields := by
    refine List.forall_mem_cons.mpr ⟨⟨by decide, by decide⟩, fun fields hf => ?_⟩
    obtain ⟨e, _, rfl⟩ := List.mem_map.mp hf
    exact ⟨by simp [row], by simp [row]⟩
  have first : header.head? = some 's' := by decide
  obtain ⟨more, start⟩ := Text.exists_join_cons '\n' header ((t.entries o.kind).map (render o))
  unfold contents
  rw [blankComments_store, kept, join_lines, records_eq_readFrom]
  · rw [rendered]
    exact map_fields_readFrom_join filled 1 1
  · rw [start, List.head?_append, first, Option.some_or]
    decide

/-- All records of what is written are read, each as its entry. -/
theorem map_snd_rows_store_of_stays
    (filled : ∀ e ∈ t.entries o.kind, e.obf ≠ [] ∧ e.deobf ≠ [])
    (tight : ∀ e ∈ t.entries o.kind, Text.Tight e.obf ∧ Text.Tight e.deobf)
    (stays : ∀ e ∈ t.entries o.kind, ∀ line ∈ rowLines o e, Stays line) :
    (rows o ((Dialect.sheet o).store t)).map (·.2) =
      (t.entries o.kind).map fun e => .ok (.entry o.kind (.twoWay e.obf e.deobf)) := by
  rw [map_snd_rows, contents_store stays]
  dsimp only [readAll]
  rw [List.map_map]
  exact List.map_congr_left fun e mem => readFields_row (filled e mem) (tight e mem)

theorem map_snd_rows_store (names : ∀ e ∈ t.entries o.kind, Storable e) :
    (rows o ((Dialect.sheet o).store t)).map (·.2) =
      (t.entries o.kind).map fun e => .ok (.entry o.kind (.twoWay e.obf e.deobf)) :=
  map_snd_rows_store_of_stays (fun e mem => (names e mem).filled) (fun e mem => (names e mem).tight)
    fun e mem => (names e mem).stays

end

/-- A sheet that is stored and loaded again gives an empty table the entries of its kind, in the same order
and with nothing else, whatever commas and quotes are in the names. -/
theorem sheet_restores_kind {o : Options} {t : Table} (reachable : t.Reachable)
    (twoWay : t.threeWay = false) (names : ∀ e ∈ t.entries o.kind, Storable e) (disk : Disk)
    (overwrite : Bool) :
    let again := (Dialect.sheet o).load disk ((Dialect.sheet o).store t) (.empty false) overwrite
    again.result = .ok () ∧ again.table.entries o.kind = t.entries o.kind ∧
      ∀ kind ∈ again.table.kinds, kind = o.kind.base := by
  have read := map_snd_rows_store names
  have ok : ∀ row ∈ rows o ((Dialect.sheet o).store t), row.2.isOk = true := by
    intro row hrow
    have mem := List.mem_map_of_mem (f := Prod.snd) hrow
    rw [read] at mem
    obtain ⟨e, _, is⟩ := List.mem_map.mp mem
    rw [← is]
    rfl
  let form : Entry → Entry := fun e => .twoWay e.obf e.deobf
  have given : mappings (rows o ((Dialect.sheet o).store t)) =
      ((t.entries o.kind).map form).map (o.kind, ·) := by
    rw [Progress.mappings_eq_filterMap, read, List.filterMap_map, List.map_map]
    exact congrFun (List.filterMap_eq_map (f := fun e => (o.kind, form e))) _
  obtain ⟨told, is⟩ := Dialect.loadRows_of_ok (d := .sheet o) ok (.empty false) overwrite
  dsimp only
  rw [Dialect.load_of_rows rfl, is, given]
  refine ⟨rfl, ?_, fun kind known => ?_⟩
  · have forms : ∀ e ∈ t.entries o.kind, (form e).conform t.threeWay = e := by
      intro e mem
      have conformed := reachable.sound.conform_entries mem
      rw [twoWay] at conformed ⊢
      exact conformed
    have same := reachable.sound.entries_addAll_kind overwrite forms
    rwa [twoWay] at same
  · obtain ⟨p, hp, base⟩ := Table.exists_of_mem_kinds_addAll known
    obtain ⟨e, _, rfl⟩ := List.mem_map.mp hp
    exact base.symm

/-- Names with commas, quotes, spaces and signs of comments in them. -/
def quotedTable : Table :=
  let fields := ((Table.empty false).addTwoWay .field "a,\"b\"".toList "\"x, y\"".toList false).1
  let named := (fields.addTwoWay .field "/ #,//".toList "# \"\" ,".toList false).1
  (named.addTwoWay .class_ " ".toList "#".toList false).1

theorem reachable_quotedTable : quotedTable.Reachable :=
  .addTwoWay _ _ _ _ (.addTwoWay _ _ _ _ (.addTwoWay _ _ _ _ (.empty false)))

theorem sheet_restores_quotedTable :
    quotedTable.Reachable ∧ quotedTable.threeWay = false ∧
      (∀ e ∈ quotedTable.entries .field, Storable e) ∧
      (let o : Options := { kind := .field, side := some 7 }
       let again := (Dialect.sheet o).load (.ofFiles []) ((Dialect.sheet o).store quotedTable)
         (.empty false) false
       again.result = .ok () ∧ again.table.entries .field = quotedTable.entries .field ∧
         ∀ kind ∈ again.table.kinds, kind = .field) := by
  have names : ∀ e ∈ quotedTable.entries .field, Storable e := by
    decide +kernel
  have restored := sheet_restores_kind (o := { kind := .field, side := some 7 }) reachable_quotedTable
    rfl names (.ofFiles []) false
  exact ⟨reachable_quotedTable, rfl, names, restored⟩

end SymbolMap.Sheet
