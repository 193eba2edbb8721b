import Mathlib.Data.List.Perm.Subperm
import SymbolMap.Proofs.Sheet.Weight

/-!
Sheets that were loaded, stored and loaded again.

* `loaded_of_mem_accepted`: the names of a row that was accepted are filled, with no white space around them;
* `exists_contents_store`: what is read of what was written weighs no more than what the comments leave of it;
* `piecesWeight_accepted_le`: the accepted rows weigh no more than the records;
* `stays_of_restored`: so if a table comes back whole, then nothing was left out of its rows;
* `restores_of_load_iff_stays`: a table that was loaded comes back if and only if all lines of its rows stay
  as they are.
-/
namespace SymbolMap

theorem Text.tight_trim (t : Text) : Text.Tight (Text.trim t) := by
  refine ⟨fun c hc => ?_, fun c hc => isBlank_of_mem_getLast?_trim hc⟩
  have kept : (((trimStart t).reverse.dropWhile isBlank).reverse) <+: (trimStart t).reverse.reverse :=
    List.reverse_prefix.mpr (List.dropWhile_suffix isBlank)
  rw [List.reverse_reverse] at kept
  obtain ⟨rest, is⟩ := List.head?_eq_some_iff.mp hc
  obtain ⟨more, whole⟩ := kept
  have start : t.dropWhile isBlank = c :: (rest ++ more) := whole.symm.trans (congrArg (· ++ more) is)
  have stop := List.head?_dropWhile_not isBlank t
  rw [start] at stop
  exact stop

namespace Sheet

open Progress (mapping? mappings)

/-! ## Names that were loaded -/

/-- The names that have been found have no white space around them. -/
structure Found.Trimmed (f : Found) : Prop where
  searge : ∀ name ∈ f.searge, Text.Tight name
  name : ∀ name ∈ f.name, Text.Tight name

theorem Found.trimmed_put {f g : Found} {index : Nat} {column : Option Column} {field : Text}
    (trimmed : f.Trimmed) (tight : Text.Tight field) (h : f.put index column field = .ok g) : g.Trimmed := by
  have only : ∀ name ∈ some field, Text.Tight name := by
    rintro _ ⟨⟩
    exact tight
  unfold Found.put at h
  split at h
  · cases h
    exact trimmed
  · split at h
    · cases h
    · cases h
      exact ⟨only, trimmed.name⟩
  · split at h
    · cases h
    · cases h
      exact ⟨trimmed.searge, only⟩
  · split at h
    · cases h
    · split at h
      · cases h
        exact ⟨trimmed.searge, trimmed.name⟩
      · cases h

theorem Found.trimmed_putAll {f g : Found} {fields : List ((Option Column × Text) × Nat)}
    (trimmed : f.Trimmed) (tight : ∀ field ∈ fields, Text.Tight field.1.2)
    (h : f.putAll fields = .ok g) : g.Trimmed := by
  induction fields generalizing f with
  | nil =>
    cases h
    exact trimmed
  | cons first fields ih =>
    obtain ⟨⟨column, field⟩, index⟩ := first
    obtain ⟨here, later⟩ := List.forall_mem_cons.mp tight
    rw [Found.putAll] at h
    split at h
    · next f' put => exact ih (trimmed_put trimmed here put) later h
    · cases h

/-- A record is accepted with the names that were found, if these are filled. -/
theorem Found.names_of_row {o : Options} {f : Found} {kind : Kind} {e : Entry}
    (h : f.row o = .ok (.entry kind e)) :
    f.searge = some e.obf ∧ f.name = some e.deobf ∧ e.obf ≠ [] ∧ e.deobf ≠ [] := by
  unfold row at h
  split at h
  · cases h
  · cases h
  · cases h
  · next searge name _ is is' _ =>
    split at h
    · cases h
    · next filled =>
      have names : searge ≠ [] ∧ name ≠ [] := by simpa using filled
      split at h
      · cases h
        exact ⟨is, is', names⟩
      · cases h

/-- The names of an entry are filled, and there is no white space around them. -/
structure Loaded (e : Entry) : Prop where
  filled : e.obf ≠ [] ∧ e.deobf ≠ []
  tight : Text.Tight e.obf ∧ Text.Tight e.deobf

theorem loaded_of_readRecord {o : Options} {columns : List (Option Column)} {r : Record} {kind : Kind}
    {e : Entry} (h : readRecord o columns r = .ok (.entry kind e)) : Loaded e := by
  unfold readRecord at h
  split at h
  · obtain ⟨f, put, h⟩ := bind_eq_ok_iff.mp h
    have none : ∀ name ∈ (none : Option Text), Text.Tight name := fun _ mem => nomatch mem
    have trimmed : f.Trimmed := by
      refine Found.trimmed_putAll ⟨none, none⟩ (fun field mem => ?_) put
      have zipped : field.1 ∈ columns.zip (r.fields.map Text.trim) := by
        obtain ⟨_, _, is⟩ := List.mem_zipIdx mem
        rw [is]
        exact List.getElem_mem _
      obtain ⟨_, _, is⟩ := List.mem_map.mp (List.of_mem_zip zipped).2
      rw [← is]
      exact Text.tight_trim _
    obtain ⟨searge, name, filled⟩ := Found.names_of_row h
    exact ⟨filled, trimmed.searge _ searge, trimmed.name _ name⟩
  · cases h

theorem loaded_of_mem_accepted {o : Options} {text : Text} {e : Entry} (h : e ∈ accepted o text) :
    Loaded e := by
  obtain ⟨⟨kind, e⟩, mem, rfl⟩ := List.mem_map.mp h
  obtain ⟨line, hrow⟩ := Progress.exists_of_mem_mappings mem
  unfold rows at hrow
  split at hrow
  · cases hrow
  · obtain ⟨r, _, is⟩ := List.mem_map.mp hrow
    exact loaded_of_readRecord (Prod.mk.inj is).2

section
variable {o : Options} {disk : Disk} {text : Text} {overwrite : Bool}

/-- A load of a sheet adds the accepted rows. -/
theorem table_of_load
    (h : ((Dialect.sheet o).load disk text (.empty false) overwrite).result = .ok ()) :
    ((Dialect.sheet o).load disk text (.empty false) overwrite).table =
      (Table.empty false).addAll overwrite ((accepted o text).map (o.kind, ·)) := by
  rw [Dialect.load_of_rows rfl] at h ⊢
  rw [Dialect.table_of_loadRows h, mappings_rows]

/-- All entries of a sheet that was loaded are accepted rows, and of its one kind. -/
theorem mem_of_load
    (h : ((Dialect.sheet o).load disk text (.empty false) overwrite).result = .ok ()) {kind : Kind}
    {e : Entry} (mem : e ∈ ((Dialect.sheet o).load disk text (.empty false) overwrite).table.entries kind) :
    o.kind.base = kind.base ∧ e ∈ accepted o text := by
  rw [table_of_load h] at mem
  obtain ⟨_, _, given, same, is⟩ := Table.exists_of_mem_addAll mem
  obtain ⟨⟨obf, intermediate, deobf⟩, accept, pair⟩ := List.mem_map.mp given
  obtain ⟨rfl, rfl⟩ := Prod.mk.inj pair
  obtain rfl : intermediate = none := intermediate_of_mem_accepted accept
  exact ⟨same, is ▸ accept⟩

end

/-! ## What is lost -/

/-- What is read of what was written weighs no more than what is left of its lines. -/
theorem exists_contents_store (o : Options) (t : Table) :
    ∃ records, contents ((Dialect.sheet o).store t) = headerFields :: records ∧
      piecesWeight records.flatten ≤ piecesWeight (((t.entries o.kind).flatMap (rowLines o)).map shown) := by
  let left := ((t.entries o.kind).flatMap (rowLines o)).map shown
  have first : header.head? = some 's' := by decide
  obtain ⟨more, start⟩ := Text.exists_join_cons '\n' header left
  have whole : records (blankComments ((Dialect.sheet o).store t)) =
      readFrom {} (header ++ left.flatMap ('\n' :: ·)) := by
    rw [blankComments_store, records_eq_readFrom, Text.join_cons_eq_flatMap]
    rw [start, List.head?_append, first, Option.some_or]
    decide
  have columns : Shown headerFields := ⟨by decide, by decide⟩
  obtain ⟨q, closed, inside, record, read⟩ :=
    exists_readFrom_renderFields (p := {}) columns.1 ⟨rfl, .inl rfl⟩ fun _ => columns
  have fields : q.record.fields = headerFields := by
    rw [record]
    rfl
  unfold contents
  rw [whole, ← renderFields_headerFields, read]
  by_cases none : left = []
  · refine ⟨[], ?_, Nat.zero_le _⟩
    rw [none, List.flatMap_nil, readFrom_nil inside, List.map_singleton, fields]
  · let p : Partial := { start := q.line + 1, line := q.line + 1 }
    refine ⟨(readFrom p (Text.join '\n' left)).map (·.fields), ?_, ?_⟩
    · rw [← Text.cons_join_eq_flatMap '\n' none, readFrom_newline closed inside, List.map_cons, fields]
    · have joined : weight (Text.join '\n' left) + 1 = piecesWeight left := weight_join rfl none
      have read := piecesWeight_readFrom_le p (Text.join '\n' left)
      have nothing : p.pending = 0 := rfl
      rw [← List.flatMap_def]
      change _ ≤ piecesWeight left
      omega

/-- A record under the header that is accepted has the names in its first two fields. -/
theorem piecesWeight_row_le {o : Options} {fields : List Text} {kind : Kind} {e : Entry}
    (h : readFields o headerFields fields = .ok (.entry kind e)) :
    piecesWeight (row o e) ≤ piecesWeight fields := by
  have columns : headerFields.map (fun field => Column.ofLabel? (Text.trim field)) =
      [some .searge, some .name, some .side, none] := by decide
  unfold readFields readRecord at h
  rw [columns] at h
  dsimp only at h
  split at h
  · next four =>
    obtain ⟨a, b, c, d, rfl⟩ : ∃ a b c d, fields = [a, b, c, d] := by
      match fields, four with
      | [a, b, c, d], _ => exact ⟨a, b, c, d, rfl⟩
    obtain ⟨f, put, found⟩ := bind_eq_ok_iff.mp h
    have names : f.searge = some (Text.trim a) ∧ f.name = some (Text.trim b) := by
      simp only [List.map_cons, List.map_nil, List.zip_cons_cons, List.zip_nil_right, List.zipIdx_cons,
        List.zipIdx_nil, Found.putAll, Found.put, Option.isSome_none, Bool.false_eq_true, if_false] at put
      split at put
      · next g marked =>
        split at marked
        · cases marked
          cases put
          exact ⟨rfl, rfl⟩
        · cases marked
      · cases put
    obtain ⟨searge, name, _⟩ := Found.names_of_row found
    have obf : e.obf = Text.trim a := Option.some.inj (searge.symm.trans names.1)
    have deobf : e.deobf = Text.trim b := Option.some.inj (name.symm.trans names.2)
    have lost := weight_trim_le a
    have lost' := weight_trim_le b
    rw [piecesWeight_row, obf, deobf]
    simp only [piecesWeight_cons, piecesWeight_nil]
    omega
  · cases h

/-- The rows that are accepted weigh no more than the records. -/
theorem piecesWeight_accepted_le (o : Options) {text : Text} {records : List (List Text)}
    (is : contents text = headerFields :: records) :
    piecesWeight ((accepted o text).flatMap (row o)) ≤ piecesWeight records.flatten := by
  have own : accepted o text =
      ((records.map (readFields o headerFields)).filterMap mapping?).map (·.2) := by
    unfold accepted
    rw [Progress.mappings_eq_filterMap, map_snd_rows, is]
    rfl
  rw [own]
  clear own is
  induction records with
  | nil => exact Nat.zero_le _
  | cons fields records ih =>
    rw [List.map_cons, List.flatten_cons, piecesWeight_append]
    cases found : mapping? (readFields o headerFields fields) with
    | none =>
      rw [List.filterMap_cons_none found]
      omega
    | some p =>
      obtain ⟨kind, e⟩ := p
      have here := piecesWeight_row_le (Progress.eq_of_mapping? found)
      rw [List.filterMap_cons_some found, List.map_cons, List.flatMap_cons, piecesWeight_append]
      exact Nat.add_le_add here ih

/-- If all entries of a table come back, then nothing was left out of their rows: what was written has no more
in it than they have. -/
theorem stays_of_restored {o : Options} {t : Table} (sound : t.Sound)
    (back : ∀ e ∈ t.entries o.kind, e ∈ accepted o ((Dialect.sheet o).store t)) :
    ∀ e ∈ t.entries o.kind, ∀ line ∈ rowLines o e, Stays line := by
  obtain ⟨records, is, left⟩ := exists_contents_store o t
  have nodup : (t.entries o.kind).Nodup := by
    refine (sound.pairwise_entries o.kind).imp fun {a b} apart same => ?_
    subst same
    exact apart (.refl a)
  obtain ⟨kept, perm, sublist⟩ := List.subperm_of_subset nodup back
  have lines : piecesWeight ((t.entries o.kind).flatMap (rowLines o)) ≤
      piecesWeight (((t.entries o.kind).flatMap (rowLines o)).map shown) :=
    calc piecesWeight ((t.entries o.kind).flatMap (rowLines o))
      _ = piecesWeight ((t.entries o.kind).flatMap (row o)) := piecesWeight_flatMap_rowLines o _
      _ = piecesWeight (kept.flatMap (row o)) := (piecesWeight_of_perm (perm.flatMap_right (row o))).symm
      _ ≤ piecesWeight ((accepted o ((Dialect.sheet o).store t)).flatMap (row o)) :=
        piecesWeight_of_sublist (sublist.flatMap (row o))
      _ ≤ piecesWeight records.flatten := piecesWeight_accepted_le o is
      _ ≤ _ := left
  intro e mem line inside
  exact stays_of_piecesWeight_le lines line (List.mem_flatMap.mpr ⟨e, mem, inside⟩)

/-! ## Loads -/

/-- Rows of which all lines stay as they are give an empty table their entries. -/
theorem restored_of_stays {o : Options} {t : Table} (sound : t.Sound) (twoWay : t.threeWay = false)
    (loaded : ∀ e ∈ t.entries o.kind, Loaded e)
    (stays : ∀ e ∈ t.entries o.kind, ∀ line ∈ rowLines o e, Stays line) (disk : Disk) (overwrite : Bool) :
    let again := (Dialect.sheet o).load disk ((Dialect.sheet o).store t) (.empty false) overwrite
    again.result = .ok () ∧ again.table.entries o.kind = t.entries o.kind := by
  have read := map_snd_rows_store_of_stays (fun e mem => (loaded e mem).filled)
    (fun e mem => (loaded e mem).tight) stays
  have ok : ∀ row ∈ rows o ((Dialect.sheet o).store t), row.2.isOk = true := by
    intro row hrow
    have mem := List.mem_map_of_mem (f := Prod.snd) hrow
    rw [read] at mem
    obtain ⟨e, _, is⟩ := List.mem_map.mp mem
    rw [← is]
    rfl
  have forms : ∀ e ∈ t.entries o.kind, (Entry.twoWay e.obf e.deobf).conform t.threeWay = e := by
    intro e mem
    have conformed := sound.conform_entries mem
    rw [twoWay] at conformed ⊢
    exact conformed
  have accept : accepted o ((Dialect.sheet o).store t) =
      (t.entries o.kind).map fun e => .twoWay e.obf e.deobf := by
    unfold accepted
    rw [Progress.mappings_eq_filterMap, read, List.filterMap_map]
    change ((t.entries o.kind).filterMap fun e => some (o.kind, Entry.twoWay e.obf e.deobf)).map _ = _
    rw [List.filterMap_eq_map', List.map_map]
    rfl
  have result : ((Dialect.sheet o).load disk ((Dialect.sheet o).store t) (.empty false) overwrite).result =
      .ok () := by
    obtain ⟨told, is⟩ := Dialect.loadRows_of_ok (d := .sheet o) ok (.empty false) overwrite
    rw [Dialect.load_of_rows rfl, is]
  refine ⟨result, ?_⟩
  have same := sound.entries_addAll_kind overwrite forms
  rw [twoWay] at same
  rw [table_of_load result, accept]
  exact same

/-- A table that was loaded comes back from what is written for it if and only if all lines of its rows stay
as they are: none of them may read as a comment, nor may the end of one belong to the end of the line. -/
theorem restores_of_load_iff_stays {o : Options} {text : Text} {disk : Disk} {overwrite : Bool}
    (h : ((Dialect.sheet o).load disk text (.empty false) overwrite).result = .ok ()) (disk' : Disk)
    (overwrite' : Bool) :
    let t := ((Dialect.sheet o).load disk text (.empty false) overwrite).table
    let again := (Dialect.sheet o).load disk' ((Dialect.sheet o).store t) (.empty false) overwrite'
    (again.result = .ok () ∧ ∀ kind, again.table.entries kind = t.entries kind) ↔
      ∀ e ∈ t.entries o.kind, ∀ line ∈ rowLines o e, Stays line := by
  dsimp only
  have own : ∀ kind, ∀ e ∈ ((Dialect.sheet o).load disk text (.empty false) overwrite).table.entries kind,
      o.kind.base = kind.base ∧ e ∈ accepted o text := fun kind e mem => mem_of_load h mem
  have sound : ((Dialect.sheet o).load disk text (.empty false) overwrite).table.Sound := by
    rw [table_of_load h]
    exact (Table.sound_of_empty false).addAll overwrite _
  have twoWay : ((Dialect.sheet o).load disk text (.empty false) overwrite).table.threeWay = false := by
    rw [table_of_load h, Table.threeWay_addAll]
    rfl
  generalize ((Dialect.sheet o).load disk text (.empty false) overwrite).table = t at own sound twoWay
  constructor
  · rintro ⟨ok, same⟩
    refine stays_of_restored sound fun e mem => ?_
    rw [← same] at mem
    exact (mem_of_load ok mem).2
  · intro stays
    have loaded : ∀ e ∈ t.entries o.kind, Loaded e :=
      fun e mem => loaded_of_mem_accepted (own o.kind e mem).2
    obtain ⟨ok, same⟩ := restored_of_stays sound twoWay loaded stays disk' overwrite'
    refine ⟨ok, fun kind => ?_⟩
    by_cases base : o.kind.base = kind.base
    · rw [← Table.entries_congr _ base, ← Table.entries_congr _ base]
      exact same
    · have none : t.entries kind = [] :=
        List.eq_nil_iff_forall_not_mem.mpr fun e mem => base (own kind e mem).1
      rw [none]
      exact List.eq_nil_iff_forall_not_mem.mpr fun e mem => base (mem_of_load ok mem).1

/-- Names with commas, with quotes and on two lines, and a row for one side. -/
def wrappedText : Text :=
  "desc,name,searge,side\r\n\"p, q\",\"two\nlines\",\"a,1\",2\r\n,\"say \"\"#\"\"\", b ,7\n".toList

def wrappedLoad : Load Unit :=
  (Dialect.sheet { kind := .method }).load (.ofFiles []) wrappedText (.empty false) false

theorem restores_of_load_iff_stays_wrapped :
    let d := Dialect.sheet { kind := .method }
    let again := d.load (.ofFiles []) (d.store wrappedLoad.table) (.empty false) true
    wrappedLoad.result = .ok () ∧
      wrappedLoad.table.entries .method =
        [.twoWay "a,1".toList "two\nlines".toList, .twoWay "b".toList "say \"#\"".toList] ∧
      again.result = .ok () ∧ ∀ kind, again.table.entries kind = wrappedLoad.table.entries kind := by
  have read : wrappedLoad.result = .ok () := toOption_eq_some_iff.mp (by decide +kernel)
  have entries : wrappedLoad.table.entries .method =
      [.twoWay "a,1".toList "two\nlines".toList, .twoWay "b".toList "say \"#\"".toList] := by
    decide +kernel
  have stay : ∀ e ∈ wrappedLoad.table.entries .method, ∀ line ∈ rowLines { kind := .method } e,
      Stays line := by
    rw [entries]
    decide +kernel
  exact ⟨read, entries, (restores_of_load_iff_stays read (.ofFiles []) true).mpr stay⟩

/-- A name in quotes that starts as a comment does. -/
def signedText : Text := "searge,name,side,desc\n\"#a\",b,2,\n".toList

/-- The name is written without quotes, and its row is taken for a comment. -/
theorem signed_row_is_dropped :
    let d := Dialect.sheet { kind := .field }
    let t := (d.load (.ofFiles []) signedText (.empty false) false).table
    let again := d.load (.ofFiles []) (d.store t) (.empty false) false
    (d.load (.ofFiles []) signedText (.empty false) false).result.isOk = true ∧
      t.entries .field = [.twoWay "#a".toList "b".toList] ∧
      d.store t = "searge,name,side,desc\n#a,b,2,\n".toList ∧
      again.result.isOk = true ∧ again.table.entries .field = [] := by
  decide +kernel

end Sheet
end SymbolMap
