import SymbolMap.Command.Run
import SymbolMap.Proofs.Dialect.Lines
import SymbolMap.Proofs.Searge.Combining
import SymbolMap.Proofs.Sheet

/-!
The names that are generated from the three files of a directory.

* `Sheet.Reads.loadPath`: a load of a sheet adds its accepted rows;
* `renamed_of_last`: what the last row for a searge name comes to;
* `Loads.generate`: the generated table is the combination of the tables that were loaded;
* `Loads.uses_last_name`: a member gets the last name for its searge name, unless a later row gives the
  same name to another one.
-/
namespace SymbolMap

open Progress (mappings)

theorem Load.exists_eq {l : Load Unit} (ok : l.result = .ok ()) :
    ∃ told, l = ⟨l.table, told, .ok ()⟩ :=
  ⟨l.events, ok ▸ rfl⟩

namespace Sheet

/-- A sheet is read without an error. -/
structure Reads (disk : Disk) (path : Path) (o : Options) (text : Text) : Prop where
  read : disk.read path = .ok text
  ok : ∀ row ∈ rows o text, row.2.isOk = true

theorem Reads.loadPath {disk : Disk} {path : Path} {o : Options} {text : Text}
    (h : Reads disk path o text) (t : Table) (overwrite : Bool) :
    ∃ told, (Dialect.sheet o).loadPath disk path t overwrite =
      ⟨t.addAll overwrite ((accepted o text).map (o.kind, ·)), told, .ok ()⟩ := by
  rw [← mappings_rows]
  obtain ⟨told, is⟩ := Dialect.loadRows_of_ok (d := .sheet o) h.ok t overwrite
  exact ⟨told, (Dialect.loadPath_of_rows h.read rfl t overwrite).trans is⟩

end Sheet

namespace Searge

/-- What the last row for a searge name comes to: its name is not known any more if a later row gives it to
another searge name, and is the readable one otherwise. -/
theorem renamed_of_last (before : List Entry) {after : List Entry} {row e : Entry} {p : Parts}
    (twoWay : row.intermediate = none) (parts : p.Of e.deobf) (is : row.obf = p.searge)
    (last : ∀ r ∈ after, r.obf ≠ row.obf) :
    Renamed (addedAll true [] (before ++ row :: after)) e (.threeWay e.obf e.deobf
      (if ∃ r ∈ after, r.deobf = row.deobf then e.deobf else p.withName row.deobf)) := by
  have step : addedAll true [] (before ++ row :: after) =
      addedAll true (added (addedAll true [] before) row true).1 after :=
    addedAll_append true [] before (row :: after)
  refine ⟨rfl, rfl, p, parts, ?_⟩
  rw [step]
  by_cases taken : ∃ r ∈ after, r.deobf = row.deobf
  · rw [if_pos taken]
    refine .inr ⟨fun x hx obf => ?_, rfl⟩
    rcases mem_addedAll_overwriting_iff.mp hx with ⟨old, apart⟩ | ⟨_, _, here, _⟩
    · rcases mem_added_overwriting_iff.mp old with rfl | ⟨_, other⟩
      · obtain ⟨r, hr, same⟩ := taken
        exact apart r hr (.inr (.inl same.symm))
      · exact other (.inl (obf.trans is.symm))
    · exact last x (by simp [here]) (obf.trans is.symm)
  · rw [if_neg taken]
    refine .inl ⟨row, mem_addedAll_overwriting_iff.mpr (.inl ⟨?_, fun r hr => ?_⟩), is, rfl⟩
    · exact mem_added_overwriting_iff.mpr (.inl rfl)
    · rintro (obf | deobf | ⟨_, named⟩)
      · exact last r hr obf.symm
      · exact taken ⟨r, hr, deobf.symm⟩
      · exact named twoWay

end Searge

namespace Command

/-- The options that the names of a kind are read with. -/
def sheetOf (kind : Kind) (side : Side) : Sheet.Options :=
  { kind, side := side.sheetSide }

/-- The three files of a directory are loaded for a side without an error. -/
structure Loads (disk : Disk) (dir : Path) (side : Side) (srg : Table) (fields methods : Text) :
    Prop where
  searge : ∃ told, (seargeInput dir side).dialect.loadPath disk (seargeInput dir side).path
    (.empty false) false = ⟨srg, told, .ok ()⟩
  fields : Sheet.Reads disk (dir.join "fields.csv".toList) (sheetOf .field side) fields
  methods : Sheet.Reads disk (dir.join "methods.csv".toList) (sheetOf .method side) methods

/-- The table of readable names. -/
def namesOf (side : Side) (fields methods : Text) : Table :=
  (Table.empty false).addAll true <|
    (Sheet.accepted (sheetOf .field side) fields).map (.field, ·) ++
      (Sheet.accepted (sheetOf .method side) methods).map (.method, ·)

theorem sound_namesOf (side : Side) (fields methods : Text) : (namesOf side fields methods).Sound :=
  (Table.sound_of_empty false).addAll true _

theorem map_conform_accepted (o : Sheet.Options) (text : Text) :
    (Sheet.accepted o text).map (·.conform false) = Sheet.accepted o text := by
  refine (List.map_congr_left fun e he => ?_).trans (List.map_id' _)
  have none := Sheet.intermediate_of_mem_accepted he
  obtain ⟨obf, intermediate, deobf⟩ := e
  obtain rfl : intermediate = .none := none
  rfl

/-- The readable names of a kind are those of its own file. -/
theorem entries_namesOf (side : Side) {fields methods text : Text} {kind : Kind}
    (given : (kind, text) ∈ [(Kind.field, fields), (.method, methods)]) :
    (namesOf side fields methods).entries kind =
      addedAll true [] (Sheet.accepted (sheetOf kind side) text) := by
  have own : Table.ofKind kind
      ((Sheet.accepted (sheetOf .field side) fields).map (Kind.field, ·) ++
        (Sheet.accepted (sheetOf .method side) methods).map (Kind.method, ·)) =
      Sheet.accepted (sheetOf kind side) text := by
    rw [Table.ofKind_append, Table.ofKind_map, Table.ofKind_map]
    rcases List.mem_pair.mp given with is | is <;> cases is <;> simp [Kind.base]
  unfold namesOf
  rw [(Table.sound_of_empty false).entries_addAll, own]
  exact congrArg (addedAll true []) (map_conform_accepted _ _)

theorem loadInputs_cons {load : Input → Table → Load Unit} {t t' : Table} {events told : List Event}
    {input : Input} {rest : List Input} (h : load input t = ⟨t', told, .ok ()⟩) :
    loadInputs load t events (input :: rest) = loadInputs load t' (events ++ told) rest := by
  rw [loadInputs, h]

namespace Loads

variable {disk : Disk} {dir : Path} {side : Side} {srg : Table} {fields methods : Text}
  (h : Loads disk dir side srg fields methods)
include h

theorem sound : srg.Sound := by
  obtain ⟨told, is⟩ := h.searge
  unfold Dialect.loadPath at is
  rw [if_neg (by simp [seargeInput])] at is
  split at is
  · cases is
  · have table : srg = _ :=
      (congrArg Load.table is).symm.trans (Dialect.table_of_loadRows (congrArg Load.result is))
    rw [table]
    exact (Table.sound_of_empty false).addAll false _

/-- The generated table is the combination of the tables that were loaded. -/
theorem generate : ∃ events, generate disk dir side =
    (events, .ok (Searge.combine srg (namesOf side fields methods)).1) := by
  obtain ⟨told, searge⟩ := h.searge
  obtain ⟨toldFields, loadedFields⟩ := h.fields.loadPath (.empty false) true
  obtain ⟨toldMethods, loadedMethods⟩ := h.methods.loadPath
    ((Table.empty false).addAll true
      ((Sheet.accepted (sheetOf .field side) fields).map (Kind.field, ·))) true
  have first : loadInputs (·.load disk false) (.empty false) [] [seargeInput dir side] =
      (srg, [] ++ told, none) :=
    loadInputs_cons searge
  have names : loadInputs (·.load disk true) (.empty false) ([] ++ told) (nameInputs dir side) =
      (namesOf side fields methods, [] ++ told ++ toldFields ++ toldMethods, none) := by
    unfold nameInputs namesOf
    rw [Table.addAll_append]
    exact (loadInputs_cons loadedFields).trans (loadInputs_cons loadedMethods)
  unfold Command.generate
  rw [first]
  dsimp only
  rw [names]
  exact ⟨_, rfl⟩

/-- A member whose searge name has a row gets the name of the last one, as long as no other member gets
that name too and no later row gives it to another searge name. In that case the member keeps its searge
name. -/
theorem uses_last_name : ∃ events t, Command.generate disk dir side = (events, .ok t) ∧
    ∀ kind text, (kind, text) ∈ [(Kind.field, fields), (.method, methods)] →
    ∀ e ∈ srg.entries kind, ∀ p : Searge.Parts, p.Of e.deobf →
    ∀ before row after, Sheet.accepted (sheetOf kind side) text = before ++ row :: after →
    row.obf = p.searge → (∀ r ∈ after, r.obf ≠ row.obf) →
    let name := if ∃ r ∈ after, r.deobf = row.deobf then e.deobf else p.withName row.deobf
    (∀ e' ∈ srg.entries kind, e' ≠ e → ∀ x,
      Searge.Renamed (addedAll true [] (before ++ row :: after)) e' x → x.deobf ≠ name) →
    t.entryByObf kind e.obf = .ok (some (.threeWay e.obf e.deobf name)) := by
  obtain ⟨events, generated⟩ := h.generate
  refine ⟨events, _, generated, ?_⟩
  intro kind text given e mem p parts before row after rows is last name alone
  have member : kind ∈ Kind.storable ∧ kind.isMember = true := by
    rcases List.mem_pair.mp given with is | is <;> cases is <;> decide
  have known := entries_namesOf side given
  rw [rows] at known
  have twoWay : row.intermediate = none :=
    Sheet.intermediate_of_mem_accepted (rows ▸ List.mem_append_right _ List.mem_cons_self)
  have renamed := Searge.renamed_of_last before twoWay parts is last
  rw [← known] at renamed alone
  exact Searge.entryByObf_combine h.sound (sound_namesOf side fields methods) member.1 member.2 mem
    renamed alone

end Loads

/-- Two fields of different classes, whose searge names have one readable name. -/
def sharedName : Text := "searge,name,side,desc\nfield_1,time,2,\nfield_2,time,2,\n".toList

def noName : Text := "searge,name,side,desc\n".toList

def sharedDir : Path := ⟨"mcp".toList⟩

def sharedDisk : Disk :=
  .ofFiles [
    (⟨"mcp/joined.srg".toList⟩,
      .text "CL: a p/C\nCL: b p/D\nFD: a/x p/C/field_1\nFD: b/y p/D/field_2\n".toList),
    (⟨"mcp/fields.csv".toList⟩, .text sharedName),
    (⟨"mcp/methods.csv".toList⟩, .text noName)]

/-- The table of the searge names on `sharedDisk`. -/
def sharedSearge : Table :=
  ((seargeInput sharedDir .both).dialect.loadPath sharedDisk (seargeInput sharedDir .both).path
    (.empty false) false).table

theorem loads_shared : Loads sharedDisk sharedDir .both sharedSearge sharedName noName where
  searge := Load.exists_eq (by decide +kernel)
  fields := ⟨by decide +kernel, by decide +kernel⟩
  methods := ⟨by decide +kernel, by decide +kernel⟩

theorem entries_sharedSearge : sharedSearge.entries .field =
    [.twoWay "a.x".toList "p.C.field_1".toList, .twoWay "b.y".toList "p.D.field_2".toList] := by
  decide +kernel

/-- The last row for the second searge name is also the last one for the readable name, which it gets. -/
theorem uses_last_name_of_second :
    Loads sharedDisk sharedDir .both sharedSearge sharedName noName ∧
    ∃ events t, generate sharedDisk sharedDir .both = (events, .ok t) ∧
      t.entryByObf .field "b.y".toList =
        .ok (some (.threeWay "b.y".toList "p.D.field_2".toList "p.D.time".toList)) := by
  obtain ⟨events, t, generated, named⟩ := loads_shared.uses_last_name
  have rows : Sheet.accepted (sheetOf .field .both) sharedName =
      [.twoWay "field_1".toList "time".toList] ++ .twoWay "field_2".toList "time".toList :: [] := by
    decide +kernel
  have second : Entry.twoWay "b.y".toList "p.D.field_2".toList ∈ sharedSearge.entries .field := by
    rw [entries_sharedSearge]
    exact List.mem_of_mem_tail List.mem_cons_self
  have last := named .field sharedName List.mem_cons_self _ second _ (Searge.of_split _) _ _ _ rows
    (by decide) (by simp)
  refine ⟨loads_shared, events, t, generated, last fun e' he' other x renamed => ?_⟩
  rw [entries_sharedSearge] at he'
  obtain rfl := (List.mem_pair.mp he').resolve_right other
  obtain ⟨p, hp, ⟨r, hr, obf, _⟩ | ⟨_, kept⟩⟩ := renamed.deobf
  · exfalso
    rw [hp.eq_split] at obf
    exact absurd obf ((by decide : ∀ r ∈ addedAll true []
      ([.twoWay "field_1".toList "time".toList] ++ .twoWay "field_2".toList "time".toList :: []),
      r.obf ≠ (Searge.split "p.C.field_1".toList).searge) r hr)
  · rw [kept]
    decide

/-- The first field loses its name to the second one, although there is a row for it and no other field
of that name would be in its class. -/
theorem shared_name_is_lost :
    Sheet.accepted (sheetOf .field .both) sharedName =
      [.twoWay "field_1".toList "time".toList, .twoWay "field_2".toList "time".toList] ∧
    (generate sharedDisk sharedDir .both).2.toOption.map (·.entries .field) =
      some [.threeWay "a.x".toList "p.C.field_1".toList "p.C.field_1".toList,
        .threeWay "b.y".toList "p.D.field_2".toList "p.D.time".toList] := by
  decide +kernel

end Command

end SymbolMap
