import SymbolMap.Proofs.Table.Run
import SymbolMap.Rows

/-!
Loads of rows.

* `mappings_eq_filterMap`, `map_snd_rowsOf`: the mappings of a text are those of its lines;
* `takeAll_of_ok`: rows that could all be read are added one after the other;
* `ok_of_takeAll`: a load without an error has read them all;
* `exists_split_of_takeAll`: one with an error has read those before the row that could not be read.
-/
namespace SymbolMap.Progress

/-- The mappings among rows, in order. -/
def mappings (rows : List (Line × Except Fault Row)) : List (Kind × Entry) :=
  rows.filterMap fun
    | (_, .ok (.entry kind e)) => some (kind, e)
    | _ => none

/-- The mapping that a row gives, if it is one. -/
def mapping? : Except Fault Row → Option (Kind × Entry)
  | .ok (.entry kind e) => some (kind, e)
  | _ => none

theorem eq_of_mapping? {row : Except Fault Row} {kind : Kind} {e : Entry}
    (h : mapping? row = some (kind, e)) : row = .ok (.entry kind e) := by
  match row, h with
  | .ok (.entry _ _), rfl => rfl

theorem mappings_eq_filterMap (rows : List (Line × Except Fault Row)) :
    mappings rows = (rows.map (·.2)).filterMap mapping? := by
  rw [List.filterMap_map]
  apply congrArg fun f => List.filterMap f rows
  funext row
  match row with
  | (_, .ok (.entry _ _)) => rfl
  | (_, .ok (.otherSide _)) => rfl
  | (_, .error _) => rfl

theorem map_snd_rowsOf (read : Text → Except Fault Row) (text : Text) :
    (rowsOf read text).map (·.2) = ((Text.meaningful text).map (·.text)).map read := by
  unfold rowsOf
  simp

theorem exists_of_mem_mappings {rows : List (Line × Except Fault Row)} {kind : Kind} {e : Entry}
    (h : (kind, e) ∈ mappings rows) : ∃ line, (line, .ok (.entry kind e)) ∈ rows := by
  obtain ⟨⟨line, row⟩, hrow, is⟩ := List.mem_filterMap.mp h
  match row, is with
  | .ok (.entry _ _), rfl => exact ⟨line, hrow⟩

theorem takeAll_of_ok (overwrite : Bool) {rows : List (Line × Except Fault Row)}
    (ok : ∀ row ∈ rows, row.2.isOk = true) (p : Progress) :
    (p.takeAll overwrite rows).1.table = p.table.addAll overwrite (mappings rows) ∧
      (p.takeAll overwrite rows).2 = none := by
  induction rows generalizing p with
  | nil => exact ⟨rfl, rfl⟩
  | cons first rows ih =>
    obtain ⟨here, later⟩ := List.forall_mem_cons.mp ok
    match first with
    | (_, .ok (.entry kind e)) => exact ih later (p.take overwrite (.entry kind e))
    | (_, .ok (.otherSide told)) => exact ih later (p.take overwrite (.otherSide told))

theorem ok_of_takeAll {overwrite : Bool} {rows : List (Line × Except Fault Row)} {p : Progress}
    (none : (p.takeAll overwrite rows).2 = none) : ∀ row ∈ rows, row.2.isOk = true := by
  induction rows generalizing p with
  | nil => exact fun _ hrow => absurd hrow List.not_mem_nil
  | cons first rows ih =>
    match first with
    | (_, .ok row) => exact List.forall_mem_cons.mpr ⟨rfl, ih none⟩

theorem exists_split_of_takeAll {overwrite : Bool} {rows : List (Line × Except Fault Row)} {p p' : Progress}
    {e : FormatError} (h : p.takeAll overwrite rows = (p', some e)) :
    ∃ before after, rows = before ++ (e.line, .error e.fault) :: after ∧ ∀ row ∈ before, row.2.isOk = true := by
  induction rows generalizing p with
  | nil => cases h
  | cons first rows ih =>
    match first with
    | (line, .error fault) =>
      cases h
      exact ⟨[], rows, rfl, fun _ mem => absurd mem List.not_mem_nil⟩
    | (line, .ok row) =>
      obtain ⟨before, after, rfl, read⟩ := ih h
      exact ⟨(line, .ok row) :: before, after, rfl, List.forall_mem_cons.mpr ⟨rfl, read⟩⟩

end SymbolMap.Progress
