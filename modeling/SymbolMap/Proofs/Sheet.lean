import SymbolMap.Dialect.Sheet.Basic
import SymbolMap.Proofs.Outcome
import SymbolMap.Proofs.Rows

/-!
The rows of a sheet that are accepted for its side.

* `mappings_rows`, `intermediate_of_mem_accepted`: all mappings of a sheet are of its one kind and have two
  names;
* `readFields_side`: a side only turns mappings into rows of the other side;
* `accepted_eq`: the accepted rows are those of the records of the side.
-/
namespace SymbolMap.Sheet

open Progress (mapping? mappings)

/-- The accepted rows, each as an entry from a searge name to a readable one. -/
def accepted (o : Options) (text : Text) : List Entry :=
  (mappings (rows o text)).map (·.2)

theorem of_row {o : Options} {f : Found} {kind : Kind} {e : Entry}
    (h : f.row o = .ok (.entry kind e)) : kind = o.kind ∧ e.intermediate = none := by
  unfold Found.row at h
  split at h
  · cases h
  · cases h
  · cases h
  · split at h
    · cases h
    · split at h
      · cases h
        exact ⟨rfl, rfl⟩
      · cases h

theorem of_mem_mappings_rows {o : Options} {text : Text} {kind : Kind} {e : Entry}
    (h : (kind, e) ∈ mappings (rows o text)) : kind = o.kind ∧ e.intermediate = none := by
  obtain ⟨line, hrow⟩ := Progress.exists_of_mem_mappings h
  unfold rows at hrow
  split at hrow
  · cases hrow
  · obtain ⟨r, _, is⟩ := List.mem_map.mp hrow
    have read := (Prod.mk.inj is).2
    unfold readRecord at read
    split at read
    · obtain ⟨f, _, found⟩ := bind_eq_ok_iff.mp read
      exact of_row found
    · cases read

theorem mappings_rows (o : Options) (text : Text) :
    mappings (rows o text) = (accepted o text).map (o.kind, ·) := by
  unfold accepted
  rw [List.map_map]
  refine ((List.map_congr_left fun p hp => ?_).trans (List.map_id' _)).symm
  obtain ⟨kind, e⟩ := p
  obtain ⟨rfl, _⟩ := of_mem_mappings_rows hp
  rfl

theorem intermediate_of_mem_accepted {o : Options} {text : Text} {e : Entry}
    (h : e ∈ accepted o text) : e.intermediate = none := by
  obtain ⟨⟨kind, _⟩, mem, rfl⟩ := List.mem_map.mp h
  exact (of_mem_mappings_rows mem).2

/-! ## Sides -/

/-- The fields of the records of a text, those of the header first. -/
def contents (text : Text) : List (List Text) :=
  (records (blankComments text)).map (·.fields)

/-- What is found in the fields of a record under those of the header. -/
def found (header fields : List Text) : Except Fault Found :=
  let columns := header.map fun field => Column.ofLabel? (Text.trim field)
  ({} : Found).putAll (columns.zip (fields.map Text.trim)).zipIdx

/-- The side that a record is marked with. -/
def sideOf (header fields : List Text) : Option UInt32 :=
  (found header fields).toOption.bind (·.side)

def readFields (o : Options) (header fields : List Text) : Except Fault Row :=
  readRecord o (header.map fun field => Column.ofLabel? (Text.trim field)) ⟨0, fields⟩

/-- The records under the header, each as what it is read as. -/
def readAll (o : Options) : List (List Text) → List (Except Fault Row)
  | [] => []
  | header :: rest => rest.map (readFields o header)

/-- The header and those records under it that satisfy `p`. -/
def filterRecords (p : List Text → List Text → Bool) : List (List Text) → List (List Text)
  | [] => []
  | header :: rest => header :: rest.filter (p header)

theorem map_snd_rows (o : Options) (text : Text) :
    (rows o text).map (·.2) = readAll o (contents text) := by
  unfold rows contents readAll
  cases records (blankComments text) with
  | nil => rfl
  | cons header rest =>
    simp only [List.map_cons, List.map_map]
    rfl

/-- A side only decides whether a record is wanted, after all of the record has been read. -/
theorem readFields_side (kind : Kind) (side : UInt32) (header fields : List Text) :
    readFields { kind, side := some side } header fields =
      (readFields { kind } header fields).map fun
        | .entry base e =>
          if (sideOf header fields).any (Options.accepts { kind, side := some side }) then .entry base e
          else .otherSide []
        | row => row := by
  unfold readFields readRecord sideOf found
  dsimp only
  split
  · cases ({} : Found).putAll _ with
    | error fault => rfl
    | ok f =>
      match f with
      | ⟨none, _, _⟩ => rfl
      | ⟨some _, none, _⟩ => rfl
      | ⟨some _, some _, none⟩ => rfl
      | ⟨some searge, some name, some marked⟩ =>
        simp only [bind, Except.bind, Found.row]
        split <;> rfl
  · rfl

theorem isOk_readFields_side (kind : Kind) (side : Option UInt32) (header fields : List Text) :
    (readFields { kind, side } header fields).isOk = (readFields { kind } header fields).isOk := by
  cases side with
  | none => rfl
  | some side =>
    rw [readFields_side]
    cases readFields { kind } header fields <;> rfl

/-- The record is wanted on a side: on all sides, or on that with which it is marked. -/
def wanted (o : Options) (header fields : List Text) : Bool :=
  o.side.isNone || (sideOf header fields).any o.accepts

theorem mapping?_readFields_side (kind : Kind) (side : Option UInt32) (header fields : List Text) :
    mapping? (readFields { kind, side } header fields) =
      if wanted { kind, side } header fields then mapping? (readFields { kind } header fields)
      else none := by
  cases side with
  | none => rfl
  | some side =>
    rw [readFields_side]
    cases readFields { kind } header fields with
    | error fault => simp [Except.map, mapping?]
    | ok row =>
      cases row with
      | entry base e =>
        cases is : (sideOf header fields).any (Options.accepts { kind, side := some side }) <;>
          simp [Except.map, mapping?, wanted, is]
      | otherSide told => simp [Except.map, mapping?]

theorem forall_mem_readAll {o : Options} {p : Except Fault Row → Prop} {records : List (List Text)} :
    (∀ row ∈ readAll o records, p row) ↔
      ∀ header rest, records = header :: rest → ∀ fields ∈ rest, p (readFields o header fields) := by
  cases records <;> simp [readAll]

theorem mem_of_mem_readAll_filterRecords {o : Options} {p : List Text → List Text → Bool}
    {records : List (List Text)} {row : Except Fault Row}
    (h : row ∈ readAll o (filterRecords p records)) : row ∈ readAll o records := by
  cases records with
  | nil => exact h
  | cons header rest =>
    obtain ⟨fields, kept, is⟩ := List.mem_map.mp h
    exact List.mem_map.mpr ⟨fields, (List.mem_filter.mp kept).1, is⟩

/-- Whether a text can be read does not depend on the side. -/
theorem isOk_rows_iff (kind : Kind) (side : Option UInt32) (text : Text) :
    (∀ row ∈ rows { kind, side } text, row.2.isOk = true) ↔
      ∀ row ∈ readAll { kind } (contents text), row.isOk = true := by
  have rows := List.forall_mem_map (f := Prod.snd) (l := rows { kind, side } text)
    (P := fun row => row.isOk = true)
  rw [← rows, map_snd_rows, forall_mem_readAll, forall_mem_readAll]
  simp only [isOk_readFields_side]

/-- The accepted rows are those of the records of the side and of both sides. -/
theorem accepted_eq (kind : Kind) (side : Option UInt32) (text : Text) :
    accepted { kind, side } text =
      ((readAll { kind } (filterRecords (wanted { kind, side }) (contents text))).filterMap mapping?).map
        (·.2) := by
  unfold accepted
  rw [Progress.mappings_eq_filterMap, map_snd_rows]
  apply congrArg (List.map _)
  cases contents text with
  | nil => rfl
  | cons header rest =>
    simp only [readAll, filterRecords, List.filterMap_map, List.filterMap_filter]
    exact congrArg (fun f => List.filterMap f _) (funext (mapping?_readFields_side kind side header))

end SymbolMap.Sheet
