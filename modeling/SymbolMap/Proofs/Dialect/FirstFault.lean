import SymbolMap.Dialect.MemberLines.Reading
import SymbolMap.Proofs.Outline.Independence
import SymbolMap.Proofs.Scan

/-!
Texts that are read as a whole, of which one line cannot be read.

* `FirstFault`: the load leaves the table alone, and its fault is that of the first line that cannot be read;
* `stopsAtFirst_of_scan`: so it is for loads that fail as a scan of their lines does;
* `Outline.error?_ownLines`, `MemberLines.error?_readText`: the two dialects of this sort do;
* `loads_stop_at_first_fault`: hence it is so for all of their loads.
-/
namespace SymbolMap

section
variable {α : Type}

/-- Of the loads of texts into a table, `l` is one of `text` that fails with `e`. It leaves the table alone, and
what is wrong is a line of the text. The text up to that line can be loaded, and any text that is the same up to
that line, and in it, fails in the same way. -/
structure FirstFault (t : Table) (loads : Text → Load α → Prop) (text : Text) (l : Load α)
    (e : FormatError) : Prop where
  kept : l.table = t
  counted : 0 < e.line.number
  line : (Text.lines text)[e.line.number - 1]? = some e.line.text
  shorter : ∃ u, u <+: text ∧ Text.lines u = (Text.lines text).take (e.line.number - 1)
  before : ∀ u l', loads u l' → Text.lines u = (Text.lines text).take (e.line.number - 1) →
    ∃ a, l'.result = .ok a
  alike : ∀ u l', loads u l' →
    (Text.lines u).take e.line.number = (Text.lines text).take e.line.number →
    l'.result = .error (.format e)

/-- Whatever fails at a line fails at the first one that cannot be read. -/
def StopsAtFirst (t : Table) (loads : Text → Load α → Prop) : Prop :=
  ∀ text l e, loads text l → l.result = .error (.format e) → FirstFault t loads text l e

/-- A load that fails where a scan of its lines does, before it has touched the table. -/
theorem stopsAtFirst_of_scan {σ : Type} {step : σ → Text → Except Fault σ} {s : σ} {t : Table}
    {loads : Text → Load α → Prop}
    (fails : ∀ text l, loads text l →
      error? l.result = (scan step s (Text.numbered text)).2.map .format)
    (kept : ∀ text l, loads text l → ∀ e, l.result = .error e → l.table = t) : StopsAtFirst t loads := by
  intro text l e load failed
  have stop := fails text l load
  rw [error?_eq_some_iff.mpr failed] at stop
  rcases taken : scan step s (Text.numbered text) with ⟨s', found⟩
  rw [taken] at stop
  obtain ⟨e', rfl, same⟩ := Option.map_eq_some_iff.mp stop.symm
  obtain rfl := LoadError.format.inj same
  obtain ⟨counted, line⟩ := line_of_scan taken
  refine ⟨kept text l load _ failed, counted, line, Text.exists_prefix_lines text _, ?_, ?_⟩
  · intro u l' load' same
    have none := fails u l' load'
    rw [scan_of_lines_before taken same] at none
    exact error?_eq_none_iff.mp none
  · intro u l' load' same
    have some := fails u l' load'
    rw [scan_of_same_lines taken same] at some
    exact error?_eq_some_iff.mp some

theorem error?_andTell (l : Load α) (tell : α → Event) :
    error? (l.andTell tell).result = error? l.result := by
  unfold Load.andTell
  cases l.result <;> rfl

end

/-! ## Outlines -/

namespace Outline

/-- The context that a line leaves. -/
def contextAfter (c : Context) (line : Text) : Except Fault Context := (ownLine c line).map (·.1)

theorem error?_ownLines (c : Context) (lines : List Line) :
    error? (ownLines c lines) = (scan contextAfter c lines).2 := by
  induction lines generalizing c with
  | nil => rfl
  | cons line lines ih =>
    cases first : ownLine c line.text with
    | error fault =>
      have refused : contextAfter c line.text = .error fault := map_eq_error_iff.mpr first
      rw [ownLines_of_error first, scan_cons_of_error refused]
      rfl
    | ok next =>
      have taken : contextAfter c line.text = .ok next.1 := map_eq_ok_iff.mpr ⟨next, first, rfl⟩
      rw [ownLines_of_ok first, scan_cons_of_ok taken, error?_map, ih]

/-- Whatever is imported, a load fails where the lines of the text fail by themselves. -/
theorem error?_loadBy (importName : Text → Import) (s : Imports) (text : Text) (t : Table)
    (overwrite : Bool) : error? (loadBy importName s text t overwrite).result =
      (scan contextAfter {} (Text.numbered text)).2.map .format := by
  have own := congrArg error? (readLines_eq_woven importName {} #[] s (Text.numbered text))
  rw [error?_map, error?_ownLines] at own
  rw [← own]
  unfold loadBy
  rcases readLines importName {} #[] s (Text.numbered text) with ⟨s', e | ds⟩
  · rfl
  · rfl

theorem table_loadBy_of_error {importName : Text → Import} {s : Imports} {text : Text} {t : Table}
    {overwrite : Bool} {e : LoadError} (h : (loadBy importName s text t overwrite).result = .error e) :
    (loadBy importName s text t overwrite).table = t := by
  unfold loadBy at h ⊢
  rcases read : readLines importName {} #[] s (Text.numbered text) with ⟨s', e | ds⟩
  · rfl
  · rw [read] at h
    cases h

theorem loadNamed_of_fetch {i : Importer} {name : Text} {source : Source}
    (opened : i.fetch none name = .ok source) (t : Table) (overwrite : Bool) :
    loadNamed i name t overwrite = loadFrom i source.base [name] source.text t overwrite := by
  unfold loadNamed
  rw [opened]

/-- The loads of a text: with imports that come from anywhere, without a name, or by a name that it is opened
by. -/
inductive LoadOf (t : Table) (overwrite : Bool) : Text → Load Report → Prop
  | importing (importName : Text → Import) (s : Imports) (text : Text) :
      LoadOf t overwrite text (loadBy importName s text t overwrite)
  | unnamed (i : Importer) (text : Text) : LoadOf t overwrite text (loadText i text t overwrite)
  | named (i : Importer) (name : Text) {source : Source} : i.fetch none name = .ok source →
      LoadOf t overwrite source.text (loadNamed i name t overwrite)

theorem LoadOf.exists_eq {t : Table} {overwrite : Bool} {text : Text} {l : Load Report}
    (h : LoadOf t overwrite text l) : ∃ importName s, l = loadBy importName s text t overwrite := by
  cases h with
  | importing importName s => exact ⟨importName, s, rfl⟩
  | unnamed i => exact ⟨_, _, loadFrom_eq_loadBy i none [] text t overwrite⟩
  | named i name opened => exact ⟨_, _, loadNamed_of_fetch opened t overwrite⟩

end Outline

/-! ## Member lines -/

namespace MemberLines

/-- The class that the next line is in. -/
def ownerAfter (owner : Option Owner) (line : Text) : Except Fault (Option Owner) :=
  (readLine owner line).map (·.1)

theorem error?_readLines (owner : Option Owner) (declared : Array Declaration) (lines : List Line) :
    error? (readLines owner declared lines) = (scan ownerAfter owner lines).2 := by
  induction lines generalizing owner declared with
  | nil => rfl
  | cons line lines ih =>
    cases first : readLine owner line.text with
    | error fault =>
      have refused : ownerAfter owner line.text = .error fault := map_eq_error_iff.mpr first
      rw [scan_cons_of_error refused]
      simp only [readLines, first, error?]
    | ok next =>
      have taken : ownerAfter owner line.text = .ok next.1 := map_eq_ok_iff.mpr ⟨next, first, rfl⟩
      rw [scan_cons_of_ok taken, ← ih next.1 (declared ++ next.2)]
      simp only [readLines, first]

theorem error?_readText (text : Text) :
    error? (readText text) = (scan (passingComments ownerAfter) none (Text.numbered text)).2 := by
  rw [← scan_meaningful]
  exact error?_readLines none #[] (Text.meaningful text)

theorem error?_load (text : Text) (t : Table) (overwrite : Bool) :
    error? (load text t overwrite).result =
      (scan (passingComments ownerAfter) none (Text.numbered text)).2.map .format := by
  rw [← error?_readText]
  unfold load
  cases readText text <;> rfl

theorem table_load_of_error {text : Text} {t : Table} {overwrite : Bool} {e : LoadError}
    (h : (load text t overwrite).result = .error e) : (load text t overwrite).table = t := by
  unfold load at h ⊢
  cases read : readText text with
  | error e => rfl
  | ok ds =>
    rw [read] at h
    cases h

end MemberLines

/-- A text that is read as a whole is loaded as a whole or not at all. Where a load of an outline fails at a
line, with any importer and under any name, and also where a load of member lines does, that line is the first
that cannot be read, and what comes after it does not matter. -/
theorem loads_stop_at_first_fault (t : Table) (overwrite : Bool) :
    StopsAtFirst t (Outline.LoadOf t overwrite) ∧
    StopsAtFirst t (fun text l =>
      ∃ r, Outline.LoadOf t overwrite text r ∧ l = r.andTell Outline.Report.told) ∧
    (∀ i name e, (Outline.loadNamed i name t overwrite).result = .error (.format e) →
      ∃ source, i.fetch none name = .ok source) ∧
    StopsAtFirst t fun text l => l = MemberLines.load text t overwrite := by
  refine ⟨?_, ?_, ?_, ?_⟩
  · apply stopsAtFirst_of_scan
    · intro text l load
      obtain ⟨importName, s, rfl⟩ := load.exists_eq
      exact Outline.error?_loadBy importName s text t overwrite
    · intro text l load e failed
      obtain ⟨importName, s, rfl⟩ := load.exists_eq
      exact Outline.table_loadBy_of_error failed
  · apply stopsAtFirst_of_scan
    · rintro text l ⟨r, load, rfl⟩
      obtain ⟨importName, s, rfl⟩ := load.exists_eq
      rw [error?_andTell]
      exact Outline.error?_loadBy importName s text t overwrite
    · rintro text l ⟨r, load, rfl⟩ e failed
      obtain ⟨importName, s, rfl⟩ := load.exists_eq
      have stop := error?_eq_some_iff.mpr failed
      rw [error?_andTell] at stop
      rw [Load.table_andTell]
      exact Outline.table_loadBy_of_error (error?_eq_some_iff.mp stop)
  · intro i name e failed
    cases opened : i.fetch none name with
    | error fault => simp [Outline.loadNamed, opened, Load.refused] at failed
    | ok source => exact ⟨source, rfl⟩
  · apply stopsAtFirst_of_scan
    · rintro text l rfl
      exact MemberLines.error?_load text t overwrite
    · rintro text l rfl e failed
      exact MemberLines.table_load_of_error failed

/-- A class with a field that has no name, and another class. -/
def namelessOutline : Text := "a:p\n\tb:C\n\t\tc:\n\td:D\n".toList

/-- A comment, a class with a field that has no new name, and another class. -/
def namelessMembers : Text := "# note\nCLASS a p/A\nFIELD x\nCLASS b p/B\n".toList

theorem loads_stop_at_first_fault_third :
    let t := ((Table.empty true).addTwoWay .class_ "a.b".toList "p.B".toList false).1
    let i : Importer := .memory [(⟨['m']⟩, namelessOutline)]
    let named := Outline.loadNamed i ['m'] t false
    let unnamed := (Outline.loadText i namelessOutline t false).andTell Outline.Report.told
    let members := MemberLines.load namelessMembers t false
    FirstFault t (Outline.LoadOf t false) namelessOutline named ⟨⟨3, "\t\tc:".toList⟩, .emptyName⟩ ∧
    FirstFault t (fun text l => ∃ r, Outline.LoadOf t false text r ∧ l = r.andTell Outline.Report.told)
      namelessOutline unnamed ⟨⟨3, "\t\tc:".toList⟩, .emptyName⟩ ∧
    (∃ source, i.fetch none ['m'] = .ok source) ∧
    FirstFault t (fun text l => l = MemberLines.load text t false) namelessMembers members
      ⟨⟨3, "FIELD x".toList⟩, .sectionCount .field 2⟩ := by
  intro t i named unnamed members
  have named_fails : named.result = .error (.format ⟨⟨3, "\t\tc:".toList⟩, .emptyName⟩) :=
    error?_eq_some_iff.mp (by decide +kernel)
  have unnamed_fails : unnamed.result = .error (.format ⟨⟨3, "\t\tc:".toList⟩, .emptyName⟩) :=
    error?_eq_some_iff.mp (by decide +kernel)
  have members_fail :
      members.result = .error (.format ⟨⟨3, "FIELD x".toList⟩, .sectionCount .field 2⟩) :=
    error?_eq_some_iff.mp (by decide +kernel)
  obtain ⟨outlines, told, opened, lines⟩ := loads_stop_at_first_fault t false
  refine ⟨?_, ?_, opened i ['m'] _ named_fails, lines _ _ _ rfl members_fail⟩
  · have fetched : i.fetch none ['m'] = .ok ⟨namelessOutline, (Path.resolve none ['m']).parent?⟩ :=
      toOption_eq_some_iff.mp (by decide +kernel)
    exact outlines namelessOutline named _ (.named i ['m'] fetched) named_fails
  · exact told namelessOutline unnamed _ ⟨_, .unnamed i namelessOutline, rfl⟩ unnamed_fails

end SymbolMap
