import SymbolMap.Dialect.Loading
import SymbolMap.Proofs.Batch.Arrivals
import SymbolMap.Proofs.Outline.Independence
import SymbolMap.Proofs.Table.Extending

/-!
Loads that may not overwrite.

* `Progress.extends_takeAll`, `Table.Reachable.extends_addTo`: what is added of rows, up to one that cannot be
  read, and of a batch comes after what is there;
* `Table.LoadedInto`: the tables that loads lead to, in any dialect, and whether they fail or not;
* `Table.Reachable.extends_of_loadedInto`: these have what was there before, where it is found as before.
-/
namespace SymbolMap

/-- It does not matter where the rows end, or whether one of them cannot be read. -/
theorem Progress.extends_takeAll {p : Progress} (h : p.table.Reachable)
    (rows : List (Line × Except Fault Row)) : p.table.Extends (p.takeAll false rows).1.table := by
  induction rows generalizing p with
  | nil => exact .refl h
  | cons first rows ih =>
    match first with
    | (_, .ok (.entry kind e)) =>
      have here := h.extends_add kind e
      exact here.trans (ih (p := p.take false (.entry kind e)) here.reachable)
    | (_, .ok (.otherSide told)) => exact ih (p := p.take false (.otherSide told)) h
    | (_, .error _) => exact .refl h

namespace Table

namespace Reachable

variable {t : Table} (h : t.Reachable)
include h

theorem extends_run (steps : List Batch.Step) : t.Extends (Batch.run false t steps) := by
  induction steps generalizing t with
  | nil => exact .refl h
  | cons step steps ih =>
    have first := h.extends_add step.1 (step.2 t)
    exact first.trans (ih first.reachable)

theorem extends_addTo (b : Batch) : t.Extends (b.addTo t false).1 := by
  rw [b.fst_addTo_eq]
  exact h.extends_run b.steps

theorem extends_loadRows (d : Dialect) (rows : List (Line × Except Fault Row)) :
    t.Extends (d.loadRows rows t false).table := by
  have taken := Progress.extends_takeAll (p := { table := t }) h rows
  unfold Dialect.loadRows
  rcases is : Progress.takeAll false { table := t } rows with ⟨p, _ | e⟩
  · rw [is] at taken
    exact taken
  · rw [is] at taken
    exact taken

/-- An outline is added as a whole, with whatever it imports, or not at all. -/
theorem extends_loadBy (importName : Text → Outline.Import) (s : Outline.Imports) (text : Text) :
    t.Extends (Outline.loadBy importName s text t false).table := by
  unfold Outline.loadBy
  split
  · exact .refl h
  · exact h.extends_addTo _

theorem extends_loadFrom (i : Importer) (base : Option Path) (seen : List Text) (text : Text) :
    t.Extends (Outline.loadFrom i base seen text t false).table := by
  rw [Outline.loadFrom_eq_loadBy]
  exact h.extends_loadBy _ _ text

theorem extends_memberLines (text : Text) : t.Extends (MemberLines.load text t false).table := by
  unfold MemberLines.load
  split
  · exact .refl h
  · exact h.extends_addTo _

theorem extends_outlinePath (i : Importer) (disk : Disk) (path : Path) :
    t.Extends (Outline.loadPath i disk path t false).table := by
  unfold Outline.loadPath
  split
  · exact .refl h
  · exact h.extends_loadFrom i _ _ _

theorem extends_load (disk : Disk) (d : Dialect) (text : Text) :
    t.Extends (d.load disk text t false).table := by
  unfold Dialect.load
  split
  · exact h.extends_loadRows d _
  · split
    · rw [Load.table_andTell]
      exact h.extends_loadFrom _ none [] text
    · exact h.extends_memberLines text

end Reachable

/-- The tables that the loads of texts, streams and files lead to. Outlines may have their imports from
anywhere. -/
inductive LoadedInto (t : Table) (overwrite : Bool) : Table → Prop
  | text (disk : Disk) (d : Dialect) (text : Text) : LoadedInto t overwrite (d.load disk text t overwrite).table
  | content (disk : Disk) (d : Dialect) (content : Content) :
      LoadedInto t overwrite (d.loadContent disk content t overwrite).table
  | path (disk : Disk) (d : Dialect) (path : Path) :
      LoadedInto t overwrite (d.loadPath disk path t overwrite).table
  | outline (importName : Text → Outline.Import) (s : Outline.Imports) (text : Text) :
      LoadedInto t overwrite (Outline.loadBy importName s text t overwrite).table
  | outlinePath (i : Importer) (disk : Disk) (path : Path) :
      LoadedInto t overwrite (Outline.loadPath i disk path t overwrite).table
  | outlineNamed (i : Importer) (name : Text) :
      LoadedInto t overwrite (Outline.loadNamed i name t overwrite).table

/-- A load that may not overwrite leaves what is there as it is, whatever its text says and however it ends: the
entries of a kind come first among those after the load, and each name that was found is found as before. -/
theorem Reachable.extends_of_loadedInto {t u : Table} (h : t.Reachable) (loaded : t.LoadedInto false u) :
    (∀ kind, t.entries kind <+: u.entries kind) ∧ (∀ kind, t.Keeps u kind) ∧ u.Reachable := by
  have grown : t.Extends u := by
    cases loaded with
    | text disk d text => exact h.extends_load disk d text
    | content disk d content =>
      cases content with
      | text text => exact h.extends_load disk d text
      | binary => exact .refl h
    | path disk d path =>
      unfold Dialect.loadPath
      split
      · rw [Load.table_andTell]
        exact h.extends_outlinePath _ disk path
      · split
        · exact .refl h
        · exact h.extends_load disk d _
    | outline importName s text => exact h.extends_loadBy importName s text
    | outlinePath i disk path => exact h.extends_outlinePath i disk path
    | outlineNamed i name =>
      unfold Outline.loadNamed
      split
      · exact .refl h
      · exact h.extends_loadFrom i _ _ _
  exact ⟨grown.entries, grown.keeps h, grown.reachable⟩

/-- Three fields that each have one of the names of `a`, one that has none of them, and a line that is no
mapping. -/
def contestedFields : Text := "FIELD:a:j:y\nFIELD:b:i:y\nFIELD:b:j:x\nFIELD:b:j:y\nFIELD\nFIELD:c:k:z\n".toList

theorem extends_of_loadedInto_contested :
    let t := ((empty true).addThreeWay .field ['a'] ['i'] ['x'] false).1
    let l := Dialect.load .empty (.threeWay false) contestedFields t false
    t.Reachable ∧ t.LoadedInto false l.table ∧
    l.result = .error (.format ⟨⟨5, "FIELD".toList⟩, .partCount .field 1⟩) ∧
    l.table.entries .field = [.threeWay ['a'] ['i'] ['x'], .threeWay ['b'] ['j'] ['y']] ∧
    t.entries .field <+: l.table.entries .field ∧ t.Keeps l.table .field ∧
    l.table.intermediateOf .field ['a'] = .ok (some ['i']) := by
  intro t l
  have reachable : t.Reachable := (Reachable.empty true).addThreeWay .field ['a'] ['i'] ['x'] false
  have loaded : t.LoadedInto false l.table := .text .empty (.threeWay false) contestedFields
  obtain ⟨first, kept, _⟩ := reachable.extends_of_loadedInto loaded
  have named : t.intermediateOf .field ['a'] = .ok (some ['i']) :=
    toOption_eq_some_iff.mp (by decide +kernel)
  exact ⟨reachable, loaded, error?_eq_some_iff.mp (by decide +kernel), by decide +kernel, first .field,
    kept .field, (kept .field).intermediateOf ['a'] ['i'] named⟩

end Table
end SymbolMap
