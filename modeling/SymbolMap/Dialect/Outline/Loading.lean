import SymbolMap.Batch
import SymbolMap.Descriptor.Renaming
import SymbolMap.Dialect.Outline.Reading

/-! Outlines loaded into a table. -/
namespace SymbolMap.Outline

/-- What an outline asks for beside its names, and the imports that were left out. -/
structure Report where
  transformations : List Transformation
  failures : List ImportFailure

namespace Declaration

def transformation? : Declaration → Option Transformation
  | access t => some t
  | _ => none

/-- The entry of a declaration whose names are known. -/
def known? : Declaration → Option (Kind × Entry)
  | names kind n => some (kind, n.toEntry)
  | _ => none

/-- A method's descriptor is declared with deobfuscated classes; its obfuscated form is what the table
makes of it. -/
def methodEntry (n : Triple) (d : Descriptor) (t : Table) : Entry :=
  (n.withDescriptors (d.obfuscate t).render d.render).toEntry

def waiting? : Declaration → Option (Kind × (Table → Entry))
  | method kind n d => some (kind, methodEntry n d)
  | _ => none

def batch (ds : List Declaration) : Batch where
  known := ds.filterMap known?
  waiting := ds.filterMap waiting?

end Declaration

def loadFrom (i : Importer) (base : Option Path) (seen : List Text) (text : Text) (t : Table)
    (overwrite : Bool) : Load Report :=
  match readText i base seen text with
  | (s, .error e) => ⟨t, s.events, .error (.format e)⟩
  | (s, .ok ds) =>
    let batch := Declaration.batch ds
    let (loaded, added) := batch.addTo t overwrite
    ⟨loaded,
      s.events ++ [.loadedOutline added batch.waiting.length (max s.seen.length 1)],
      .ok ⟨ds.filterMap Declaration.transformation?, s.failures⟩⟩

/-- Loads a text that has no name, so that an import may lead back to it once. -/
def loadText (i : Importer) (text : Text) (t : Table) (overwrite : Bool) : Load Report :=
  loadFrom i none [] text t overwrite

/-- Loads a file by its path on a disk; its imports are looked for next to it. -/
def loadPath (i : Importer) (d : Disk) (path : Path) (t : Table) (overwrite : Bool) : Load Report :=
  match d.read path with
  | .error e => .refused t (.readPath path) e
  | .ok text => loadFrom i path.parent? path.fileName?.toList text t overwrite

/-- Loads a file by its name with the importer. -/
def loadNamed (i : Importer) (name : Text) (t : Table) (overwrite : Bool) : Load Report :=
  match i.fetch none name with
  | .error e => .refused t (.openName name) e
  | .ok source => loadFrom i source.base [name] source.text t overwrite

def Report.told (r : Report) : Event := .ignoredAccess r.transformations.length

end SymbolMap.Outline
