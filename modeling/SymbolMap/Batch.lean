import SymbolMap.Load

/-! Dialects that are read as a whole before anything is added. Names that need the table come after
those that do not, so that all classes are known to them. -/
namespace SymbolMap

/-- The entries that a text gives, and those that it gives for a table. -/
structure Batch where
  known : List (Kind × Entry)
  waiting : List (Kind × (Table → Entry))

/-- A table and the number of additions that changed it. -/
abbrev Tally := Table × Nat

namespace Batch

def add (overwrite : Bool) (sum : Tally) (kind : Kind) (e : Entry) : Tally :=
  match sum with
  | (t, count) =>
    let (t, changed) := t.add kind e overwrite
    (t, count + changed.toNat)

def addTo (t : Table) (overwrite : Bool) (b : Batch) : Tally :=
  let named := b.known.foldl (fun sum (kind, e) => add overwrite sum kind e) (t, 0)
  b.waiting.foldl (fun sum (kind, entryFor) => add overwrite sum kind (entryFor sum.1)) named

end Batch
end SymbolMap
