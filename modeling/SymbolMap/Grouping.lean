import Std.Data.TreeMap

/-! Values under keys. The keys keep the order in which they first came up, and so do the values of each. -/
namespace SymbolMap

structure Groups (κ α : Type) [Ord κ] where
  keys : Array κ := #[]
  values : Std.TreeMap κ (Array α) := ∅

namespace Groups

variable {κ α : Type} [Ord κ]

/-- Puts a value after the others of its key. -/
def insert (g : Groups κ α) (key : κ) (value : α) : Groups κ α where
  keys := if g.values.contains key then g.keys else g.keys.push key
  values := g.values.alter key fun values => some ((values.getD #[]).push value)

def ofList (pairs : List (κ × α)) : Groups κ α :=
  pairs.foldl (fun g (key, value) => g.insert key value) {}

def contains (g : Groups κ α) (key : κ) : Bool :=
  g.values.contains key

/-- The values of a key. -/
def group (g : Groups κ α) (key : κ) : List α :=
  (g.values.getD key #[]).toList

def toList (g : Groups κ α) : List (κ × List α) :=
  g.keys.toList.map fun key => (key, g.group key)

end Groups
end SymbolMap
