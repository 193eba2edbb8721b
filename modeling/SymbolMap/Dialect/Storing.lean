import SymbolMap.Dialect.Loading

/-! Storing where there is no room for all that is to be written. -/
namespace SymbolMap.Dialect

/-- There was no room left for what a dialect writes. -/
structure StoreError where
  dialect : Dialect
deriving DecidableEq

def StoreError.message (e : StoreError) : String :=
  match e.dialect with
  | sheet _ => "Unable to write mappings: sink full"
  | _ => "I/O error: sink full"

/-- Stores a table where there is room for so many bytes. What is told after they are used up is lost. -/
def storeWithin (d : Dialect) (limit : Nat) (t : Table) : List Event × Except StoreError Unit :=
  match Listing.eventsWithin limit (d.list t) with
  | (events, true) => (events, .ok ())
  | (events, false) => (events, .error ⟨d⟩)

/-- The text that a table is stored as. -/
def store (d : Dialect) (t : Table) : Text := Listing.text (d.list t)

end SymbolMap.Dialect
