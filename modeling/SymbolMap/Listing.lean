import SymbolMap.Entry
import SymbolMap.Event

/-! What a store writes and tells, in order. -/
namespace SymbolMap

inductive Piece
  | line (text : Text)
  | told (event : Event)
deriving DecidableEq

/-- Lines to be written, among which the store tells of its work. -/
abbrev Listing := List Piece

namespace Listing

def written : Piece → Text
  | .line text => text ++ ['\n']
  | .told _ => []

/-- The text that is written in all. -/
def text (pieces : Listing) : Text :=
  pieces.flatMap written

def events (pieces : Listing) : List Event :=
  pieces.filterMap fun
    | .told event => some event
    | .line _ => none

/-- What is told of the entries for which there is no line. -/
def leftOut {α : Type} (line? : Kind → Entry → Option α) (entries : List (Kind × Entry)) :
    List Event :=
  (entries.filter fun (kind, e) => (line? kind e).isNone).map fun (kind, e) =>
    .unrepresentable kind e.deobf

/-- What is told before the text outgrows so many bytes, and whether it fits. -/
def eventsWithin (limit : Nat) : Listing → List Event × Bool
  | [] => ([], true)
  | .told event :: pieces =>
    let (events, fits) := eventsWithin limit pieces
    (event :: events, fits)
  | .line text :: pieces =>
    let size := Text.byteSize text + 1
    if size ≤ limit then eventsWithin (limit - size) pieces else ([], false)

end Listing
end SymbolMap
