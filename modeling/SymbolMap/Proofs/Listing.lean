import SymbolMap.Listing
import SymbolMap.Proofs.Text.Bytes

/-!
The lines of a store, and those that a load finds in its text.

* `lines_text`: a load finds the lines that were written;
* `eventsWithin_of_fits`, `fits_of_eventsWithin`: a store comes to its end where there is room for its text, and
  only there.
-/
namespace SymbolMap

namespace Listing

def lineTexts (pieces : Listing) : List Text :=
  pieces.filterMap fun
    | .line text => some text
    | .told _ => none

theorem lineTexts_append (a b : Listing) : lineTexts (a ++ b) = lineTexts a ++ lineTexts b :=
  List.filterMap_append

theorem lineTexts_map_told (events : List Event) : lineTexts (events.map .told) = [] := by
  unfold lineTexts
  rw [List.filterMap_map]
  exact List.filterMap_eq_nil_iff.mpr fun _ _ => rfl

theorem lineTexts_map_line (ls : List Text) : lineTexts (ls.map .line) = ls := by
  unfold lineTexts
  rw [List.filterMap_map]
  exact List.filterMap_some

theorem lineTexts_flatMap {α : Type} (xs : List α) (pieces : α → Listing) :
    lineTexts (xs.flatMap pieces) = xs.flatMap fun x => lineTexts (pieces x) := by
  induction xs with
  | nil => rfl
  | cons x xs ih => rw [List.flatMap_cons, lineTexts_append, ih, List.flatMap_cons]

theorem text_eq_flatMap (pieces : Listing) :
    text pieces = (lineTexts pieces).flatMap fun l => l ++ ['\n'] := by
  induction pieces with
  | nil => rfl
  | cons piece pieces ih =>
    have rest : text (piece :: pieces) = written piece ++ text pieces := List.flatMap_cons
    rw [rest, ih]
    cases piece <;> rfl

/-- A load finds the lines that were written, if none of them holds the end of a line. -/
theorem lines_text {pieces : Listing}
    (h : ∀ l ∈ lineTexts pieces, '\n' ∉ l ∧ '\r' ∉ l.getLast?) :
    Text.lines (text pieces) = lineTexts pieces := by
  rw [text_eq_flatMap, Text.lines_flatMap h]

/-! ## Room -/

theorem byteSize_text_line (line : Text) (pieces : Listing) :
    Text.byteSize (text (.line line :: pieces)) = Text.byteSize line + 1 + Text.byteSize (text pieces) := by
  have first : text (.line line :: pieces) = line ++ ['\n'] ++ text pieces := List.flatMap_cons
  have ended : Text.byteSize ['\n'] = 1 := by decide
  rw [first, Text.byteSize_append, Text.byteSize_append, ended]

/-- Where there is room for the whole text, everything is told. -/
theorem eventsWithin_of_fits {pieces : Listing} {limit : Nat} (fits : Text.byteSize (text pieces) ≤ limit) :
    eventsWithin limit pieces = (events pieces, true) := by
  induction pieces generalizing limit with
  | nil => rfl
  | cons piece pieces ih =>
    cases piece with
    | told event =>
      rw [eventsWithin, ih fits]
      rfl
    | line line =>
      rw [byteSize_text_line] at fits
      have here : Text.byteSize line + 1 ≤ limit := by omega
      have later : Text.byteSize (text pieces) ≤ limit - (Text.byteSize line + 1) := by omega
      rw [eventsWithin, if_pos here, ih later]
      rfl

/-- Nothing else lets a store end well. -/
theorem fits_of_eventsWithin {pieces : Listing} {limit : Nat} (fits : (eventsWithin limit pieces).2 = true) :
    Text.byteSize (text pieces) ≤ limit := by
  induction pieces generalizing limit with
  | nil => exact Nat.zero_le limit
  | cons piece pieces ih =>
    cases piece with
    | told event => exact ih fits
    | line line =>
      rw [eventsWithin] at fits
      rw [byteSize_text_line]
      split at fits
      · next here =>
        have later := ih fits
        omega
      · cases fits

end Listing
end SymbolMap
