import SymbolMap.Text.Blank

/-! The lines of a text, with their numbers, and the lines that say nothing. -/
namespace SymbolMap

structure Line where
  number : Nat
  text : Text
deriving DecidableEq

namespace Text

/-- A carriage return right before a line feed belongs to the line's end. -/
def chomp (t : Text) : Text :=
  match t.reverse with
  | '\r' :: rest => rest.reverse
  | _ => t

/-- All pieces but the last were ended by a line feed; an empty last piece is no line. -/
def lines (t : Text) : List Text :=
  let pieces := t.splitOn '\n'
  pieces.dropLast.map chomp ++ pieces.getLast?.toList.filter (!·.isEmpty)

/-- The lines of a text are counted from one. -/
def numbered (t : Text) : List Line :=
  (lines t).mapIdx fun i text => ⟨i + 1, text⟩

/-- Blank lines and lines that start with `#` or `//` are comments. -/
def isComment (line : Text) : Bool :=
  match trim line with
  | [] => true
  | '#' :: _ => true
  | '/' :: '/' :: _ => true
  | _ => false

/-- The lines that are no comments, each with its number among all lines. -/
def meaningful (t : Text) : List Line :=
  (numbered t).filter fun line => !isComment line.text

end Text
end SymbolMap
