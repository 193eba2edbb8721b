import SymbolMap.MemberName

/-! Class names of the dialect with a line for each member. They have slashes, and a class without a
package stands in the placeholder package `none`. -/
namespace SymbolMap.MemberLines

open MemberName (dotted slashed)

/-- The placeholder, with the slash after it. -/
def placeholder : Text := "none/".toList

def stripPlaceholder (name : Text) : Text :=
  dotted (if Text.startsWith name placeholder then name.drop placeholder.length else name)

/-- A class in the default package gets the placeholder. -/
def className (obf : Text) : Text :=
  if obf.contains '.' then slashed obf else placeholder ++ obf

/-- A reference to a class in the default package gets it too. -/
def addPlaceholder (name : Text) : Option Text :=
  if name.contains '/' then none else some (placeholder ++ name)

end SymbolMap.MemberLines
