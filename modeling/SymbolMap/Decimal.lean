import SymbolMap.Binary

/-! The shortest decimal that stands for a binary number of 64 bits, and how it is written. -/
namespace SymbolMap

/-- Digits without their point, and how many of them stand before it. -/
structure Decimal where
  value : Nat
  point : Int

namespace Decimal

def zero : Decimal := ⟨0, 1⟩

/-- All digits of a number: a half is five tenths. -/
def exact (b : Binary) : Decimal :=
  let places := (-b.exponent).toNat
  let value := b.mantissa * Nat.pow 2 b.exponent.toNat * Nat.pow 5 places
  ⟨value, (Nat.toDigits 10 value).length - places⟩

/-- The ratio of a decimal whose digits are so many. -/
def ratio (d : Decimal) (count : Nat) : Nat × Nat := Binary.scale 10 d.value 1 (d.point - count)

/-- The two neighbours of a number with so many digits, the nearer first; halfway between them it is
the even one. Those that stand for another number are left out. -/
def candidates (b : Binary) (count : Nat) : List Decimal :=
  let all := exact b
  let (n, d) := Binary.scale 10 all.value 1 (count - (Nat.toDigits 10 all.value).length)
  let near := Binary.roundRatio n d
  let far := if near = n / d then near + 1 else n / d
  let both := [near, far].filter fun value =>
    let (num, den) := ratio ⟨value, all.point⟩ count
    Binary.nearest num den = b
  both.map fun value => ⟨value, if value = Nat.pow 10 count then all.point + 1 else all.point⟩

/-- The neighbour with the fewest digits. Seventeen digits always do. -/
def shortest (b : Binary) : Decimal :=
  if b.mantissa = 0 then zero
  else ((List.range 17).findSome? fun n => (candidates b (n + 1)).head?).getD (exact b)

def digits (d : Decimal) : List Char :=
  (Nat.toDigits 10 d.value).reverse.dropWhile (· == '0') |>.reverse

/-- The point between the digits, and zeros where it would stand at an end. -/
def positional (d : Decimal) : List Char :=
  let before := if d.point ≤ 0 then ['0']
    else d.digits.take d.point.toNat ++ List.replicate (d.point.toNat - d.digits.length) '0'
  let after := List.replicate (-d.point).toNat '0' ++ d.digits.drop d.point.toNat
  before ++ '.' :: if after.isEmpty then ['0'] else after

/-- The power of ten of the first digit. -/
def exponent (d : Decimal) : Int := d.point - 1

/-- The point after the first digit if there are more, and the exponent with its sign. -/
def scientific (d : Decimal) : List Char :=
  let fraction := d.digits.drop 1
  let sign := if d.exponent < 0 then '-' else '+'
  d.digits.take 1 ++ (if fraction.isEmpty then [] else '.' :: fraction) ++
    'e' :: sign :: Nat.toDigits 10 d.exponent.natAbs

/-- Exponents from -5 to 15 are not written. -/
def render (d : Decimal) : String :=
  String.ofList (if -5 ≤ d.exponent ∧ d.exponent ≤ 15 then d.positional else d.scientific)

end Decimal

/-- The text of a number, in the fewest digits that stand for it. -/
def Binary.render (b : Binary) : String := (Decimal.shortest b).render

end SymbolMap
