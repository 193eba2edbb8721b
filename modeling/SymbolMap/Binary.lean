/-! Binary numbers of 64 bits. A ratio stands for the number next to it; products and quotients are
rounded each time. -/
namespace SymbolMap

/-- The number `mantissa * 2 ^ exponent`. Rounded numbers have a mantissa of 53 bits or the least
exponent, so that equal numbers have equal parts. -/
structure Binary where
  mantissa : Nat
  exponent : Int
deriving DecidableEq

namespace Binary

def leastExponent : Int := -1074

/-- The exponent of the greatest numbers. -/
def greatestExponent : Int := 971

def isFinite (b : Binary) : Bool := b.exponent ≤ greatestExponent

/-- The ratio `num / den` times a power. -/
def scale (base num den : Nat) : Int → Nat × Nat
  | .ofNat n => (num * base.pow n, den)
  | .negSucc n => (num, den * base.pow (n + 1))

/-- The whole number next to a ratio; a half goes to the even neighbour. -/
def roundRatio (num den : Nat) : Nat :=
  let q := num / den
  let twice := 2 * (num % den)
  if twice < den ∨ (twice = den ∧ q % 2 = 0) then q else q + 1

/-- The binary number next to a ratio, with 53 bits unless it is too small to have so many. -/
def nearest (num den : Nat) : Binary :=
  if num = 0 then ⟨0, leastExponent⟩
  else
    let low := max ((num.log2 : Int) - den.log2 - 53) leastExponent
    let (n, d) := scale 2 num den (-low)
    let exponent := if n / d < Nat.pow 2 53 then low else low + 1
    let (n, d) := scale 2 num den (-exponent)
    let mantissa := roundRatio n d
    if mantissa = Nat.pow 2 53 then ⟨Nat.pow 2 52, exponent + 1⟩ else ⟨mantissa, exponent⟩

def mul (a b : Binary) : Binary :=
  let (num, den) := scale 2 (a.mantissa * b.mantissa) 1 (a.exponent + b.exponent)
  nearest num den

def div (a b : Binary) : Binary :=
  let (num, den) := scale 2 a.mantissa b.mantissa (a.exponent - b.exponent)
  nearest num den

/-- The places of the greatest power of ten. -/
def mostPlaces : Nat := 308

def powerOfTen (places : Nat) : Binary := nearest (Nat.pow 10 places) 1

/-- Divides by a power of ten. One that is too great is divided by in parts. -/
def dropPlaces (b : Binary) (places : Nat) : Binary :=
  if b.mantissa = 0 then b
  else if places ≤ mostPlaces then b.div (powerOfTen places)
  else dropPlaces (b.div (powerOfTen mostPlaces)) (places - mostPlaces)
termination_by places
decreasing_by simp only [mostPlaces] at *; omega

/-- Multiplies by a power of ten, unless the product is too great. -/
def addPlaces? (b : Binary) (places : Nat) : Option Binary :=
  if b.mantissa = 0 then some b
  else if places ≤ mostPlaces then some (b.mul (powerOfTen places)) |>.filter isFinite
  else none

/-- Digits times a power of ten. The digits, the power and the result are each rounded, so that the
result can lie beside the number next to the exact value. -/
def ofScientific? (digits : Nat) : Int → Option Binary
  | .ofNat n => (nearest digits 1).addPlaces? n
  | .negSucc n => some ((nearest digits 1).dropPlaces (n + 1))

end Binary

end SymbolMap
