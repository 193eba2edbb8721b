import SymbolMap.Text.Basic

/-! Whole numbers of 32 bits, as options and spreadsheets give them. -/
namespace SymbolMap

inductive NumberFault
  | noDigits
  | notDigit
  | tooLarge
deriving DecidableEq

namespace NumberFault

def message : NumberFault → String
  | noDigits => "cannot parse integer from empty string"
  | notDigit => "invalid digit found in string"
  | tooLarge => "number too large to fit in target type"

end NumberFault

namespace Number

def digit? (base : Nat) (c : Char) : Option Nat :=
  let n := if '0' ≤ c && c ≤ '9' then some (c.toNat - '0'.toNat)
    else if 'a' ≤ c && c ≤ 'f' then some (c.toNat - 'a'.toNat + 10)
    else if 'A' ≤ c && c ≤ 'F' then some (c.toNat - 'A'.toNat + 10)
    else none
  n.filter (· < base)

/-- Of a character that is no digit and a number that grows too large, the one further left is reported. -/
def readDigits (base : Nat) (n : Nat) : Text → Except NumberFault UInt32
  | [] => .ok (.ofNat n)
  | c :: t =>
    match digit? base c with
    | none => .error .notDigit
    | some d =>
      if n * base + d < UInt32.size then readDigits base (n * base + d) t else .error .tooLarge

/-- The digits of a number may follow a plus sign. -/
def read (base : Nat) : Text → Except NumberFault UInt32
  | [] => .error .noDigits
  | ['+'] => .error .notDigit
  | '+' :: t => readDigits base 0 t
  | t => readDigits base 0 t

/-- Decimal, or hexadecimal after `0x`. -/
def readEither : Text → Except NumberFault UInt32
  | '0' :: 'x' :: t => read 16 t
  | t => read 10 t

def render (n : UInt32) : Text := Nat.toDigits 10 n.toNat

end Number
end SymbolMap
