import SymbolMap.Decimal
import SymbolMap.Dialect.Spec

/-! JSON: tables as objects with a list of entries for each kind, and the kinds and dialects that JSON
strings name. -/
namespace SymbolMap

inductive Json
  | null
  | bool (b : Bool)
  | integer (n : Int)
  /-- A number that is not whole or does not fit in 64 bits. -/
  | decimal (negative : Bool) (magnitude : Binary)
  | string (t : Text)
  | array (items : List Json)
  | object (fields : List (Text × Json))

namespace Json

def digitValue (c : Char) : Nat := c.toNat - '0'.toNat

def readDigits (t : Text) : Nat :=
  t.foldl (fun n c => n * 10 + digitValue c) 0

/-- Adds digits to a number while it has at most 64 bits; the digits that are left. -/
def takeDigits (n : Nat) : Text → Nat × Text
  | [] => (n, [])
  | c :: t =>
    let more := n * 10 + digitValue c
    if more < Nat.pow 2 64 then takeDigits more t else (n, c :: t)

/-- The power of ten after the mark of an exponent. -/
def readExponent : Text → Int
  | '-' :: t => -readDigits t
  | '+' :: t => readDigits t
  | t => readDigits t

/-- A number as JSON writes it, unless it is too great. Without a fraction or an exponent it is whole,
if it has at most 64 bits and is not minus zero. Any other is made of the leading digits that 64 bits
hold: a digit left out before the point counts as a place, one after the point does not. -/
def ofNumber? (t : Text) : Option Json :=
  let negative := Text.startsWith t ['-']
  let t := t.dropWhile (· == '-')
  let isMark c := c == 'e' || c == 'E'
  let mantissa := t.takeWhile (!isMark ·)
  let exponent := readExponent (t.drop (mantissa.length + 1))
  let (whole, fraction) := (Text.cut '.' mantissa).getD (mantissa, [])
  let (n, left) := takeDigits 0 whole
  let fits := left.isEmpty ∧ (negative → 0 < n ∧ n ≤ Nat.pow 2 63)
  if whole.length = t.length ∧ fits then some (integer (if negative then -n else n))
  else
    let (digits, unread) := takeDigits n fraction
    let places : Int := left.length - (fraction.length - unread.length)
    (Binary.ofScientific? digits (exponent + places)).map (decimal negative)

def decimalText (negative : Bool) (magnitude : Binary) : String :=
  (if negative then "-" else "") ++ magnitude.render

/-- Four hexadecimal digits. -/
def hexDigits (n : Nat) : Text :=
  [n / 4096 % 16, n / 256 % 16, n / 16 % 16, n % 16].map Nat.digitChar

/-- Controls without a short form are written with four hexadecimal digits. -/
def escapeChar (c : Char) : Text :=
  match c with
  | '"' => ['\\', '"']
  | '\\' => ['\\', '\\']
  | '\x08' => ['\\', 'b']
  | '\x0c' => ['\\', 'f']
  | '\n' => ['\\', 'n']
  | '\r' => ['\\', 'r']
  | '\t' => ['\\', 't']
  | c => if c.toNat < 0x20 then '\\' :: 'u' :: hexDigits c.toNat else [c]

def quoted (t : Text) : Text :=
  '"' :: t.flatMap escapeChar ++ ['"']

def openBrace : Char := '\x7b'

def closeBrace : Char := '\x7d'

/-- Items in brackets, on one line. -/
def inline (left right : Char) (items : List Text) : Text :=
  left :: Text.join ',' items ++ [right]

/-- Items in brackets, each on a line of its own inside `indent`; brackets around nothing stay together. -/
def block (left right : Char) (indent : Nat) (items : List Text) : Text :=
  let newLine depth := '\n' :: List.replicate (2 * depth) ' '
  if items.isEmpty then [left, right]
  else left :: Text.join ',' (items.map (newLine (indent + 1) ++ ·)) ++ newLine indent ++ [right]

def scalar : Json → Text
  | bool b => (toString b).toList
  | integer n => (toString n).toList
  | decimal negative magnitude => (decimalText negative magnitude).toList
  | string t => quoted t
  | _ => "null".toList

mutual

def compact : Json → Text
  | array items => inline '[' ']' (compactItems items)
  | object fields => inline openBrace closeBrace (compactFields fields)
  | j => scalar j

def compactItems : List Json → List Text
  | [] => []
  | j :: js => compact j :: compactItems js

def compactFields : List (Text × Json) → List Text
  | [] => []
  | (key, j) :: rest => (quoted key ++ ':' :: compact j) :: compactFields rest

end

mutual

def pretty (indent : Nat) : Json → Text
  | array items => block '[' ']' indent (prettyItems (indent + 1) items)
  | object fields => block openBrace closeBrace indent (prettyFields (indent + 1) fields)
  | j => scalar j

def prettyItems (indent : Nat) : List Json → List Text
  | [] => []
  | j :: js => pretty indent j :: prettyItems indent js

def prettyFields (indent : Nat) : List (Text × Json) → List Text
  | [] => []
  | (key, j) :: rest =>
    (quoted key ++ ':' :: ' ' :: pretty indent j) :: prettyFields indent rest

end

/-- What a value is called where something else was expected. -/
def described : Json → String
  | null => "null"
  | bool b => "boolean \x60" ++ toString b ++ "\x60"
  | integer n => "integer \x60" ++ toString n ++ "\x60"
  | decimal negative magnitude =>
    "floating point \x60" ++ decimalText negative magnitude ++ "\x60"
  | string t => "string " ++ t.quoted
  | array _ => "sequence"
  | object _ => "map"

/-- Reads a string, and complains of any other value. -/
def readAs {α : Type} (expected : String) (read : Text → Except String α) :
    Json → Except String α
  | string t => read t
  | j => .error ("invalid type: " ++ described j ++ ", expected " ++ expected)

end Json

def Kind.ofJson : Json → Except String Kind :=
  Json.readAs "a mapping kind" fun t => (Kind.read t).mapError (·.message)

def Dialect.ofJson : Json → Except String Dialect :=
  Json.readAs "a mappings dialect" fun t => (Dialect.read t).mapError (·.message)

/-- The intermediate name is left out where there is none. -/
def Entry.toJson (e : Entry) : Json :=
  .object ([("obf".toList, .string e.obf)] ++
    e.intermediate.toList.map (fun name => ("intermediate".toList, .string name)) ++
    [("deobf".toList, .string e.deobf)])

def Table.toJson (t : Table) : Json :=
  .object (t.registers.map fun (kind, r) => (kind.name.toList, .array (r.toList.map Entry.toJson)))

end SymbolMap
