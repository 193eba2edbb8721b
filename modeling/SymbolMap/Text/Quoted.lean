import SymbolMap.Text.Basic
import SymbolMap.Text.Visible

/-! Texts in double quotes, as messages show them. -/
namespace SymbolMap.Text

/-- A code point in lower-case hexadecimal, in braces. -/
def codePoint (c : Char) : String :=
  "\\u\x7b" ++ String.ofList (Nat.toDigits 16 c.toNat) ++ "\x7d"

/-- A quote and a backslash are escaped, some controls have short names, and what cannot be seen is
shown by its code point. -/
def quotedChar (c : Char) : String :=
  match c with
  | '"' => "\\\""
  | '\\' => "\\\\"
  | '\n' => "\\n"
  | '\r' => "\\r"
  | '\t' => "\\t"
  | '\x00' => "\\0"
  | c => if isVisible c then c.toString else codePoint c

def quoted (t : Text) : String :=
  "\"" ++ String.join (t.map quotedChar) ++ "\""

end SymbolMap.Text
