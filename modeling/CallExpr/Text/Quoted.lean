import CallExpr.Text.Invisible

/-!
# Quoted text

* `quoted`: a text between double quotes, in which every invisible character is written by its code point.
-/

namespace CallExpr.Text

/-- How a character is written between double quotes. -/
def quotedChar (c : Char) : List Char :=
  match c with
  | '\x00' => ['\\', '0']
  | '\t' => ['\\', 't']
  | '\r' => ['\\', 'r']
  | '\n' => ['\\', 'n']
  | '\\' => ['\\', '\\']
  | '"' => ['\\', '"']
  | c => if isInvisible c then ['\\', 'u', '\x7b'] ++ Nat.toDigits 16 c.toNat ++ ['\x7d'] else [c]

/-- The text between double quotes: a quote, a backslash and an invisible character are escaped, all else is kept. -/
def quoted (s : String) : String :=
  .ofList ('"' :: s.toList.flatMap quotedChar ++ ['"'])

end CallExpr.Text
