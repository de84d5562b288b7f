import TableQuery.Text.Printable

/-!
# Texts shown in quotes

A text shown to a reader stands between double quotes. Quotes and backslashes inside it are marked
with a backslash, the usual control characters have their letter, and every other character
without a picture is given by its number in hexadecimal digits.
-/

namespace TableQuery.Text

/-- The shown form of one character. -/
def escapeChar (c : Char) : List Char :=
  match c with
  | '\x00' => ['\\', '0']
  | '\t' => ['\\', 't']
  | '\r' => ['\\', 'r']
  | '\n' => ['\\', 'n']
  | '"' => ['\\', '"']
  | '\\' => ['\\', '\\']
  | c =>
    if hasPicture c then [c]
    else "\\u\x7b".toList ++ Nat.toDigits 16 c.toNat ++ ['\x7d']

/-- A text in double quotes. -/
def quoted (s : String) : String :=
  String.ofList ('"' :: s.toList.flatMap escapeChar ++ ['"'])

/-- Texts in quotes, as a list in brackets. -/
def quotedList (names : List String) : String :=
  "[" ++ ", ".intercalate (names.map quoted) ++ "]"

end TableQuery.Text
