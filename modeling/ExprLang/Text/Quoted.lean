import ExprLang.Text.Shown

/-!
# Two ways to write a text on one line

A message puts a text in double quotes (`quote`).  Inside them a double quote
and a backslash carry a backslash, NUL, tab, line feed and carriage return have
a letter, and every other character that is not shown as itself is written as
its code point in hexadecimal.

A hint keeps to ASCII and has no quotes around it (`escape`).  There a single
quote carries a backslash as well, and every character outside the printable
part of ASCII is written as its code point.
-/

namespace ExprLang.Text

/-- The code point of a character in braces, in lower case hexadecimal. -/
def codePoint (c : Char) : List Char :=
  ['\\', 'u', '\x7b'] ++ Nat.toDigits 16 c.toNat ++ ['\x7d']

/-- A character as it stands between the quotes of a message. -/
def quotedChar (c : Char) : List Char :=
  match c with
  | '"' => ['\\', '"']
  | '\\' => ['\\', '\\']
  | '\x00' => ['\\', '0']
  | '\t' => ['\\', 't']
  | '\n' => ['\\', 'n']
  | '\r' => ['\\', 'r']
  | _ => if isShown c then [c] else codePoint c

/-- A text in double quotes. -/
def quote (s : String) : String :=
  String.ofList ('"' :: s.toList.flatMap quotedChar ++ ['"'])

/-- A character as it stands in a hint. -/
def escapedChar (c : Char) : List Char :=
  match c with
  | '\'' => ['\\', '\'']
  | '"' => ['\\', '"']
  | '\\' => ['\\', '\\']
  | '\t' => ['\\', 't']
  | '\n' => ['\\', 'n']
  | '\r' => ['\\', 'r']
  | _ => if 0x20 ≤ c.toNat ∧ c.toNat < 0x7F then [c] else codePoint c

/-- A text in printable ASCII. -/
def escape (s : String) : String :=
  String.ofList (s.toList.flatMap escapedChar)

theorem toList_quote (s : String) :
    (quote s).toList = '"' :: s.toList.flatMap quotedChar ++ ['"'] := String.toList_ofList

theorem toList_escape (s : String) : (escape s).toList = s.toList.flatMap escapedChar :=
  String.toList_ofList

/-! ## Examples -/

example : quote "a\"b'c" = "\"a\\\"b'c\"" := by decide +kernel
example : quote "\x00\x7f\u0301" = "\"\\0\\u\x7b7f\x7d\\u\x7b301\x7d\"" := by decide +kernel
example : escape "it's\x00é" = "it\\'s\\u\x7b0\x7d\\u\x7be9\x7d" := by decide +kernel

end ExprLang.Text
