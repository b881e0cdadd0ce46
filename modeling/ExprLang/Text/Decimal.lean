/-!
# Integers in decimal

`integer?` reads a run of ASCII digits as a signed 64-bit integer.  It fails on an
empty text, on any other character and on a value above the largest such integer.
Leading zeros do not matter.
-/

namespace ExprLang.Text

/-- The largest integer. -/
def maxInteger : Nat := Int64.maxValue.toInt.toNat

/-- The value of a run of digits. -/
def digitsValue (cs : List Char) : Nat := Nat.ofDigitChars 10 cs 0

/-- The integer that a text spells. -/
def integer? (s : String) : Option Int64 :=
  let cs := s.toList
  if !cs.isEmpty && cs.all Char.isDigit && digitsValue cs ≤ maxInteger then
    some (Int64.ofNat (digitsValue cs))
  else none

example : integer? "007" = some 7 := by decide +kernel
example : integer? "9223372036854775807" = some 9223372036854775807 := by decide +kernel
example : integer? "9223372036854775808" = none := by decide +kernel
example : integer? "" = none := by decide +kernel

end ExprLang.Text
