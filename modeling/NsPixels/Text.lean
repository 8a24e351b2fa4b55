import Mathlib.Data.UInt

/-!
# Strings

What the program uses of `str`, over lists of characters.
-/

namespace NsPixels

/-- The Unicode property `White_Space`. -/
def isWhitespace (c : Char) : Bool :=
  let n := c.toNat
  (9 ≤ n && n ≤ 13) || n = 32 || n = 0x85 || n = 0xA0 || n = 0x1680 ||
    (0x2000 ≤ n && n ≤ 0x200A) || n = 0x2028 || n = 0x2029 || n = 0x202F || n = 0x205F ||
    n = 0x3000

/-- `str::trim`. -/
def trim (s : List Char) : List Char :=
  ((s.dropWhile isWhitespace).reverse.dropWhile isWhitespace).reverse

/-- The value of a string of ASCII digits. -/
def decimal (s : List Char) : Option ℕ :=
  s.foldlM (fun n c => if '0' ≤ c ∧ c ≤ '9' then some (10 * n + (c.toNat - 48)) else none) 0

/-- `str::parse` of a `u32`: digits after an optional plus sign, no larger than the type. -/
def parseU32 (s : List Char) : Option UInt32 :=
  let digits := if s.head? = some '+' then s.tail else s
  if digits = [] then none
  else (decimal digits).bind fun n => if n < 2 ^ 32 then some (UInt32.ofNat n) else none

example : parseU32 "+6441".toList = some 6441 ∧ parseU32 "4294967296".toList = none := by decide

end NsPixels
