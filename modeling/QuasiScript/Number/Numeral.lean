import QuasiScript.Number.Decimal

/-!
# Numerals

A numeral is an optional sign followed either by `0x` and hexadecimal digits of a value below `2 ^ 64`, or by a decimal
literal: digits with an optional point among or around them, then optionally `e` or `E`, a sign and digits.
-/
namespace QuasiScript

inductive Numeral where
  | hexadecimal (negative : Bool) (value : Nat)
  | decimal (negative : Bool) (value : Decimal)
deriving DecidableEq

namespace Numeral

def digitValue (c : Char) : Nat := c.toNat - '0'.toNat

def ofDigits (cs : List Char) : Nat := cs.foldl (fun n c => 10 * n + digitValue c) 0

def hexValue? (c : Char) : Option Nat :=
  if c.isDigit then some (digitValue c)
  else if 'a' ≤ c ∧ c ≤ 'f' then some (c.toNat - 'a'.toNat + 10)
  else if 'A' ≤ c ∧ c ≤ 'F' then some (c.toNat - 'A'.toNat + 10)
  else none

def ofHexDigits? : Nat → List Char → Option Nat
  | n, [] => some n
  | n, c :: cs => (hexValue? c).bind fun v => ofHexDigits? (16 * n + v) cs

/-- Splits off one sign; the first part says whether it was a minus. -/
def splitSign : List Char → Bool × List Char
  | '-' :: cs => (true, cs)
  | '+' :: cs => (false, cs)
  | cs => (false, cs)

/-- The number that the digits of an exponent spell. From ten thousand on no further digit counts; only a literal with
tens of thousands of digits before its exponent shows it. -/
def ofExponentDigits (cs : List Char) : Nat :=
  cs.foldl (fun n c => if n < 10000 then 10 * n + digitValue c else n) 0

/-- The exponent part of a decimal literal: nothing, or a mark, an optional sign and digits. -/
def exponent? : List Char → Option Int
  | [] => some 0
  | c :: cs =>
    let (negative, ds) := splitSign cs
    if (c = 'e' ∨ c = 'E') ∧ ds ≠ [] ∧ ds.all Char.isDigit then
      some (if negative then -(ofExponentDigits ds : Int) else ofExponentDigits ds)
    else none

def splitFraction : List Char → List Char × List Char
  | '.' :: cs => (cs.takeWhile Char.isDigit, cs.dropWhile Char.isDigit)
  | cs => ([], cs)

def decimal? (cs : List Char) : Option Decimal :=
  let whole := cs.takeWhile Char.isDigit
  let (fraction, rest) := splitFraction (cs.dropWhile Char.isDigit)
  if whole = [] ∧ fraction = [] then none
  else (exponent? rest).map fun e => ⟨ofDigits (whole ++ fraction), e - fraction.length⟩

/-- An unsigned hexadecimal literal, given the characters after `0x`. -/
def hexadecimal? (cs : List Char) : Option Nat :=
  if cs = [] then none else (ofHexDigits? 0 cs).filter (· < 2 ^ 64)

/-! ## Numerals -/

def isSign (c : Char) : Bool := c == '+' || c == '-'

def isDecimalChar (c : Char) : Bool := c.isDigit || c == '.' || c == 'e' || c == 'E' || isSign c

def trim (p : Char → Bool) (cs : List Char) : List Char := ((cs.dropWhile p).reverse.dropWhile p).reverse

def signedDecimal? (text : List Char) : Option Numeral :=
  let (negative, body) := splitSign text
  (decimal? body).map (.decimal negative)

/-- Reads a numeral that spans the whole text. There is one sign at most before it. -/
def parse? (text : List Char) : Option Numeral :=
  let body := text.dropWhile isSign
  if body = [] ∨ 1 < text.length - body.length then none
  else if ['0', 'x'].isPrefixOf body ∨ ['0', 'X'].isPrefixOf body then
    (hexadecimal? (body.drop 2)).map (.hexadecimal (text.head? == some '-'))
  else if trim isDecimalChar body ≠ [] then none
  else signedDecimal? text

def toDouble : Numeral → Double
  | .hexadecimal negative n => .ofRatio negative n 1
  | .decimal negative x => x.toDouble negative

end Numeral
end QuasiScript
