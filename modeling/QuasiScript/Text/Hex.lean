/-!
# Hexadecimal digits of a fixed width
-/
namespace QuasiScript
namespace Text

def hexDigit (n : Nat) : Char :=
  let k := n % 16
  if k < 10 then Char.ofNat ('0'.toNat + k) else Char.ofNat ('a'.toNat + (k - 10))

/-- The last `width` hexadecimal digits of a number, zeros included. -/
def hex : Nat → Nat → List Char
  | 0, _ => []
  | width + 1, n => hex width (n / 16) ++ [hexDigit n]

theorem length_hex : ∀ width n : Nat, (hex width n).length = width
  | 0, _ => rfl
  | width + 1, n => by simp [hex, length_hex width]

end Text
end QuasiScript
