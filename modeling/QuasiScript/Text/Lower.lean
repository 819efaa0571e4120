/-!
# Keywords in any case

Keywords are recognised after a change to lower case. All keywords are ASCII, so only the characters whose lower case
is an ASCII letter matter: the ASCII capitals, the dotted capital I and the kelvin sign.
-/
namespace QuasiScript
namespace Text

/-- The lower case of a character, where that is an ASCII letter. -/
def lowerChar (c : Char) : Char :=
  match c.toNat with
  | 0x130 => 'i'
  | 0x212a => 'k'
  | _ => c.toLower

/-- A text in lower case, as far as keywords can tell. -/
def lower (s : String) : String := String.ofList (s.toList.map lowerChar)

end Text
end QuasiScript
