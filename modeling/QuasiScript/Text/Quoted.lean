import QuasiScript.Text.Hex
import QuasiScript.Text.Printable

/-!
# Quoted text

A text inside a message stands between double quotes. Printable characters stand for themselves; the quote, the
backslash and the seven named control characters are written with a backslash and a letter, every other character by
the hexadecimal digits of its code point.
-/
namespace QuasiScript
namespace Text

def quotedChar (c : Char) : List Char :=
  match c.toNat with
  | 0x07 => ['\\', 'a']
  | 0x08 => ['\\', 'b']
  | 0x0c => ['\\', 'f']
  | 0x0a => ['\\', 'n']
  | 0x0d => ['\\', 'r']
  | 0x09 => ['\\', 't']
  | 0x0b => ['\\', 'v']
  | 0x22 => ['\\', '"']
  | 0x5c => ['\\', '\\']
  | n =>
    if isPrintable c then [c]
    else if n < 0x80 then '\\' :: 'x' :: hex 2 n
    else if n < 0x10000 then '\\' :: 'u' :: hex 4 n
    else '\\' :: 'U' :: hex 8 n

/-- A text between double quotes, on one line and free of unprintable characters. -/
def quoted (s : String) : String :=
  String.ofList ('"' :: s.toList.flatMap quotedChar ++ ['"'])

end Text
end QuasiScript
