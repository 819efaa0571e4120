import QuasiScript.Number.Style
import QuasiScript.Text.DecimalDigit
import QuasiScript.Text.Hex
import QuasiScript.Text.Letter
import QuasiScript.Value

/-!
# Literals of the target language

String literals, numbers as property names, and bare property names.
-/
namespace QuasiScript
namespace Target

/-- One character inside a string literal: quotes, backslashes, control characters and the two line separators are
escaped, all else stands for itself. -/
def escape (c : Char) : List Char :=
  match c with
  | '"' => ['\\', '"']
  | '\\' => ['\\', '\\']
  | '\n' => ['\\', 'n']
  | '\t' => ['\\', 't']
  | '\r' => ['\\', 'r']
  | c =>
    if c.toNat < 0x20 ∨ c.toNat = 0x2028 ∨ c.toNat = 0x2029 then '\\' :: 'u' :: Text.hex 4 c.toNat else [c]

def quote (s : String) : String := String.ofList ('"' :: s.toList.flatMap escape ++ ['"'])

def literal : Value → String
  | .number text _ => text
  | .boolean true => "true"
  | .boolean false => "false"
  | .constant _ literal => literal
  | .symbol name => name
  | .string contents => quote contents

/-- Numbers turn into property names with all digits in place from a millionth up to 21 digits. -/
def numberStyle : DecimalStyle := ⟨-6, 20, 1⟩

/-- The property name that a number denotes. Both zeros are `0`. -/
def numberName (x : Double) : String :=
  match x.view with
  | .nan => "NaN"
  | .infinite negative => if negative then "-Infinity" else "Infinity"
  | .finite negative m q =>
    if m = 0 then "0"
    else String.ofList ((if negative then ['-'] else []) ++ numberStyle.write (.shortest m q))

def isNameStart (c : Char) : Bool := c == '_' || c == '$' || Text.isLetter c

def isNamePart (c : Char) : Bool := isNameStart c || Text.isDecimalDigit c

def isIdentifier (s : String) : Bool :=
  match s.toList with
  | [] => false
  | c :: cs => isNameStart c && cs.all isNamePart

end Target
end QuasiScript
