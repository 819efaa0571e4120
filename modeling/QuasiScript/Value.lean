import QuasiScript.Number.Double

/-!
# Values of leaves

A leaf of a program is a number, a boolean, a named constant, a symbol or a string. A number keeps the text it was
written with beside its value.
-/
namespace QuasiScript

inductive Value where
  | number (text : String) (value : Double)
  | boolean (b : Bool)
  /-- A name with a fixed literal in the target. -/
  | constant (name literal : String)
  | symbol (name : String)
  | string (contents : String)
deriving DecidableEq

namespace Value

def escapeSurface (c : Char) : List Char :=
  match c with
  | '\\' => ['\\', '\\']
  | '"' => ['\\', '"']
  | '\n' => ['\\', 'n']
  | '\t' => ['\\', 't']
  | c => [c]

/-- A string as source text: between quotes, with escapes where reading needs them. -/
def quoteSurface (s : String) : String := String.ofList ('"' :: s.toList.flatMap escapeSurface ++ ['"'])

def surface : Value → String
  | .number text _ => text
  | .boolean true => "true"
  | .boolean false => "false"
  | .constant name _ => name
  | .symbol name => name
  | .string contents => quoteSurface contents

def symbol? : Value → Option String
  | .symbol name => some name
  | _ => none

end Value
end QuasiScript
