import QuasiScript.Number.Style
import QuasiScript.Text.Quoted

/-!
# Showing results

The value of a program, as the prompt shows it.
-/
namespace QuasiScript

/-- A value of the target, as far as it can be shown. -/
inductive Shown where
  | undefined
  | boolean (b : Bool)
  | integer (n : Int)
  | number (x : Double)
  | string (s : String)
  | array (elements : List Shown)
  | object (fields : List (String × Shown))
  /-- A function or another value that the engine has a text for. -/
  | foreign (text : String)

namespace Shown

/-- Results have all digits in place from a ten-thousandth up to six digits. -/
def numberStyle : DecimalStyle := ⟨-4, 5, 2⟩

/-- A number as a result shows it, the sign of zero included. -/
def numberText (x : Double) : String :=
  match x.view with
  | .nan => "NaN"
  | .infinite negative => if negative then "-Inf" else "+Inf"
  | .finite negative m q =>
    String.ofList ((if negative then ['-'] else []) ++ numberStyle.write (.shortest m q))

def insertField (x : String × String) : List (String × String) → List (String × String)
  | [] => [x]
  | y :: ys => if x.1 < y.1 then x :: y :: ys else y :: insertField x ys

def sortFields (xs : List (String × String)) : List (String × String) := xs.foldr insertField []

mutual

def inner : Shown → String
  | .undefined => "<nil>"
  | .boolean b => if b then "true" else "false"
  | .integer n => toString n
  | .number x => numberText x
  | .string s => s
  | .array es => "[" ++ " ".intercalate (inners es) ++ "]"
  | .object fs => "map[" ++ " ".intercalate ((sortFields (innerFields fs)).map fun x => x.1 ++ ":" ++ x.2) ++ "]"
  | .foreign text => text

def inners : List Shown → List String
  | [] => []
  | x :: xs => inner x :: inners xs

def innerFields : List (String × Shown) → List (String × String)
  | [] => []
  | (name, x) :: xs => (name, inner x) :: innerFields xs

end

/-- A result: a text stands in quotes, and no value is `undefined`. -/
def text : Shown → String
  | .undefined => "undefined"
  | .string s => Text.quoted s
  | x => inner x

def line : Shown → String
  | .undefined => ""
  | x => inner x ++ "\n"

end Shown
end QuasiScript
