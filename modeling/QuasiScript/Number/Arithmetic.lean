import QuasiScript.Number.Double

/-!
# Arithmetic on doubles

A product or a quotient is the double nearest to the exact result, so that a chain of operations rounds at every step.
-/
namespace QuasiScript
namespace Double

def ofNat (n : Nat) : Double := ofRatio false n 1

def infinity (negative : Bool) : Double := ofMagnitude negative infinityBits

def nan : Double := ofMagnitude false (infinityBits + 2 ^ 51)

/-- The double nearest to `num / den * 2 ^ q`, negated when `negative`. -/
def ofScaled (negative : Bool) (num den : Nat) (q : Int) : Double :=
  let (a, b) := scale num den (-q)
  ofRatio negative a b

def mul (x y : Double) : Double :=
  match x.view, y.view with
  | .nan, _ | _, .nan => nan
  | .infinite s, .infinite t => infinity (s != t)
  | .infinite s, .finite t n _ => if n = 0 then nan else infinity (s != t)
  | .finite s m _, .infinite t => if m = 0 then nan else infinity (s != t)
  | .finite s m q, .finite t n r => ofScaled (s != t) (m * n) 1 (q + r)

def div (x y : Double) : Double :=
  match x.view, y.view with
  | .nan, _ | _, .nan | .infinite _, .infinite _ => nan
  | .infinite s, .finite t _ _ => infinity (s != t)
  | .finite s _ _, .infinite t => ofMagnitude (s != t) 0
  | .finite s m q, .finite t n r =>
    if n = 0 then if m = 0 then nan else infinity (s != t)
    else ofScaled (s != t) m n (q - r)

/-- The magnitude without its fraction; what is not finite counts as zero. -/
def whole (x : Double) : Nat :=
  match x.view with
  | .finite _ m q =>
    let (a, b) := scale m 1 (-q)
    a / b
  | _ => 0

end Double
end QuasiScript
