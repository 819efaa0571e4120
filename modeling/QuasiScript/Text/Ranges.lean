/-!
# Character classes given by ranges

A class of characters is a list of closed ranges of code points, ascending and disjoint, so that membership looks no
further than the first range that does not end before the character.
-/
namespace QuasiScript
namespace Text

def inRanges : List (Nat × Nat) → Nat → Bool
  | [], _ => false
  | (lo, hi) :: rest, n => if n ≤ hi then decide (lo ≤ n) else inRanges rest n

end Text
end QuasiScript
