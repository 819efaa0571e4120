import QuasiScript.Shown

/-!
# Running code

What runs the code is no part of the tools: an engine is given to them. All they see of it is what a run writes and what
it comes to, and what one run leaves in the memory of the engine is there for the next. An engine is taken to end every
run.
-/
namespace QuasiScript

/-- What is seen of a run: the text it writes, and its value or the message of its error. -/
structure Run where
  output : String
  result : Except String Shown

structure Engine where
  Memory : Type
  start : Memory
  /-- Runs code within a number of nanoseconds, if there is a limit. -/
  run : Option Nat → Memory → String → Run × Memory

namespace Engine

/-- The engine for which all code does nothing. -/
def idle : Engine := ⟨Unit, (), fun _ _ _ => (⟨"", .ok .undefined⟩, ())⟩

end Engine
end QuasiScript
