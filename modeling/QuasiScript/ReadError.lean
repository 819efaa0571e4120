import QuasiScript.Position
import QuasiScript.Text.Quoted

/-!
# What can go wrong while reading

A fault is a cause at a position. A read error is a chain of faults, outermost first: a bracket that cannot be closed is
reported together with the fault that stopped the search for its partner.
-/
namespace QuasiScript

inductive ReadCause where
  /-- The text ends where more is needed. -/
  | endOfStream
  /-- A string begins here and has no end. -/
  | unfinishedString
  /-- A character that may not stand inside an atom. -/
  | illegalCharacter (c : Char)
  /-- A close bracket with nothing to close. -/
  | strayClose (bracket : String)
  /-- An open bracket whose partner was not reached. -/
  | unclosed (bracket : String)
  /-- An open bracket that meets a close bracket of another kind. -/
  | closedByOther (bracket : String)
  /-- The close bracket of another kind that an open bracket met. -/
  | mismatch (close opened : String)
  /-- A run of punctuation that abbreviates nothing. -/
  | unknownPunctuation (text : String)
deriving DecidableEq

namespace ReadCause

def message : ReadCause → String
  | .endOfStream => "Unexpected end-of-stream"
  | .unfinishedString => "Started reading STRING"
  | .illegalCharacter c => "Illegal character " ++ String.singleton c ++ " encountered.  Missing a space?"
  | .strayClose b => "Close bracket " ++ Text.quoted b ++ " unexpected.  No matching open bracket."
  | .unclosed b => "Open bracket " ++ Text.quoted b ++ " lacks matching close bracket."
  | .closedByOther b => "Open bracket " ++ Text.quoted b ++ " is closed by a bracket that does not match."
  | .mismatch c o => "Close bracket " ++ Text.quoted c ++ " does not match open bracket " ++ Text.quoted o ++ "."
  | .unknownPunctuation p => "Unrecognised punctuation " ++ Text.quoted p ++ "."

end ReadCause

structure Fault where
  pos : Position
  cause : ReadCause
deriving DecidableEq

namespace Fault

def message (f : Fault) : String := f.cause.message

end Fault

/-- A chain of faults, outermost first. -/
structure ReadError where
  outermost : Fault
  inner : List Fault
deriving DecidableEq

namespace ReadError

def single (pos : Position) (cause : ReadCause) : ReadError := ⟨⟨pos, cause⟩, []⟩

/-- An error that another fault led to. -/
def because (pos : Position) (cause : ReadCause) (e : ReadError) : ReadError := ⟨⟨pos, cause⟩, e.outermost :: e.inner⟩

def chain (e : ReadError) : List Fault := e.outermost :: e.inner

def innermost (e : ReadError) : Fault := e.inner.getLastD e.outermost

def message (e : ReadError) : String :=
  "\n".intercalate (e.chain.map fun f => f.pos.label f.message)

end ReadError
end QuasiScript
