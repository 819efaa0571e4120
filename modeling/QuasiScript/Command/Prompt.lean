import QuasiScript.Reading
import QuasiScript.Text.Trim

/-!
# Reading units at a prompt

A unit ends with the line at which its text is complete. A line that ends in a backslash always continues on the next
one; so does a text with open brackets or an open string.
-/
namespace QuasiScript
namespace Prompt

/-- What a prompt is answered with. The end of the answers is the end of the input. -/
inductive Answer where
  | line (text : String)
  /-- The prompt failed for another reason than the end of the input. -/
  | failure
deriving DecidableEq

/-- What one attempt to read a unit gives: the unit, unless the input ended, the prompts shown, and the answers left. -/
structure Attempt where
  unit : Option String
  prompts : List String
  rest : List Answer

def first : String := "qs> "

def further : String := "... "

/-- Whether a text stops in the middle of a unit, so that more input may complete it. -/
def incomplete (text : String) : Bool :=
  match (Reading.ofText .standard text.toList).error with
  | none => false
  | some e => e.innermost.cause == .endOfStream

def promptAfter (sofar : String) : String := if sofar = "" then first else further

def continues (line : String) : Bool := line.toList.getLast? == some '\\'

def content (line : String) : String := if continues line then String.ofList line.toList.dropLast else line

def extend (sofar line : String) : String := if sofar = "" then content line else sofar ++ "\n" ++ content line

/-- Whether a unit goes on after a line that makes its text `text`. -/
def goesOn (line text : String) : Bool := continues line || (Text.trim text != "" && incomplete text)

def readUnitAfter (sofar : String) : List Answer → Attempt
  | [] => ⟨none, [promptAfter sofar], []⟩
  | .failure :: rest => ⟨some "", [promptAfter sofar], rest⟩
  | .line s :: rest =>
    if goesOn s (extend sofar s) then
      let more := readUnitAfter (extend sofar s) rest
      { more with prompts := promptAfter sofar :: more.prompts }
    else ⟨some (extend sofar s), [promptAfter sofar], rest⟩

def readUnit (answers : List Answer) : Attempt := readUnitAfter "" answers

theorem readUnitAfter_rest_lt : ∀ (sofar : String) (answers : List Answer),
    (readUnitAfter sofar answers).unit.isSome → (readUnitAfter sofar answers).rest.length < answers.length
  | _, [], h => by simp [readUnitAfter] at h
  | _, .failure :: rest, _ => by simp [readUnitAfter]
  | sofar, .line s :: rest, h => by
    rw [readUnitAfter] at h ⊢
    split at h
    · have := readUnitAfter_rest_lt (extend sofar s) rest h
      simp only [*, if_true, List.length_cons]
      omega
    · simp [*]

def readUnits (answers : List Answer) : List Attempt :=
  let a := readUnit answers
  if a.unit.isSome then a :: readUnits a.rest else [a]
termination_by answers.length
decreasing_by exact readUnitAfter_rest_lt _ _ ‹_›

end Prompt
end QuasiScript
