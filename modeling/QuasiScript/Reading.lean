import QuasiScript.Cursor
import QuasiScript.Node

/-!
# From tokens to nodes

The reader takes one token at a time. Its state holds the finished top-level nodes and a stack of what is still open:
brackets with the elements read so far, and punctuation that waits for the node it abbreviates a list of. A run of
punctuation is gathered first, as long as it begins an abbreviation. The first error ends the reading, and the top-level
nodes finished before it are kept.
-/
namespace QuasiScript

inductive Pending where
  /-- An open bracket and the elements after it, last first. -/
  | bracket (opening : Token) (elements : List Node)
  /-- Punctuation that stands for a symbol, before the node that it applies to. -/
  | sugar (head : Token) (symbol : String)

structure Reader where
  /-- The finished top-level nodes, last first. -/
  finished : List Node
  /-- What is open, innermost first. -/
  stack : List Pending
  /-- A run of punctuation that may go on: its first token, whose lexeme is the run so far. -/
  run : Option Token

/-- The result of reading a text: the top-level nodes before the first error, and that error. -/
structure Reading where
  nodes : List Node
  error : Option ReadError

namespace Reader

def start : Reader := ⟨[], [], none⟩

/-- Puts a finished node in its place: at top level, into the innermost bracket, or under the punctuation before it. -/
def place (finished : List Node) : List Pending → Node → Reader
  | [], n => ⟨n :: finished, [], none⟩
  | .bracket opening es :: stack, n => ⟨finished, .bracket opening (n :: es) :: stack, none⟩
  | .sugar head symbol :: stack, n => place finished stack (.list [.leaf (.symbol symbol) head, n] head)

/-- The elements of a closed bracket: some brackets stand for a leading symbol. -/
def closedElements (d : Dialect) (opening : Token) (es : List Node) : List Node :=
  match d.bracketSugar.get? opening.lexeme with
  | some symbol => .leaf (.symbol symbol) opening :: es.reverse
  | none => es.reverse

/-- Ends a run of punctuation: it must be an abbreviation. -/
def endRun (d : Dialect) (r : Reader) : Except ReadError Reader :=
  match r.run with
  | none => .ok r
  | some first =>
    match d.punctuationSugar.get? first.lexeme with
    | some symbol => .ok ⟨r.finished, .sugar first symbol :: r.stack, none⟩
    | none => .error (.single first.pos (.unknownPunctuation first.lexeme))

/-- A close bracket: it closes the innermost bracket, if that is what waits and the two match. -/
def close (d : Dialect) (r : Reader) (t : Token) : Except ReadError Reader :=
  match r.stack with
  | .bracket opening es :: stack =>
    if t.lexeme = d.matching opening.lexeme then
      .ok (place r.finished stack (.list (closedElements d opening es) opening))
    else
      .error (.because opening.pos (.closedByOther opening.lexeme)
        (.single t.pos (.mismatch t.lexeme opening.lexeme)))
  | _ => .error (.single t.pos (.strayClose t.lexeme))

/-- Takes a token when no run of punctuation is being gathered. -/
def accept (d : Dialect) (r : Reader) (t : Token) : Except ReadError Reader :=
  match t.kind with
  | .comment => .ok r
  | .openBracket => .ok { r with stack := .bracket t [] :: r.stack }
  | .closeBracket => r.close d t
  | .string => .ok (place r.finished r.stack (.leaf (.string t.lexeme) t))
  | .punctuation => .ok { r with run := some t }
  | .atom | .endOfStream => .ok (place r.finished r.stack (.leaf (d.atomValue t.lexeme) t))

/-- Takes a token: it may prolong a run of punctuation; otherwise the run ends before it. -/
def step (d : Dialect) (r : Reader) (t : Token) : Except ReadError Reader :=
  match r.run with
  | some first =>
    if t.kind = .punctuation ∧ d.beginsSugar (first.lexeme ++ t.lexeme) then
      .ok { r with run := some { first with lexeme := first.lexeme ++ t.lexeme } }
    else do (← r.endRun d).accept d t
  | none => r.accept d t

/-- The error of a text that stops in this state, given what stopped it. -/
def interrupted (d : Dialect) (r : Reader) (e : ReadError) : ReadError :=
  match r.endRun d with
  | .error e' => e'
  | .ok r =>
    match r.stack with
    | .bracket opening _ :: _ => .because opening.pos (.unclosed opening.lexeme) e
    | _ => e

def isIdle (r : Reader) : Bool := r.stack.isEmpty && r.run.isNone

def finish (d : Dialect) (r : Reader) (ending : Ending) : Reading :=
  match ending with
  | .finished pos =>
    if r.isIdle then ⟨r.finished.reverse, none⟩
    else ⟨r.finished.reverse, some (r.interrupted d (.single pos .endOfStream))⟩
  | .broken _ e => ⟨r.finished.reverse, some (r.interrupted d e)⟩

def readAll (d : Dialect) (ending : Ending) : Reader → List Token → Reading
  | r, [] => r.finish d ending
  | r, t :: ts =>
    match r.step d t with
    | .ok r' => readAll d ending r' ts
    | .error e => ⟨r.finished.reverse, some e⟩

end Reader

namespace Reading

def ofText (d : Dialect) (text : List Char) : Reading :=
  let s := Scan.ofText d text
  Reader.start.readAll d s.ending s.tokens

end Reading
end QuasiScript
