import QuasiScript.CompileError
import QuasiScript.Dialect
import QuasiScript.Node
import QuasiScript.Scope
import QuasiScript.Target

/-!
# Generating code: context and checks

Code is generated in a frame, which says where a node stands: in which scope, under which form, whether it ends a
function body, and how deep the text is indented. Generation reads and extends the scope table, and stops at the first
error; what was declared until then stays declared.
-/
namespace QuasiScript

/-- A computation that may declare names and may fail. -/
abbrev Emit (α : Type) : Type := ExceptT CompileError (StateM ScopeTable) α

/-- What stands directly around a node. -/
inductive Parent where
  | top
  | form (name : String)
deriving DecidableEq

structure Frame where
  scope : Int
  parent : Parent
  /-- The node ends a function body and must yield its value. -/
  tail : Bool
  /-- How many blocks and objects the text stands in. -/
  depth : Nat
deriving DecidableEq

namespace Frame

def top : Frame := ⟨Scope.global, .top, false, 0⟩

def under (f : Frame) (name : String) : Frame := ⟨f.scope, .form name, false, f.depth⟩

def within (f : Frame) (scope : Int) : Frame := { f with scope := scope }

def deeper (f : Frame) : Frame := { f with depth := f.depth + 1 }

/-- A line break, up to where the next line begins. -/
def newline (f : Frame) : String := "\n" ++ Text.spaces (2 * f.depth)

/-- Whether leaves here are declarations. -/
def declaring (f : Frame) : Bool := f.parent == .form "var"

/-- Whether operators here need no parentheses: at top level and directly under a statement. -/
def statementLevel (d : Dialect) (f : Frame) : Bool :=
  match f.parent with
  | .top => true
  | .form name => d.isStatement name

/-- Whether a node here begins a statement of the target, where a function or an object would be misread. -/
def statementPosition (f : Frame) : Bool := f.parent == .top || f.parent == .form "begin"

end Frame

namespace Emit

def parenthesize (wanted : Bool) (text : String) : String := if wanted then "(" ++ text ++ ")" else text

def fail {α : Type} (pos : Position) (cause : CompileCause) : Emit α := throw ⟨pos, cause⟩

def exactly (head : String) (op : Token) (args : List Node) (n : Nat) : Emit Unit :=
  if args.length = n then pure () else fail op.pos (.notExactly head n args.length)

def atLeast (head : String) (op : Token) (args : List Node) (n : Nat) : Emit Unit :=
  if n ≤ args.length then pure () else fail op.pos (.tooFew head n args.length)

/-! ## Expressions -/

/-- Whether a node can be used as a value in the target: not the empty list, and no list that leads with a statement,
lists in head position followed inward. -/
def isExpression (d : Dialect) : Node → Bool
  | .leaf _ _ => true
  | .list [] _ => false
  | .list (.list es t :: _) _ => isExpression d (.list es t)
  | .list (.leaf v _ :: _) _ =>
    match v.symbol? with
    | some name => !d.isStatement name
    | none => true

def requireExpression (d : Dialect) (n : Node) : Emit Unit :=
  if isExpression d n then pure () else fail n.leftmost (.expressionExpected n.surface)

/-! ## Names -/

def declare (d : Dialect) (scope : Int) (v : Value) (token : Token) : Emit Unit :=
  match v.symbol? with
  | none => fail token.pos (.illegalName v.surface)
  | some name =>
    if name = "" ∨ '.' ∈ name.toList then fail token.pos (.illegalName name)
    else if d.isReserved name then fail token.pos (.reservedWord name)
    else do
      let previous ← modifyGet fun t => t.declare scope name token.pos
      match previous with
      | none => pure ()
      | some p => fail token.pos (.redeclared name p.pos)

def enter (scope : Int) : Emit Int := modifyGet fun t => t.enter scope

/-- The variable that a dotted name belongs to: the text before its first dot. -/
def baseName (name : String) : String := String.ofList (name.toList.takeWhile (· != '.'))

/-- Checks a target of an assignment. It is declared here, or it must be declared already. -/
def checkTarget (d : Dialect) (f : Frame) (n : Node) : Emit Unit :=
  match n with
  | .list _ _ => fail n.leftmost (.illegalTarget n.surface)
  | .leaf v t =>
    match v.symbol? with
    | none => fail t.pos (.illegalTarget v.surface)
    | some name =>
      if f.declaring then declare d f.scope v t
      else if baseName name = "" then fail t.pos (.illegalTarget name)
      else do
        if (← get).declares f.scope (baseName name) then pure () else fail t.pos (.undeclared (baseName name))

def checkTargets (d : Dialect) (f : Frame) : List Node → Emit Unit
  | [] => pure ()
  | n :: ns => do
    checkTarget d f n
    checkTargets d f ns

/-- What the parameter list of a function amounts to: names, and a line that collects the remaining arguments. -/
structure Parameters where
  names : List String
  prelude : Option String

/-- The line that collects all arguments from number `i` on. -/
def collectRest (name : String) (i : Nat) : String :=
  "var " ++ name ++ " = Array.prototype.slice.call(arguments, " ++ toString i ++ ");"

/-- Declares parameters, the first of which has number `i`. After a `.` one more name collects the remaining
arguments. -/
def parameters (d : Dialect) (scope : Int) : Nat → List Node → Emit Parameters
  | _, [] => pure ⟨[], none⟩
  | _, n@(.list _ _) :: _ => fail n.leftmost (.illegalParameter n.surface)
  | i, .leaf v t :: rest =>
    if v = .symbol "." then
      match rest with
      | [.leaf r rt] => do
        declare d scope r rt
        pure ⟨[], some (collectRest (Target.literal r) i)⟩
      | [n@(.list _ _)] => fail n.leftmost (.illegalParameter n.surface)
      | _ => fail t.pos .restParameter
    else do
      declare d scope v t
      let more ← parameters d scope (i + 1) rest
      pure ⟨Target.literal v :: more.names, more.prelude⟩

/-! ## Keys of objects -/

/-- A key as written, and the property name that it denotes. -/
structure Key where
  text : String
  name : String

/-- The key that a value gives: bare if it is an identifier and no reserved word, as written if it is an unsigned
number, a string literal otherwise. -/
def keyOf (d : Dialect) : Value → Key
  | .symbol name => ⟨if Target.isIdentifier name && !d.isReserved name then name else Target.quote name, name⟩
  | .number text value =>
    let name := Target.numberName value
    ⟨if text.toList.head? = some '-' ∨ text.toList.head? = some '+' then Target.quote name else text, name⟩
  | .string contents => ⟨Target.quote contents, contents⟩
  | v => ⟨Target.quote (Target.literal v), Target.literal v⟩

def key (d : Dialect) : Node → Emit Key
  | .leaf v _ => pure (keyOf d v)
  | n@(.list _ _) => fail n.leftmost (.keyNotAtom n.surface)

end Emit
end QuasiScript
