import QuasiScript.Emit.Node

/-!
# Writing code piece by piece

A writer holds the text so far and the indentation of the lines to come. The indentation is put before the first text of
a line and not after the line break, so that it may still change between the two.

Code can be emitted through a writer. Each form then writes its own words, and between them its parts write theirs, with
the checks and declarations of `Emit` in the same order. Nothing here knows how deep it stands: blocks and objects indent
the writer when they begin, and take that back when they end.
-/
namespace QuasiScript

structure Writer where
  text : String
  indentation : String
  /-- The line has no text yet, and its indentation is not written. -/
  startOfLine : Bool

namespace Writer

def empty : Writer := ⟨"", "", false⟩

def out (w : Writer) (s : String) : Writer :=
  ⟨w.text ++ (if w.startOfLine then w.indentation else "") ++ s, w.indentation, false⟩

def newLine (w : Writer) : Writer := ⟨w.text ++ "\n", w.indentation, true⟩

def indent (w : Writer) : Writer := { w with indentation := w.indentation ++ "  " }

def unindent (w : Writer) : Writer :=
  if 2 ≤ w.indentation.length then { w with indentation := String.ofList (w.indentation.toList.drop 2) } else w

/-- What stands between the elements of a row, so not before the first one. -/
def separate (first : Bool) (separator : Writer → Writer) (w : Writer) : Writer := if first then w else separator w

end Writer

/-- A computation that may write, declare names and fail. -/
abbrev Writing (α : Type) : Type := ExceptT CompileError (StateM (ScopeTable × Writer)) α

namespace Writing
open Emit (atLeast requireExpression requireAll requireLast requireAssignment requireLastClause checkTargets declare enter
  parameters key formOf tailPlace isInitializer minus isSpliced datumLeaf fail)

/-- Does something that writes nothing. -/
def check {α : Type} (m : Emit α) : Writing α :=
  ExceptT.mk fun s => ((m.run.run s.1).1, (m.run.run s.1).2, s.2)

def put (change : Writer → Writer) : Writing Unit := modify fun s => (s.1, change s.2)

def out (s : String) : Writing Unit := put (·.out s)

def outIf (wanted : Bool) (s : String) : Writing Unit := put fun w => if wanted then w.out s else w

def parenthesized (wanted : Bool) (body : Writing Unit) : Writing Unit := do
  outIf wanted "("
  body
  outIf wanted ")"

def block (prelude : Option String) (body : Writing Unit) : Writing Unit := do
  out "\x7b "
  put Writer.indent
  put fun w => match prelude with
    | some line => (w.out line).newLine
    | none => w
  body
  out " \x7d"
  put Writer.unindent

def object (body : Writing Unit) : Writing Unit := do
  out "\x7b"
  put Writer.indent
  put Writer.newLine
  body
  put Writer.unindent
  put Writer.newLine
  out "\x7d"

def leaf (d : Dialect) (v : Value) (t : Token) (f : Frame) : Writing Unit := do
  check (if f.declaring then declare d f.scope v t else pure ())
  out (Target.literal v)

def existence (d : Dialect) (name : String) (op : Token) : List Node → Frame → Writing Unit
  | [n], f =>
    match n.symbol? with
    | some x =>
      parenthesized (!f.statementLevel d) (out ("typeof " ++ x ++ " !== \"undefined\" && " ++ x ++ " !== null"))
    | none => check (fail n.leftmost (.existenceOfNonSymbol n.surface))
  | args, _ => check (fail op.pos (.notExactly name 1 args.length))

/-! ## The recursion -/

mutual

/-- Writes the code of a node. -/
def node (d : Dialect) : Node → Frame → Writing Unit
  | .leaf v t, f => leaf d v t f
  | .list [] t, _ => check (fail t.pos .emptyList)
  | .list (.list es t :: args) _, f => do
    check (requireExpression d (.list es t))
    out "("
    node d (.list es t) (f.under "call")
    out ")"
    out "("
    operands d true args (f.under "call")
    out ")"
  | .list (.leaf (.symbol name) op :: args) _, f =>
    match d.form name with
    | .declaration => do
      check (atLeast name op args 1)
      out "var "
      declarators d true args (f.under "var")
    | .assignment => do
      check (atLeast name op args 2)
      check (requireLast d args)
      check (checkTargets d f args.dropLast)
      nodes d " = " true args (f.under "=")
    | .lambda => lambda d name op args f
    | .sequence => do
      check (atLeast name op args 1)
      block none (statements d true args f f.tail)
    | .conditional => do
      check (atLeast name op args 1)
      clauses d 1 args f
    | .when => guarded d name op "if (" "when" f.tail args f
    | .array => do
      out "["
      operands d true args (f.under "array")
      out "]"
    | .object =>
      if args.length % 2 = 0 then
        parenthesized f.statementPosition
          (if args.isEmpty then out "\x7b\x7d" else object (entries d true [] args (f.under "object")))
      else check (fail op.pos (.unpairedKey args.length))
    | .existence => existence d name op args f
    | .forLoop => forLoop d name op args f
    | .whileLoop => guarded d name op "while (" "while" false args f
    | .untilLoop => guarded d name op "while (!" "not" false args f
    | .quote => quotation d name op false args f
    | .quasiquote => quotation d name op true args f
    | .unquote | .unquoteSplicing => check (fail op.pos (.unquoteOutside name))
    | .ordinary | .unassigned _ =>
      match d.binaryOperators.get? name with
      | some target => operation d name op target args f
      | none =>
        match d.comparisons.get? name with
        | some target => comparison d name op target args f
        | none =>
          match d.unaryOperators.get? name with
          | some target => unary d name op target args f
          | none => do
            out name
            out "("
            operands d true args (f.under "call")
            out ")"
  | .list (.leaf v op :: _) _, _ => check (fail op.pos (.notCallable v.surface))
termination_by structural n => n

def nodes (d : Dialect) (separator : String) : Bool → List Node → Frame → Writing Unit
  | _, [], _ => pure ()
  | first, n :: ns, f => do
    put (·.separate first (·.out separator))
    node d n f
    nodes d separator false ns f
termination_by structural _ ns => ns

def operands (d : Dialect) : Bool → List Node → Frame → Writing Unit
  | _, [], _ => pure ()
  | first, n :: ns, f => do
    put (·.separate first (·.out ", "))
    check (requireExpression d n)
    node d n f
    operands d false ns f
termination_by structural _ ns => ns

def statements (d : Dialect) : Bool → List Node → Frame → Bool → Writing Unit
  | _, [], _, _ => pure ()
  | first, n :: ns, f, tail => do
    put (·.separate first Writer.newLine)
    let place := if tail && ns.isEmpty then tailPlace d n f else ("", f.under "begin")
    outIf (place.1 != "") place.1
    node d n place.2
    out ";"
    statements d false ns f tail
termination_by structural _ ns => ns

def declarators (d : Dialect) : Bool → List Node → Frame → Writing Unit
  | _, [], _ => pure ()
  | first, .list es t :: rest, f => do
    put (·.separate first (·.out ", "))
    check (requireAssignment es t)
    node d (.list es t) f
    declarators d false rest f
  | first, [.leaf v t], f => do
    put (·.separate first (·.out ", "))
    leaf d v t f
  | first, .leaf v t :: n :: rest, f => do
    put (·.separate first (·.out ", "))
    leaf d v t f
    if isInitializer n then
      check (requireExpression d n)
      out " = "
      node d n (f.under "=")
      declarators d false rest f
    else declarators d false (n :: rest) f
termination_by structural _ ns => ns

def lambda (d : Dialect) (name : String) (op : Token) : List Node → Frame → Writing Unit
  | .list ps _ :: b :: body, f => do
    let scope ← check (enter f.scope)
    let p ← check (parameters d scope 0 ps)
    parenthesized f.statementPosition do
      out ("function(" ++ ", ".intercalate p.names ++ ") ")
      block p.prelude (statements d true (b :: body) (f.within scope) true)
  | n :: _ :: _, _ => check (fail n.leftmost (.notParameterList n.surface))
  | args, _ => check (fail op.pos (.tooFew name 2 args.length))
termination_by structural ns => ns

def clauses (d : Dialect) : Nat → List Node → Frame → Writing Unit
  | _, [], _ => pure ()
  | i, n@(.leaf _ _) :: _, _ => check (fail n.leftmost (.clauseNotList i n.surface))
  | i, n@(.list [] _) :: _, _ => check (fail n.leftmost (.clauseTooShort i))
  | i, n@(.list [_] _) :: _, _ => check (fail n.leftmost (.clauseTooShort i))
  | i, .list (test :: b :: body) _ :: rest, f => do
    put (·.separate (i == 1) (·.newLine.out "else "))
    (if test.symbol? = some "else" then check (requireLastClause i rest test)
    else do
      check (requireExpression d test)
      out "if ("
      node d test (f.under "if")
      out ") ")
    block none (statements d true (b :: body) f f.tail)
    clauses d (i + 1) rest f
termination_by structural _ ns => ns

def guarded (d : Dialect) (name : String) (op : Token) (lead role : String) (tail : Bool) :
    List Node → Frame → Writing Unit
  | test :: b :: body, f => do
    check (requireExpression d test)
    out lead
    node d test (f.under role)
    out ") "
    block none (statements d true (b :: body) f tail)
  | args, _ => check (fail op.pos (.tooFew name 2 args.length))
termination_by structural ns => ns

def entries (d : Dialect) : Bool → List String → List Node → Frame → Writing Unit
  | first, seen, k :: n :: rest, f => do
    put (·.separate first (·.out "," |>.newLine))
    let key ← check (key d k)
    check (if key.name ∈ seen then fail k.leftmost (.duplicateKey key.text) else pure ())
    check (requireExpression d n)
    out (key.text ++ ": ")
    node d n f
    entries d false (key.name :: seen) rest f
  | _, _, _, _ => pure ()
termination_by structural _ _ ns => ns

def forLoop (d : Dialect) (name : String) (op : Token) : List Node → Frame → Writing Unit
  | .leaf v t :: lo :: hi :: b :: body, f => do
    let scope ← check (enter f.scope)
    check (declare d scope v t)
    check (requireExpression d lo)
    check (requireExpression d hi)
    let x := Target.literal v
    out ("for (var " ++ x ++ " = ")
    node d lo ((f.within scope).under "=")
    out ("; " ++ x ++ " <= ")
    node d hi ((f.within scope).under "<=")
    out ("; " ++ x ++ "++) ")
    block none (statements d true (b :: body) (f.within scope) false)
  | n :: _ :: _ :: _ :: _, _ => check (fail n.leftmost (.notLoopVariable n.surface))
  | args, _ => check (fail op.pos (.tooFew name 4 args.length))
termination_by structural ns => ns

def operation (d : Dialect) (name : String) (op : Token) (target : String) : List Node → Frame → Writing Unit
  | [], _ => check (fail op.pos (.tooFew name 2 0))
  | [n], f =>
    if name = "-" then do
      check (requireExpression d n)
      parenthesized (!f.statementLevel d) do
        out (minus n)
        node d n (f.under name)
    else check (fail op.pos (.tooFew name 2 1))
  | n :: m :: rest, f => do
    check (requireAll d (n :: m :: rest))
    parenthesized (!f.statementLevel d) do
      node d n (f.under name)
      nodes d (" " ++ target ++ " ") false (m :: rest) (f.under name)
termination_by structural ns => ns

def comparison (d : Dialect) (name : String) (op : Token) (target : String) : List Node → Frame → Writing Unit
  | [n, m], f => do
    check (requireAll d [n, m])
    parenthesized (!f.statementLevel d) do
      node d n (f.under name)
      out (" " ++ target ++ " ")
      node d m (f.under name)
  | args, _ => check (fail op.pos (.notExactly name 2 args.length))
termination_by structural ns => ns

def unary (d : Dialect) (name : String) (op : Token) (target : String) : List Node → Frame → Writing Unit
  | [n], f => do
    check (requireExpression d n)
    out target
    node d n (f.under name)
  | args, _ => check (fail op.pos (.notExactly name 1 args.length))
termination_by structural ns => ns

def quotation (d : Dialect) (name : String) (op : Token) (quasi : Bool) : List Node → Frame → Writing Unit
  | [n], f => datum d quasi n f
  | args, _ => check (fail op.pos (.notExactly name 1 args.length))
termination_by structural ns => ns

def datum (d : Dialect) (quasi : Bool) : Node → Frame → Writing Unit
  | .leaf v _, _ => out (datumLeaf v)
  | n@(.list es _), f =>
    match if quasi then formOf d n else .ordinary with
    | .unquote => inserted d "unquote" es f
    | .unquoteSplicing => check (fail n.leftmost .splicingOutsideList)
    | _ =>
      if quasi && es.any (isSpliced d) then do
        out "[].concat("
        splices d true es f
        out ")"
      else do
        out "["
        data d quasi true es f
        out "]"
termination_by structural n => n

def inserted (d : Dialect) (role : String) : List Node → Frame → Writing Unit
  | [_, n], f => do
    check (requireExpression d n)
    node d n (f.under role)
  | op :: args, _ => check (fail op.leftmost (.notExactly op.surface 1 args.length))
  | [], _ => out "[]"
termination_by structural ns => ns

def data (d : Dialect) (quasi : Bool) : Bool → List Node → Frame → Writing Unit
  | _, [], _ => pure ()
  | first, n :: ns, f => do
    put (·.separate first (·.out ", "))
    datum d quasi n f
    data d quasi false ns f
termination_by structural _ ns => ns

def splices (d : Dialect) : Bool → List Node → Frame → Writing Unit
  | _, [], _ => pure ()
  | first, .leaf v _ :: ns, f => do
    put (·.separate first (·.out ", "))
    out ("[" ++ datumLeaf v ++ "]")
    splices d false ns f
  | first, .list es t :: ns, f => do
    put (·.separate first (·.out ", "))
    (if isSpliced d (.list es t) then inserted d "unquote-splicing" es f else do
      out "["
      datum d true (.list es t) f
      out "]")
    splices d false ns f
termination_by structural _ ns => ns

end

/-! ## Programs -/

def program (d : Dialect) : List Node → Writing Unit
  | [] => pure ()
  | n :: ns => do
    node d n Frame.top
    out ";"
    put Writer.newLine
    program d ns

/-- What the writer holds after a program, or the first error; and the scopes after it. -/
def generate (d : Dialect) (scopes : ScopeTable) (ns : List Node) : Except CompileError Writer × ScopeTable :=
  let (result, scopes, w) := (program d ns).run.run (scopes, Writer.empty)
  (result.map fun _ => w, scopes)

end Writing
end QuasiScript
