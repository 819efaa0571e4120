import QuasiScript.Emit.Basic

/-!
# Generating code: nodes

One rule for each form. `Emit.node` chooses the rule; the other functions of the recursion walk the parts of a form:
operands, statements, declarators, clauses, entries and quoted data.
-/
namespace QuasiScript
namespace Emit

def leaf (d : Dialect) (v : Value) (t : Token) (f : Frame) : Emit String := do
  if f.declaring then declare d f.scope v t
  pure (Target.literal v)

def formOf (d : Dialect) : Node → Form
  | .leaf _ _ => .ordinary
  | .list es _ => ((Node.head? es).map d.form).getD .ordinary

/-- How the last element of a function body is emitted. Sequences and conditionals pass the duty to yield a value
inward, loops and declarations have none to yield, and everything else is returned. -/
def tailPlace (d : Dialect) (n : Node) (f : Frame) : String × Frame :=
  match formOf d n with
  | .sequence | .conditional | .when => ("", { f.under "begin" with tail := true })
  | .declaration | .forLoop | .whileLoop | .untilLoop => ("", f.under "begin")
  | _ => ("return ", f.under "return")

/-- Statements in braces, each on a line of its own, after an optional first line. -/
def blockText (f : Frame) (prelude : Option String) (statements : List String) : String :=
  let newline := f.deeper.newline
  "\x7b " ++ (match prelude with
    | some line => line ++ newline
    | none => "") ++
    newline.intercalate (statements.map (· ++ ";")) ++ " \x7d"

def objectText (f : Frame) (entries : List String) : String :=
  let newline := f.deeper.newline
  "\x7b" ++ newline ++ ("," ++ newline).intercalate entries ++ f.newline ++ "\x7d"

/-- Whether a node after a declared name is its initial value. -/
def isInitializer (n : Node) : Bool :=
  n.symbol?.isNone &&
    match n with
    | .leaf _ _ => true
    | .list es _ => Node.head? es != some "="

/-- A minus sign, kept apart from another one. -/
def minus : Node → String
  | .leaf v _ => if (Target.literal v).toList.head? = some '-' then "- " else "-"
  | .list _ _ => "-"

def isSpliced (d : Dialect) (n : Node) : Bool := formOf d n == .unquoteSplicing

/-- A leaf as data: a symbol is its name. -/
def datumLeaf (v : Value) : String :=
  match v.symbol? with
  | some name => Target.quote name
  | none => Target.literal v

def requireAll (d : Dialect) : List Node → Emit Unit
  | [] => pure ()
  | n :: ns => do
    requireExpression d n
    requireAll d ns

def requireLast (d : Dialect) (ns : List Node) : Emit Unit :=
  match ns.getLast? with
  | some n => requireExpression d n
  | none => pure ()

def requireAssignment (es : List Node) (opening : Token) : Emit Unit :=
  if Node.head? es = some "=" then pure ()
  else
    match es with
    | [] => fail opening.pos .emptyDeclarator
    | n :: _ => fail n.leftmost (.declaratorHead n.surface)

/-- Requires an `else` to stand in the last clause and not in the first. -/
def requireLastClause (number : Nat) (rest : List Node) (test : Node) : Emit Unit :=
  if number = 1 then fail test.leftmost .elseFirst
  else if rest.isEmpty then pure ()
  else fail test.leftmost .elseNotLast

def existence (d : Dialect) (name : String) (op : Token) : List Node → Frame → Emit String
  | [n], f =>
    match n.symbol? with
    | some x =>
      pure (parenthesize (!f.statementLevel d) ("typeof " ++ x ++ " !== \"undefined\" && " ++ x ++ " !== null"))
    | none => fail n.leftmost (.existenceOfNonSymbol n.surface)
  | args, _ => fail op.pos (.notExactly name 1 args.length)

/-! ## The recursion -/

mutual

/-- The code of a node. -/
def node (d : Dialect) : Node → Frame → Emit String
  | .leaf v t, f => leaf d v t f
  | .list [] t, _ => fail t.pos .emptyList
  | .list (.list es t :: args) _, f => do
    requireExpression d (.list es t)
    let callee ← node d (.list es t) (f.under "call")
    let values ← operands d args (f.under "call")
    pure ("(" ++ callee ++ ")(" ++ ", ".intercalate values ++ ")")
  | .list (.leaf (.symbol name) op :: args) _, f =>
    match d.form name with
    | .declaration => do
      atLeast name op args 1
      let ds ← declarators d args (f.under "var")
      pure ("var " ++ ", ".intercalate ds)
    | .assignment => do
      atLeast name op args 2
      requireLast d args
      checkTargets d f args.dropLast
      let parts ← nodes d args (f.under "=")
      pure (" = ".intercalate parts)
    | .lambda => lambda d name op args f
    | .sequence => do
      atLeast name op args 1
      let body ← statements d args f.deeper f.tail
      pure (blockText f none body)
    | .conditional => do
      atLeast name op args 1
      let parts ← clauses d 1 args f
      pure ((f.newline ++ "else ").intercalate parts)
    | .when => guarded d name op "if (" "when" f.tail args f
    | .array => do
      let values ← operands d args (f.under "array")
      pure ("[" ++ ", ".intercalate values ++ "]")
    | .object =>
      if args.length % 2 = 0 then do
        let es ← entries d [] args (f.under "object").deeper
        pure (parenthesize f.statementPosition (if es.isEmpty then "\x7b\x7d" else objectText f es))
      else fail op.pos (.unpairedKey args.length)
    | .existence => existence d name op args f
    | .forLoop => forLoop d name op args f
    | .whileLoop => guarded d name op "while (" "while" false args f
    | .untilLoop => guarded d name op "while (!" "not" false args f
    | .quote => quotation d name op false args f
    | .quasiquote => quotation d name op true args f
    | .unquote | .unquoteSplicing => fail op.pos (.unquoteOutside name)
    | .ordinary | .unassigned _ =>
      match d.binaryOperators.get? name with
      | some target => operation d name op target args f
      | none =>
        match d.comparisons.get? name with
        | some target => comparison d name op target args f
        | none =>
          match d.unaryOperators.get? name with
          | some target => unary d name op target args f
          | none => do
            let values ← operands d args (f.under "call")
            pure (name ++ "(" ++ ", ".intercalate values ++ ")")
  | .list (.leaf v op :: _) _, _ => fail op.pos (.notCallable v.surface)
termination_by structural n => n

def nodes (d : Dialect) : List Node → Frame → Emit (List String)
  | [], _ => pure []
  | n :: ns, f => do
    let s ← node d n f
    let rest ← nodes d ns f
    pure (s :: rest)
termination_by structural ns => ns

def operands (d : Dialect) : List Node → Frame → Emit (List String)
  | [], _ => pure []
  | n :: ns, f => do
    requireExpression d n
    let s ← node d n f
    let rest ← operands d ns f
    pure (s :: rest)
termination_by structural ns => ns

/-- The statements of a block. With `tail` set the last one yields the value of the function around them. -/
def statements (d : Dialect) : List Node → Frame → Bool → Emit (List String)
  | [], _, _ => pure []
  | n :: ns, f, tail => do
    let (lead, f') := if tail && ns.isEmpty then tailPlace d n f else ("", f.under "begin")
    let s ← node d n f'
    let rest ← statements d ns f tail
    pure ((lead ++ s) :: rest)
termination_by structural ns => ns

/-- The declarators of a declaration: a name, a name followed by its initial value, or an assignment. -/
def declarators (d : Dialect) : List Node → Frame → Emit (List String)
  | [], _ => pure []
  | .list es t :: rest, f => do
    requireAssignment es t
    let s ← node d (.list es t) f
    let more ← declarators d rest f
    pure (s :: more)
  | [.leaf v t], f => do
    let s ← leaf d v t f
    pure [s]
  | .leaf v t :: n :: rest, f => do
    let s ← leaf d v t f
    if isInitializer n then
      requireExpression d n
      let value ← node d n (f.under "=")
      let more ← declarators d rest f
      pure ((s ++ " = " ++ value) :: more)
    else
      let more ← declarators d (n :: rest) f
      pure (s :: more)
termination_by structural ns => ns

/-- A function: its parameters are declared in a scope of its own, and its last statement yields its value. -/
def lambda (d : Dialect) (name : String) (op : Token) : List Node → Frame → Emit String
  | .list ps _ :: b :: body, f => do
    let scope ← enter f.scope
    let p ← parameters d scope 0 ps
    let ss ← statements d (b :: body) (f.within scope).deeper true
    pure (parenthesize f.statementPosition
      ("function(" ++ ", ".intercalate p.names ++ ") " ++ blockText f p.prelude ss))
  | n :: _ :: _, _ => fail n.leftmost (.notParameterList n.surface)
  | args, _ => fail op.pos (.tooFew name 2 args.length)
termination_by structural ns => ns

def clauses (d : Dialect) : Nat → List Node → Frame → Emit (List String)
  | _, [], _ => pure []
  | i, n@(.leaf _ _) :: _, _ => fail n.leftmost (.clauseNotList i n.surface)
  | i, n@(.list [] _) :: _, _ => fail n.leftmost (.clauseTooShort i)
  | i, n@(.list [_] _) :: _, _ => fail n.leftmost (.clauseTooShort i)
  | i, .list (test :: b :: body) _ :: rest, f => do
    let lead ← if test.symbol? = some "else" then do
        requireLastClause i rest test
        pure ""
      else do
        requireExpression d test
        let s ← node d test (f.under "if")
        pure ("if (" ++ s ++ ") ")
    let ss ← statements d (b :: body) f.deeper f.tail
    let more ← clauses d (i + 1) rest f
    pure ((lead ++ blockText f none ss) :: more)
termination_by structural _ ns => ns

/-- A block behind a test, which stands under the form `role`. -/
def guarded (d : Dialect) (name : String) (op : Token) (lead role : String) (tail : Bool) :
    List Node → Frame → Emit String
  | test :: b :: body, f => do
    requireExpression d test
    let s ← node d test (f.under role)
    let ss ← statements d (b :: body) f.deeper tail
    pure (lead ++ s ++ ") " ++ blockText f none ss)
  | args, _ => fail op.pos (.tooFew name 2 args.length)
termination_by structural ns => ns

/-- The entries of an object, given the property names before them. -/
def entries (d : Dialect) : List String → List Node → Frame → Emit (List String)
  | seen, k :: n :: rest, f => do
    let key ← key d k
    if key.name ∈ seen then fail k.leftmost (.duplicateKey key.text)
    requireExpression d n
    let s ← node d n f
    let more ← entries d (key.name :: seen) rest f
    pure ((key.text ++ ": " ++ s) :: more)
  | _, _, _ => pure []
termination_by structural _ ns => ns

/-- A loop that counts over an inclusive range. Its variable is declared in a scope of its own. -/
def forLoop (d : Dialect) (name : String) (op : Token) : List Node → Frame → Emit String
  | .leaf v t :: lo :: hi :: b :: body, f => do
    let scope ← enter f.scope
    declare d scope v t
    requireExpression d lo
    requireExpression d hi
    let x := Target.literal v
    let first ← node d lo ((f.within scope).under "=")
    let last ← node d hi ((f.within scope).under "<=")
    let ss ← statements d (b :: body) (f.within scope).deeper false
    pure ("for (var " ++ x ++ " = " ++ first ++ "; " ++ x ++ " <= " ++ last ++ "; " ++ x ++ "++) " ++
      blockText f none ss)
  | n :: _ :: _ :: _ :: _, _ => fail n.leftmost (.notLoopVariable n.surface)
  | args, _ => fail op.pos (.tooFew name 4 args.length)
termination_by structural ns => ns

/-- Arguments joined by an operator. A lone argument of `-` is negated. -/
def operation (d : Dialect) (name : String) (op : Token) (target : String) : List Node → Frame → Emit String
  | [], _ => fail op.pos (.tooFew name 2 0)
  | [n], f =>
    if name = "-" then do
      requireExpression d n
      let s ← node d n (f.under name)
      pure (parenthesize (!f.statementLevel d) (minus n ++ s))
    else fail op.pos (.tooFew name 2 1)
  | n :: m :: rest, f => do
    requireAll d (n :: m :: rest)
    let s ← node d n (f.under name)
    let more ← nodes d (m :: rest) (f.under name)
    pure (parenthesize (!f.statementLevel d) ((" " ++ target ++ " ").intercalate (s :: more)))
termination_by structural ns => ns

def comparison (d : Dialect) (name : String) (op : Token) (target : String) : List Node → Frame → Emit String
  | [n, m], f => do
    requireAll d [n, m]
    let s ← node d n (f.under name)
    let s' ← node d m (f.under name)
    pure (parenthesize (!f.statementLevel d) (s ++ " " ++ target ++ " " ++ s'))
  | args, _ => fail op.pos (.notExactly name 2 args.length)
termination_by structural ns => ns

def unary (d : Dialect) (name : String) (op : Token) (target : String) : List Node → Frame → Emit String
  | [n], f => do
    requireExpression d n
    let s ← node d n (f.under name)
    pure (target ++ s)
  | args, _ => fail op.pos (.notExactly name 1 args.length)
termination_by structural ns => ns

def quotation (d : Dialect) (name : String) (op : Token) (quasi : Bool) : List Node → Frame → Emit String
  | [n], f => datum d quasi n f
  | args, _ => fail op.pos (.notExactly name 1 args.length)
termination_by structural ns => ns

/-- A node as data: symbols become strings and lists become arrays. In a quasiquotation, `unquote` inserts code and
`unquote-splicing` the elements of an array. -/
def datum (d : Dialect) (quasi : Bool) : Node → Frame → Emit String
  | .leaf v _, _ => pure (datumLeaf v)
  | n@(.list es _), f =>
    match if quasi then formOf d n else .ordinary with
    | .unquote => inserted d "unquote" es f
    | .unquoteSplicing => fail n.leftmost .splicingOutsideList
    | _ =>
      if quasi && es.any (isSpliced d) then do
        let parts ← splices d es f
        pure ("[].concat(" ++ ", ".intercalate parts ++ ")")
      else do
        let parts ← data d quasi es f
        pure ("[" ++ ", ".intercalate parts ++ "]")
termination_by structural n => n

def inserted (d : Dialect) (role : String) : List Node → Frame → Emit String
  | [_, n], f => do
    requireExpression d n
    node d n (f.under role)
  | op :: args, _ => fail op.leftmost (.notExactly op.surface 1 args.length)
  | [], _ => pure "[]"
termination_by structural ns => ns

def data (d : Dialect) (quasi : Bool) : List Node → Frame → Emit (List String)
  | [], _ => pure []
  | n :: ns, f => do
    let s ← datum d quasi n f
    let rest ← data d quasi ns f
    pure (s :: rest)
termination_by structural ns => ns

/-- The arrays that a quasiquoted list is the concatenation of: the value of each spliced element, and each other
element as an array of one. -/
def splices (d : Dialect) : List Node → Frame → Emit (List String)
  | [], _ => pure []
  | .leaf v _ :: ns, f => do
    let rest ← splices d ns f
    pure (("[" ++ datumLeaf v ++ "]") :: rest)
  | .list es t :: ns, f => do
    let s ← if isSpliced d (.list es t) then inserted d "unquote-splicing" es f else do
        let s ← datum d true (.list es t) f
        pure ("[" ++ s ++ "]")
    let rest ← splices d ns f
    pure (s :: rest)
termination_by structural ns => ns

end

/-! ## Programs -/

def program (d : Dialect) (ns : List Node) : Emit (List String) := nodes d ns Frame.top

/-- The code of a program, each top-level node on lines of its own, or the first error; and the scopes after it. -/
def generate (d : Dialect) (scopes : ScopeTable) (ns : List Node) : Except CompileError String × ScopeTable :=
  let (result, scopes) := (program d ns).run.run scopes
  (result.map fun codes => String.join (codes.map (· ++ ";\n")), scopes)

end Emit
end QuasiScript
