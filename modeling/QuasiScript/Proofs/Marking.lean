import QuasiScript.Emit.Node

/-!
# Programs with marks, and their texts

What a function returns can be decided before any text is written. A pass over a program marks the elements that are
returned (`Marked.mark`), and a printer writes a marked program (`Marked.print`): a marked element after `return`, and
every other one as it stands. The printer knows under which form it prints and how deep, but neither of functions around
it nor of scopes.
-/
namespace QuasiScript

/-- A node in which some elements are marked as returned. -/
inductive Marked where
  | leaf (returned : Bool) (value : Value) (token : Token)
  | list (returned : Bool) (elements : List Marked) (opening : Token)

namespace Marked
open Emit

def returned : Marked → Bool
  | .leaf r _ _ => r
  | .list r _ _ => r

mutual

def node : Marked → Node
  | .leaf _ v t => .leaf v t
  | .list _ es t => .list (nodes es) t

def nodes : List Marked → List Node
  | [] => []
  | m :: ms => m.node :: nodes ms

end

/-! ## Marking -/

/-- Whether a form in tail position is returned. Sequences and conditionals pass the duty to yield a value inward, and
declarations and loops have no value. -/
def yields : Form → Bool
  | .sequence | .conditional | .when | .declaration | .forLoop | .whileLoop | .untilLoop => false
  | _ => true

mutual

def plain : Node → Marked
  | .leaf v t => .leaf false v t
  | .list es t => .list false (plainEach es) t

def plainEach : List Node → List Marked
  | [] => []
  | n :: ns => plain n :: plainEach ns

end

mutual

/-- Marks what is returned in a node that is evaluated, and the node itself if it is the tail of a function. -/
def mark (d : Dialect) (tail : Bool) : Node → Marked
  | .leaf v t => .leaf tail v t
  | .list [] t => .list tail [] t
  | .list (n :: args) t =>
    let form := formOf d (.list (n :: args) t)
    .list (tail && yields form) (mark d false n :: match form with
      | .lambda => markLambda d args
      | .sequence => markFrom d 0 tail args
      | .when => markFrom d 1 tail args
      | .conditional => markClauses d tail args
      | .quote => plainEach args
      | .quasiquote => markTemplates d args
      | _ => markFrom d 0 false args) t
termination_by structural n => n

/-- Marks elements, of which the last one is a tail if `tail` is set and `k` or more elements stand before it. -/
def markFrom (d : Dialect) : Nat → Bool → List Node → List Marked
  | _, _, [] => []
  | k, tail, n :: ns => mark d (tail && k == 0 && ns.isEmpty) n :: markFrom d (k - 1) tail ns
termination_by structural _ _ ns => ns

def markLambda (d : Dialect) : List Node → List Marked
  | [] => []
  | ps :: body => plain ps :: markFrom d 0 true body
termination_by structural ns => ns

def markClauses (d : Dialect) (tail : Bool) : List Node → List Marked
  | [] => []
  | .leaf v t :: ns => .leaf false v t :: markClauses d tail ns
  | .list es t :: ns => .list false (markFrom d 1 tail es) t :: markClauses d tail ns
termination_by structural ns => ns

def markTemplate (d : Dialect) : Node → Marked
  | .leaf v t => .leaf false v t
  | .list es t => .list false (match formOf d (.list es t) with
      | .unquote | .unquoteSplicing => markFrom d 0 false es
      | _ => markTemplates d es) t
termination_by structural n => n

def markTemplates (d : Dialect) : List Node → List Marked
  | [] => []
  | n :: ns => markTemplate d n :: markTemplates d ns
termination_by structural ns => ns

end

section Equations
variable {d : Dialect}

def markArguments (d : Dialect) (form : Form) (tail : Bool) (args : List Node) : List Marked :=
  match form with
  | .lambda => markLambda d args
  | .sequence => markFrom d 0 tail args
  | .when => markFrom d 1 tail args
  | .conditional => markClauses d tail args
  | .quote => plainEach args
  | .quasiquote => markTemplates d args
  | _ => markFrom d 0 false args

theorem mark_cons (n : Node) (args : List Node) (t : Token) (tail : Bool) :
    mark d tail (.list (n :: args) t) = .list (tail && yields (formOf d (.list (n :: args) t)))
      (mark d false n :: markArguments d (formOf d (.list (n :: args) t)) tail args) t := rfl

theorem exists_mark_list (es : List Node) (t : Token) (tail : Bool) :
    ∃ r ms, mark d tail (.list es t) = .list r ms t := by
  cases es <;> exact ⟨_, _, rfl⟩

theorem markFrom_succ (n : Node) (ns : List Node) (k : Nat) (tail : Bool) :
    markFrom d (k + 1) tail (n :: ns) = mark d false n :: markFrom d k tail ns := by
  simp [markFrom]

theorem markFrom_zero (n : Node) (ns : List Node) (tail : Bool) :
    markFrom d 0 tail (n :: ns) = mark d (tail && ns.isEmpty) n :: markFrom d 0 tail ns := by
  simp [markFrom]

/-- Without a tail nothing depends on how many elements stand before. -/
theorem markFrom_false (ns : List Node) (k : Nat) : markFrom d k false ns = markFrom d 0 false ns := by
  induction ns generalizing k with
  | nil => rfl
  | cons n ns ih =>
    cases k with
    | zero => rfl
    | succ k => rw [markFrom_succ, markFrom_zero, ih k, Bool.false_and]

end Equations

mutual

@[simp] theorem node_plain : ∀ n : Node, (plain n).node = n
  | .leaf _ _ => rfl
  | .list es t => by rw [plain, node, nodes_plainEach]

@[simp] theorem nodes_plainEach : ∀ ns : List Node, nodes (plainEach ns) = ns
  | [] => rfl
  | n :: ns => by rw [plainEach, nodes, node_plain, nodes_plainEach]

end

section Erase
variable {d : Dialect}

mutual

/-- Marking leaves the program as it is. -/
@[simp] theorem node_mark : ∀ (n : Node) (tail : Bool), (mark d tail n).node = n
  | .leaf _ _, _ => rfl
  | .list [] _, _ => rfl
  | .list (n :: args) t, tail => by
    rw [mark, node, nodes, node_mark n false]
    congr 2
    split
    · exact nodes_markLambda args
    · exact nodes_markFrom args 0 tail
    · exact nodes_markFrom args 1 tail
    · exact nodes_markClauses args tail
    · exact nodes_plainEach args
    · exact nodes_markTemplates args
    · exact nodes_markFrom args 0 false

@[simp] theorem nodes_markFrom : ∀ (ns : List Node) (k : Nat) (tail : Bool), nodes (markFrom d k tail ns) = ns
  | [], _, _ => rfl
  | n :: ns, k, tail => by rw [markFrom, nodes, node_mark, nodes_markFrom]

@[simp] theorem nodes_markLambda : ∀ ns : List Node, nodes (markLambda d ns) = ns
  | [] => rfl
  | ps :: body => by rw [markLambda, nodes, node_plain, nodes_markFrom]

@[simp] theorem nodes_markClauses : ∀ (ns : List Node) (tail : Bool), nodes (markClauses d tail ns) = ns
  | [], _ => rfl
  | .leaf _ _ :: ns, tail => by rw [markClauses, nodes, node, nodes_markClauses]
  | .list es _ :: ns, tail => by rw [markClauses, nodes, node, nodes_markFrom, nodes_markClauses]

@[simp] theorem node_markTemplate : ∀ n : Node, (markTemplate d n).node = n
  | .leaf _ _ => rfl
  | .list es t => by
    rw [markTemplate, node]
    congr 1
    split
    · exact nodes_markFrom es 0 false
    · exact nodes_markFrom es 0 false
    · exact nodes_markTemplates es

@[simp] theorem nodes_markTemplates : ∀ ns : List Node, nodes (markTemplates d ns) = ns
  | [] => rfl
  | n :: ns => by rw [markTemplates, nodes, node_markTemplate, nodes_markTemplates]

end

end Erase

/-! ## Printing -/

/-- Where an element is printed: directly under which form, and in how many blocks and objects. -/
structure Site where
  parent : Parent
  depth : Nat

namespace Site

def top : Site := ⟨.top, 0⟩

def under (p : Site) (name : String) : Site := ⟨.form name, p.depth⟩

def deeper (p : Site) : Site := ⟨p.parent, p.depth + 1⟩

def frame (p : Site) : Frame := ⟨Scope.global, p.parent, false, p.depth⟩

end Site

end Marked

def Frame.site (f : Frame) : Marked.Site := ⟨f.parent, f.depth⟩

@[simp] theorem Frame.site_under (f : Frame) (name : String) : (f.under name).site = f.site.under name := rfl

@[simp] theorem Frame.site_deeper (f : Frame) : f.deeper.site = f.site.deeper := rfl

@[simp] theorem Frame.statementLevel_site (f : Frame) (d : Dialect) :
    f.site.frame.statementLevel d = f.statementLevel d := rfl

@[simp] theorem Frame.statementPosition_site (f : Frame) : f.site.frame.statementPosition = f.statementPosition := rfl

@[simp] theorem Frame.newline_site (f : Frame) : f.site.frame.newline = f.newline := rfl

@[simp] theorem Frame.tail_under (f : Frame) (name : String) : (f.under name).tail = false := rfl

namespace Marked
open Emit

def parameterTexts : Nat → List Node → Parameters
  | i, .leaf v _ :: rest =>
    if v = .symbol "." then
      ⟨[], match rest with
        | [.leaf r _] => some (collectRest (Target.literal r) i)
        | _ => none⟩
    else
      let more := parameterTexts (i + 1) rest
      ⟨Target.literal v :: more.names, more.prelude⟩
  | _, _ => ⟨[], none⟩

def existenceText (d : Dialect) (p : Site) : List Node → String
  | [n] =>
    let x := n.symbol?.getD ""
    parenthesize (!p.frame.statementLevel d) ("typeof " ++ x ++ " !== \"undefined\" && " ++ x ++ " !== null")
  | _ => ""

mutual

/-- **The text of a marked element.** -/
def print (d : Dialect) : Marked → Site → String
  | .leaf r v _, _ => (if r then "return " else "") ++ Target.literal v
  | .list r es _, p => (if r then "return " else "") ++ printList d es (if r then p.under "return" else p)
termination_by structural m => m

def printEach (d : Dialect) : List Marked → Site → List String
  | [], _ => []
  | m :: ms, p => print d m p :: printEach d ms p
termination_by structural ms => ms

def printList (d : Dialect) : List Marked → Site → String
  | .list r es t :: args, p =>
    "(" ++ print d (.list r es t) (p.under "call") ++ ")(" ++ ", ".intercalate (printEach d args (p.under "call")) ++ ")"
  | .leaf _ (.symbol name) _ :: args, p =>
    match d.form name with
    | .declaration => "var " ++ ", ".intercalate (printDeclarators d args (p.under "var"))
    | .assignment => " = ".intercalate (printEach d args (p.under "="))
    | .lambda => printLambda d args p
    | .sequence => blockText p.frame none (printEach d args (p.deeper.under "begin"))
    | .conditional => (p.frame.newline ++ "else ").intercalate (printClauses d args p)
    | .when => printGuarded d "if (" "when" args p
    | .array => "[" ++ ", ".intercalate (printEach d args (p.under "array")) ++ "]"
    | .object =>
      let es := printEntries d args (p.under "object").deeper
      parenthesize p.frame.statementPosition (if es.isEmpty then "\x7b\x7d" else objectText p.frame es)
    | .existence => existenceText d p (nodes args)
    | .forLoop => printFor d args p
    | .whileLoop => printGuarded d "while (" "while" args p
    | .untilLoop => printGuarded d "while (!" "not" args p
    | .quote => printQuotation d false args p
    | .quasiquote => printQuotation d true args p
    | .unquote | .unquoteSplicing => ""
    | .ordinary | .unassigned _ =>
      match d.binaryOperators.get? name with
      | some target => printOperation d name target args p
      | none =>
        match d.comparisons.get? name with
        | some target => printOperation d name target args p
        | none =>
          match d.unaryOperators.get? name with
          | some target => target ++ String.join (printEach d args (p.under name))
          | none => name ++ "(" ++ ", ".intercalate (printEach d args (p.under "call")) ++ ")"
  | _, _ => ""
termination_by structural ms => ms

def printDeclarators (d : Dialect) : List Marked → Site → List String
  | [], _ => []
  | .list r es t :: rest, p => print d (.list r es t) p :: printDeclarators d rest p
  | [.leaf _ v _], _ => [Target.literal v]
  | .leaf _ v _ :: m :: rest, p =>
    if isInitializer m.node then
      (Target.literal v ++ " = " ++ print d m (p.under "=")) :: printDeclarators d rest p
    else Target.literal v :: printDeclarators d (m :: rest) p
termination_by structural ms => ms

def printLambda (d : Dialect) : List Marked → Site → String
  | .list _ ps _ :: body, p =>
    let parameters := parameterTexts 0 (nodes ps)
    parenthesize p.frame.statementPosition ("function(" ++ ", ".intercalate parameters.names ++ ") " ++
      blockText p.frame parameters.prelude (printEach d body (p.deeper.under "begin")))
  | _, _ => ""
termination_by structural ms => ms

def printClauses (d : Dialect) : List Marked → Site → List String
  | .list _ (test :: body) _ :: rest, p =>
    ((if test.node.symbol? = some "else" then "" else "if (" ++ print d test (p.under "if") ++ ") ") ++
      blockText p.frame none (printEach d body (p.deeper.under "begin"))) :: printClauses d rest p
  | _, _ => []
termination_by structural ms => ms

def printGuarded (d : Dialect) (lead role : String) : List Marked → Site → String
  | test :: body, p =>
    lead ++ print d test (p.under role) ++ ") " ++ blockText p.frame none (printEach d body (p.deeper.under "begin"))
  | _, _ => ""
termination_by structural ms => ms

def printEntries (d : Dialect) : List Marked → Site → List String
  | .leaf _ v _ :: m :: rest, p => ((keyOf d v).text ++ ": " ++ print d m p) :: printEntries d rest p
  | _, _ => []
termination_by structural ms => ms

def printFor (d : Dialect) : List Marked → Site → String
  | .leaf _ v _ :: lo :: hi :: body, p =>
    let x := Target.literal v
    "for (var " ++ x ++ " = " ++ print d lo (p.under "=") ++ "; " ++ x ++ " <= " ++ print d hi (p.under "<=") ++ "; " ++
      x ++ "++) " ++ blockText p.frame none (printEach d body (p.deeper.under "begin"))
  | _, _ => ""
termination_by structural ms => ms

def printOperation (d : Dialect) (name target : String) : List Marked → Site → String
  | [m], p => parenthesize (!p.frame.statementLevel d) (minus m.node ++ print d m (p.under name))
  | m :: ms, p => parenthesize (!p.frame.statementLevel d)
      ((" " ++ target ++ " ").intercalate (print d m (p.under name) :: printEach d ms (p.under name)))
  | [], _ => ""
termination_by structural ms => ms

def printQuotation (d : Dialect) (quasi : Bool) : List Marked → Site → String
  | [m], p => printDatum d quasi m p
  | _, _ => ""
termination_by structural ms => ms

def printDatum (d : Dialect) (quasi : Bool) : Marked → Site → String
  | .leaf _ v _, _ => datumLeaf v
  | .list _ es t, p =>
    match if quasi then formOf d (.list (nodes es) t) else .ordinary with
    | .unquote => printInserted d "unquote" es p
    | .unquoteSplicing => ""
    | _ =>
      if quasi && (nodes es).any (isSpliced d) then "[].concat(" ++ ", ".intercalate (printSplices d es p) ++ ")"
      else "[" ++ ", ".intercalate (printData d quasi es p) ++ "]"
termination_by structural m => m

def printInserted (d : Dialect) (role : String) : List Marked → Site → String
  | [_, m], p => print d m (p.under role)
  | _, _ => "[]"
termination_by structural ms => ms

def printData (d : Dialect) (quasi : Bool) : List Marked → Site → List String
  | [], _ => []
  | m :: ms, p => printDatum d quasi m p :: printData d quasi ms p
termination_by structural ms => ms

def printSplices (d : Dialect) : List Marked → Site → List String
  | [], _ => []
  | .leaf _ v _ :: ms, p => ("[" ++ datumLeaf v ++ "]") :: printSplices d ms p
  | .list r es t :: ms, p =>
    (if isSpliced d (.list (nodes es) t) then printInserted d "unquote-splicing" es p
      else "[" ++ printDatum d true (.list r es t) p ++ "]") :: printSplices d ms p
termination_by structural ms => ms

end

theorem printFor_cons {d : Dialect} (r : Bool) (v : Value) (t : Token) (lo hi : Marked) (body : List Marked) (p : Site) :
    printFor d (.leaf r v t :: lo :: hi :: body) p =
      "for (var " ++ Target.literal v ++ " = " ++ print d lo (p.under "=") ++ "; " ++ Target.literal v ++ " <= " ++
        print d hi (p.under "<=") ++ "; " ++ Target.literal v ++ "++) " ++
        blockText p.frame none (printEach d body (p.deeper.under "begin")) := rfl

end Marked

end QuasiScript
