import QuasiScript.Token
import QuasiScript.Value

/-!
# Nodes

A program is a list of nodes. A node is a leaf with a value, or a list of nodes; both remember the token they came from.
`Node.surface` writes a node back as source text, with every abbreviation spelt out.
-/
namespace QuasiScript

/-- A leaf with the token it was read from, or a list with the token that opened it. -/
inductive Node where
  | leaf (value : Value) (token : Token)
  | list (elements : List Node) (opening : Token)

namespace Node

def token : Node → Token
  | .leaf _ t => t
  | .list _ t => t

def pos (n : Node) : Position := n.token.pos

def symbol? : Node → Option String
  | .leaf v _ => v.symbol?
  | .list _ _ => none

def head? : List Node → Option String
  | [] => none
  | n :: _ => n.symbol?

mutual

def surface : Node → String
  | .leaf v _ => v.surface
  | .list es _ => "(" ++ " ".intercalate (surfaces es) ++ ")"

def surfaces : List Node → List String
  | [] => []
  | n :: ns => surface n :: surfaces ns

end

/-- The source text of a program, one top-level node on each line. -/
def unparse (nodes : List Node) : String := "\n".intercalate (surfaces nodes)

def leftmost : Node → Position
  | .leaf _ t => t.pos
  | .list [] t => t.pos
  | .list (n :: _) _ => leftmost n

end Node
end QuasiScript
