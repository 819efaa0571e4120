/-!
# Special forms

The leading symbol of a list may select a form with a rule of its own. Every other list is an operator or a call.
-/
namespace QuasiScript

/-- The rule that the leading symbol of a list selects. -/
inductive Form where
  /-- No special form. -/
  | ordinary
  | declaration
  | assignment
  | lambda
  | sequence
  | conditional
  | when
  | array
  | object
  | existence
  | forLoop
  | whileLoop
  | untilLoop
  | quote
  | quasiquote
  | unquote
  | unquoteSplicing
  /-- A number that stands for no form: such a list is an ordinary one. -/
  | unassigned (number : Int)
deriving DecidableEq

namespace Form

def name : Form → String
  | .ordinary => "NONE"
  | .declaration => "DECLARATION"
  | .assignment => "ASSIGNMENT"
  | .lambda => "LAMBDA"
  | .sequence => "SEQUENCE"
  | .conditional => "CONDITIONAL"
  | .when => "WHEN"
  | .array => "ARRAY"
  | .object => "OBJECT"
  | .existence => "EXISTENCE"
  | .forLoop => "FOR"
  | .whileLoop => "WHILE"
  | .untilLoop => "UNTIL"
  | .quote => "QUOTE"
  | .quasiquote => "QUASIQUOTE"
  | .unquote => "UNQUOTE"
  | .unquoteSplicing => "UNQUOTE_SPLICING"
  | .unassigned n => "Form(" ++ toString n ++ ")"

/-- The forms that have a number, in the order of their numbers. -/
def all : List Form :=
  [.ordinary, .declaration, .assignment, .lambda, .sequence, .conditional, .when, .array, .object, .existence,
   .forLoop, .whileLoop, .untilLoop, .quote, .quasiquote, .unquote, .unquoteSplicing]

def ofNumber (n : Int) : Form :=
  match n with
  | .ofNat k => (all[k]?).getD (.unassigned n)
  | .negSucc _ => .unassigned n

end Form
end QuasiScript
