import QuasiScript.Position
import QuasiScript.Text.Quoted

/-!
# What can go wrong while generating code

A cause holds the source text of the nodes it speaks about.
-/
namespace QuasiScript

inductive CompileCause where
  | emptyList
  | expressionExpected (text : String)
  | notExactly (head : String) (wanted given : Nat)
  | tooFew (head : String) (wanted given : Nat)
  | illegalName (text : String)
  | reservedWord (name : String)
  | redeclared (name : String) (previous : Position)
  | unquoteOutside (head : String)
  | splicingOutsideList
  /-- A declarator that is the empty list. -/
  | emptyDeclarator
  /-- A declarator that is a list with another head than `=`. -/
  | declaratorHead (text : String)
  | illegalTarget (text : String)
  | undeclared (name : String)
  | clauseNotList (number : Nat) (text : String)
  | clauseTooShort (number : Nat)
  | elseFirst
  | elseNotLast
  | notParameterList (text : String)
  | illegalParameter (text : String)
  | restParameter
  | keyNotAtom (text : String)
  | unpairedKey (given : Nat)
  | duplicateKey (key : String)
  | existenceOfNonSymbol (text : String)
  | notLoopVariable (text : String)
  | notCallable (text : String)
deriving DecidableEq

namespace CompileCause

/-- The word `argument`, in the number that fits. -/
def arguments (n : Nat) : String := if n = 1 then "argument" else "arguments"

def message : CompileCause → String
  | .emptyList => "Empty list cannot be compiled."
  | .expressionExpected text => "Expression expected, not " ++ text ++ "."
  | .notExactly head wanted given =>
    head ++ " takes exactly " ++ toString wanted ++ " " ++ arguments wanted ++ "; " ++ toString given ++ " given."
  | .tooFew head wanted given =>
    head ++ " takes at least " ++ toString wanted ++ " " ++ arguments wanted ++ "; " ++ toString given ++ " given."
  | .illegalName text => "Illegal symbol name " ++ text ++ "."
  | .reservedWord name => name ++ " is a reserved word and cannot be declared."
  | .redeclared name previous =>
    "Symbol " ++ Text.quoted name ++ " was previously declared at " ++ previous.describe
  | .unquoteOutside head => head ++ " is only allowed inside a quasiquoted expression."
  | .splicingOutsideList => "unquote-splicing is only allowed inside a quasiquoted list."
  | .emptyDeclarator => "Expected operator =, not ()."
  | .declaratorHead text => "Expected operator =, not " ++ text
  | .illegalTarget text => "Illegal assignment target " ++ text ++ "."
  | .undeclared name => "Undeclared variable " ++ name
  | .clauseNotList number text =>
    "Clause " ++ toString number ++ " of the if-statement must be a list, not " ++ text ++ "."
  | .clauseTooShort number =>
    "Clause " ++ toString number ++ " of the if-statement needs a test and at least one statement."
  | .elseFirst => "else is not allowed in the first clause of an if-statement."
  | .elseNotLast => "else must be the last clause of an if-statement."
  | .notParameterList text => "fun expects a parameter list, not " ++ text ++ "."
  | .illegalParameter text => "Illegal parameter " ++ text ++ "."
  | .restParameter => "Exactly one rest parameter must follow \".\"."
  | .keyNotAtom text => "Object keys must be atoms, not " ++ text ++ "."
  | .unpairedKey given =>
    "object takes key/value pairs; " ++ toString given ++ " " ++ arguments given ++ " given."
  | .duplicateKey key => "Duplicate key " ++ key ++ " in object."
  | .existenceOfNonSymbol text => "exists? expects a symbol, not " ++ text ++ "."
  | .notLoopVariable text => "for expects a loop variable, not " ++ text ++ "."
  | .notCallable text => text ++ " is not callable."

end CompileCause

structure CompileError where
  pos : Position
  cause : CompileCause
deriving DecidableEq

namespace CompileError

def text (e : CompileError) : String := e.cause.message

def message (e : CompileError) : String := e.pos.label e.text

end CompileError
end QuasiScript
