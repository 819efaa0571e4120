import QuasiScript.Form
import QuasiScript.Number.Numeral
import QuasiScript.Table
import QuasiScript.Value

/-!
# Dialects

A dialect is the table-driven description of the surface syntax and of its mapping onto the target: which characters
delimit what, which punctuation and brackets abbreviate which lists, and what the heads of lists mean. It holds data
only. `Dialect.standard` is the language itself.
-/
namespace QuasiScript

structure Dialect where
  stringDelimiter : Char
  commentStart : Char
  escape : Char
  whitespace : List Char
  punctuation : List Char
  /-- Punctuation of more than one character; of several that fit, the first is taken. -/
  longPunctuation : List String
  /-- The close bracket for each open bracket. -/
  brackets : Table String
  /-- The symbol that a list in such a bracket begins with. -/
  bracketSugar : Table String
  /-- The symbol that a run of punctuation stands for. -/
  punctuationSugar : Table String
  specialForms : Table Form
  constants : Table Value
  binaryOperators : Table String
  unaryOperators : Table String
  comparisons : Table String
  /-- Heads of lists that are statements in the target. -/
  statements : List String
  /-- Words that the target keeps for itself. -/
  reserved : List String

namespace Dialect

def isWhitespace (d : Dialect) (c : Char) : Bool := d.whitespace.contains c

def isPunctuation (d : Dialect) (c : Char) : Bool := d.punctuation.contains c

def isOpen (d : Dialect) (s : String) : Bool := d.brackets.contains s

def isClose (d : Dialect) (s : String) : Bool := d.brackets.entries.any fun e => e.2 == s

/-- The close bracket for an open bracket, and the empty text for anything else. -/
def matching (d : Dialect) (s : String) : String := (d.brackets.get? s).getD ""

/-- Whether some abbreviation begins with a run of punctuation. -/
def beginsSugar (d : Dialect) (run : String) : Bool :=
  d.punctuationSugar.names.any fun key => run.toList.isPrefixOf key.toList

def form (d : Dialect) (head : String) : Form := (d.specialForms.get? head).getD .ordinary

def isStatement (d : Dialect) (head : String) : Bool := d.statements.contains head

def isReserved (d : Dialect) (name : String) : Bool := d.reserved.contains name

/-- The value of an atom: a number if its text is a numeral, else the constant of that name, else a symbol. -/
def atomValue (d : Dialect) (text : String) : Value :=
  match Numeral.parse? text.toList with
  | some n => .number text n.toDouble
  | none => (d.constants.get? text).getD (.symbol text)

/-- The language itself. -/
def standard : Dialect where
  stringDelimiter := '"'
  commentStart := ';'
  escape := '\\'
  whitespace := [' ', '\t', '\n', '\r']
  punctuation := ['\x27', '\x60', ',', '@', '#', '~', ':']
  longPunctuation := [",@"]
  brackets := ⟨[("(", ")"), ("[", "]"), ("\x7b", "\x7d")]⟩
  bracketSugar := ⟨[("[", "array"), ("\x7b", "object")]⟩
  punctuationSugar := ⟨[("'", "quote"), ("`", "quasiquote"), (",", "unquote"), (",@", "unquote-splicing")]⟩
  specialForms := ⟨[
    ("var", .declaration), ("=", .assignment), ("fun", .lambda), ("begin", .sequence), ("if", .conditional),
    ("when", .when), ("array", .array), ("object", .object), ("exists?", .existence), ("for", .forLoop),
    ("while", .whileLoop), ("until", .untilLoop), ("quote", .quote), ("quasiquote", .quasiquote),
    ("unquote", .unquote), ("unquote-splicing", .unquoteSplicing)]⟩
  constants := ⟨[
    ("true", .boolean true), ("false", .boolean false), ("null", .constant "null" "null"),
    ("undefined", .constant "undefined" "undefined"), ("NaN", .constant "NaN" "NaN"),
    ("Infinity", .constant "Infinity" "Infinity"), ("-Infinity", .constant "-Infinity" "-Infinity")]⟩
  binaryOperators := ⟨[
    ("+", "+"), ("-", "-"), ("*", "*"), ("/", "/"), ("and", "&&"), ("or", "||"), ("mod", "%")]⟩
  unaryOperators := ⟨[("not", "!")]⟩
  comparisons := ⟨[
    ("equal?", "==="), ("unequal?", "!=="), ("<", "<"), (">", ">"), ("<=", "<="), (">=", ">=")]⟩
  statements := [
    "=", "break", "continue", "delete", "for", "if", "label", "return", "var", "while", "begin", "when", "until"]
  reserved := [
    "break", "case", "catch", "class", "const", "continue", "debugger", "default", "delete", "do", "else", "enum",
    "export", "extends", "false", "finally", "for", "function", "if", "implements", "import", "in", "instanceof",
    "interface", "let", "new", "null", "package", "private", "protected", "public", "return", "static", "super",
    "switch", "this", "throw", "true", "try", "typeof", "var", "void", "while", "with", "yield"]

end Dialect
end QuasiScript
