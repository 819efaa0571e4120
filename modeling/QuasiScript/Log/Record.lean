import QuasiScript.Position
import QuasiScript.Text.Lower
import QuasiScript.Text.Quoted

/-!
# Log records

A record has a level, a message and named fields. It is written on one line, either as `key=value` pairs or as an
object.
-/
namespace QuasiScript
namespace Log

inductive Level where
  | debug
  | info
  | warn
  | error
deriving DecidableEq

namespace Level

def number : Level → Nat
  | .debug => 0
  | .info => 1
  | .warn => 2
  | .error => 3

def name : Level → String
  | .debug => "DEBUG"
  | .info => "INFO"
  | .warn => "WARN"
  | .error => "ERROR"

/-- The level with a number. Numbers without a level mean `info`. -/
def ofNumber (n : Int) : Level :=
  match n with
  | 0 => .debug
  | 2 => .warn
  | 3 => .error
  | _ => .info

/-- The level that a word names, in any case. No word at all means `info`. -/
def parse? (s : String) : Option Level :=
  match Text.lower s with
  | "debug" => some .debug
  | "info" | "" => some .info
  | "warn" | "warning" => some .warn
  | "error" => some .error
  | _ => none

def unknownMessage (s : String) : String := "unknown log level " ++ Text.quoted s

end Level

inductive Field where
  | text (s : String)
  | number (n : Int)
deriving DecidableEq

structure Record where
  level : Level
  message : String
  fields : List (String × Field)
deriving DecidableEq

/-! ## Writing a record -/

inductive Format where
  | text
  | json
deriving DecidableEq

/-- Characters that make a text stand in quotes: the space, the quote, the equals sign, control characters, and beyond
ASCII the unprintable ones and the replacement character. -/
def needsQuotes (c : Char) : Bool :=
  let n := c.toNat
  c == ' ' || c == '"' || c == '=' || n < 0x20 || (0x80 ≤ n && (!Text.isPrintable c || n == 0xfffd))

def textForm (s : String) : String :=
  if s.isEmpty || s.toList.any needsQuotes then Text.quoted s else s

def escapeJson (c : Char) : List Char :=
  match c with
  | '"' => ['\\', '"']
  | '\\' => ['\\', '\\']
  | '\n' => ['\\', 'n']
  | '\r' => ['\\', 'r']
  | '\t' => ['\\', 't']
  | c =>
    if c.toNat < 0x20 ∨ c.toNat = 0x2028 ∨ c.toNat = 0x2029 then '\\' :: 'u' :: Text.hex 4 c.toNat else [c]

def jsonForm (s : String) : String := String.ofList ('"' :: s.toList.flatMap escapeJson ++ ['"'])

namespace Record

def allFields (r : Record) : List (String × Field) :=
  ("level", .text r.level.name) :: ("msg", .text r.message) :: r.fields

def textField : String × Field → String
  | (key, .text s) => textForm key ++ "=" ++ textForm s
  | (key, .number n) => textForm key ++ "=" ++ toString n

def jsonField : String × Field → String
  | (key, .text s) => jsonForm key ++ ":" ++ jsonForm s
  | (key, .number n) => jsonForm key ++ ":" ++ toString n

def line (format : Format) (r : Record) : String :=
  match format with
  | .text => " ".intercalate (r.allFields.map textField)
  | .json => "\x7b" ++ ",".intercalate (r.allFields.map jsonField) ++ "\x7d"

/-! ## The records of the tools -/

/-- A record with fields given as alternating keys and values. A key left alone is kept as a value. -/
def ofArguments (level : Level) (message : String) (args : List String) : Record :=
  ⟨level, message, pairs args⟩
where
  pairs : List String → List (String × Field)
    | key :: value :: rest => (key, .text value) :: pairs rest
    | [key] => [("!BADKEY", .text key)]
    | [] => []

def phase (unit phase : String) : Record := ⟨.debug, "Starting phase", [("unit", .text unit), ("phase", .text phase)]⟩

def tokenized (unit : String) (n : Int) : Record :=
  ⟨.debug, "Tokenizing complete", [("unit", .text unit), ("tokens", .number n)]⟩

def read (unit : String) (n : Int) : Record :=
  ⟨.debug, "Reading complete", [("unit", .text unit), ("expressions", .number n)]⟩

def generated (unit : String) (n : Int) : Record :=
  ⟨.debug, "Code generation complete", [("unit", .text unit), ("bytes", .number n)]⟩

def failed (phase unit : String) (pos : Position) (message : String) : Record :=
  ⟨.error, "Translation error",
    [("phase", .text phase), ("unit", .text unit), ("line", .number pos.line), ("column", .number pos.column),
     ("message", .text message)]⟩

def file (name : String) : Record := ⟨.info, "Processing file", [("file", .text name)]⟩

def ran (unit : String) (error : Option String) : Record :=
  match error with
  | none => ⟨.debug, "Run complete", [("unit", .text unit)]⟩
  | some e => ⟨.warn, "Run failed", [("unit", .text unit), ("error", .text e)]⟩

end Record
end Log
end QuasiScript
