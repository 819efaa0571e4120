import QuasiScript.Command.Duration
import QuasiScript.Text.Quoted

/-!
# Command lines

Arguments that begin with a dash set flags, until the first one that does not. A flag is a switch or takes a value, which
follows after `=` or as the next argument.
-/
namespace QuasiScript
namespace Command

/-- What a flag takes, with its value when it is not given. -/
inductive FlagKind where
  | switch
  | text (default : String)
  | duration (default : String)

structure Flag where
  name : String
  kind : FlagKind
  usage : String

/-- The flags that were set, last first, and the other arguments. -/
structure Options where
  settings : List (String × String)
  arguments : List String

inductive FlagError where
  | help
  | badFlag (argument : String)
  | notDefined (name : String)
  | missingValue (name : String)
  | badSwitch (name value : String)
  | badValue (name value : String)
deriving DecidableEq

namespace FlagError

/-- What is said before the usage message. A call for help needs no words. -/
def message : FlagError → String
  | .help => ""
  | .badFlag argument => "bad flag syntax: " ++ argument ++ "\n"
  | .notDefined name => "flag provided but not defined: -" ++ name ++ "\n"
  | .missingValue name => "flag needs an argument: -" ++ name ++ "\n"
  | .badSwitch name value => "invalid boolean value " ++ Text.quoted value ++ " for -" ++ name ++ ": parse error\n"
  | .badValue name value => "invalid value " ++ Text.quoted value ++ " for flag -" ++ name ++ ": parse error\n"

def exitCode : FlagError → Nat
  | .help => 0
  | _ => 2

end FlagError

/-! ## Reading arguments -/

def switchValue? (s : String) : Option Bool :=
  if s ∈ ["1", "t", "T", "TRUE", "true", "True"] then some true
  else if s ∈ ["0", "f", "F", "FALSE", "false", "False"] then some false
  else none

inductive Argument where
  | plain
  | terminator
  | malformed
  | flag (name : String) (value : Option String)
deriving DecidableEq

/-- Splits the text after the dashes at its first `=`. -/
def splitValue (cs : List Char) : Argument :=
  let name := String.ofList (cs.takeWhile (· != '='))
  match cs.dropWhile (· != '=') with
  | [] => .flag name none
  | _ :: value => .flag name (some (String.ofList value))

/-- What an argument is. A dash alone is no flag, and two dashes end the flags. -/
def classify (argument : String) : Argument :=
  let body := fun cs => match cs with
    | [] | '-' :: _ | '=' :: _ => Argument.malformed
    | cs => splitValue cs
  match argument.toList with
  | ['-'] => .plain
  | ['-', '-'] => .terminator
  | '-' :: '-' :: cs => body cs
  | '-' :: cs => body cs
  | _ => .plain

def suits (kind : FlagKind) (value : String) : Bool :=
  match kind with
  | .duration _ => (duration? value).isSome
  | _ => true

def parseFrom (flags : List Flag) (settings : List (String × String)) : List String → Except FlagError Options
  | [] => .ok ⟨settings, []⟩
  | argument :: rest =>
    match classify argument with
    | .plain => .ok ⟨settings, argument :: rest⟩
    | .terminator => .ok ⟨settings, rest⟩
    | .malformed => .error (.badFlag argument)
    | .flag name value =>
      match flags.find? fun f => f.name == name with
      | none => .error (if name = "help" ∨ name = "h" then .help else .notDefined name)
      | some flag =>
        match flag.kind with
        | .switch =>
          match switchValue? (value.getD "true") with
          | some b => parseFrom flags ((name, if b then "true" else "false") :: settings) rest
          | none => .error (.badSwitch name (value.getD "true"))
        | kind =>
          match value with
          | some value =>
            if suits kind value then parseFrom flags ((name, value) :: settings) rest
            else .error (.badValue name value)
          | none =>
            match rest with
            | [] => .error (.missingValue name)
            | value :: rest =>
              if suits kind value then parseFrom flags ((name, value) :: settings) rest
              else .error (.badValue name value)

def parse (flags : List Flag) (arguments : List String) : Except FlagError Options := parseFrom flags [] arguments

namespace Options

def text (o : Options) (name default : String) : String := (o.settings.lookup name).getD default

def isOn (o : Options) (name : String) : Bool := o.settings.lookup name == some "true"

/-- The time limit that the options set, in nanoseconds. Nothing at all or less than nothing sets none. -/
def timeLimit? (o : Options) (default : String) : Option Nat :=
  match duration? (o.text "timeout" default) with
  | some n => if 0 < n then some n.toNat else none
  | none => none

end Options

/-! ## Usage -/

namespace Flag

/-- How the usage message presents a flag: its name and the kind of its value, then what it does and what holds without
it. A switch with a name of one letter has all of it on one line. -/
def describe (f : Flag) : String :=
  let (kind, default) := match f.kind with
    | .switch => ("", "")
    | .text default => (" string", if default = "" then "" else " (default " ++ Text.quoted default ++ ")")
    | .duration default => (" duration", " (default " ++ default ++ ")")
  let lead := "  -" ++ f.name ++ kind
  lead ++ (if lead.utf8ByteSize ≤ 4 then "\t" else "\n    \t") ++ f.usage ++ default ++ "\n"

end Flag

/-- The usage message of a program, its flags in order of names. -/
def usage (program : String) (flags : List Flag) : String :=
  "Usage of " ++ program ++ ":\n" ++ String.join (flags.map Flag.describe)

end Command
end QuasiScript
