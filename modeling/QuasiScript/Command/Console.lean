import QuasiScript.Command.Outcome
import QuasiScript.Command.Prompt
import QuasiScript.Compilation
import QuasiScript.Engine
import QuasiScript.Text.Utf8

/-!
# The console

The console reads units at its prompt, compiles each in one session and runs it in one engine, shows the code and the
value, and keeps a history of the units in a file. Declarations persist from unit to unit.
-/
namespace QuasiScript
namespace Console

/-! ## Input lines -/

/-- A line of this many bytes does not fit the input buffer. -/
def bufferSize : Nat := 4096

/-- The lines of a text. The first component is a line without its newline, the second whether it had one. -/
def splitLines (text : List Char) : List (List Char × Bool) :=
  let parts := text.splitOn '\n'
  parts.dropLast.map (·, true) ++
    match parts.getLast? with
    | some (c :: cs) => [(c :: cs, false)]
    | _ => []

def bytes (cs : List Char) : List UInt8 := (String.ofList cs).toUTF8.toList

def carriageReturn : UInt8 := 13

/-- The bytes of a line without the carriage return before its newline. -/
def chomp (line : List UInt8) : List UInt8 :=
  if line.getLast? = some carriageReturn then line.dropLast else line

/-- How much of a line fits the buffer: all of it but a carriage return at the very end, which may belong to the end of
the line. -/
def fitting (line : List UInt8) : Nat :=
  if (line.take bufferSize).getLast? = some carriageReturn then bufferSize - 1 else bufferSize

/-- A line as it arrives: in one piece if it fits the buffer, else in several. -/
def pieces (ended : Bool) (line : List UInt8) : List (List UInt8) :=
  if line.length < bufferSize then
    if ended then [chomp line] else if line.isEmpty then [] else [line]
  else line.take (fitting line) :: pieces ended (line.drop (fitting line))
termination_by line.length
decreasing_by
  have h : bufferSize = 4096 := rfl
  simp only [List.length_drop, fitting]
  split <;> omega

def answers (input : String) : List Prompt.Answer :=
  (splitLines input.toList).flatMap fun (line, ended) =>
    (pieces ended (bytes line)).map fun p => .line (String.ofList (Text.decode p))

/-! ## History -/

def historyLimit : Nat := 1000

/-- The history with one more entry; the oldest goes when there are too many. -/
def remember (history : List String) (entry : String) : List String :=
  (history ++ [entry]).drop (history.length + 1 - historyLimit)

/-- The history with one more entry, unless it repeats the last one. -/
def record (history : List String) (entry : String) : List String :=
  if history.getLast? = some entry then history else remember history entry

/-- The history that a file holds, up to the first line that does not fit the buffer. -/
def readHistory (contents : String) : List String :=
  let lines := (splitLines contents.toList).takeWhile fun l => (bytes l.1).length < bufferSize
  (lines.map fun (line, ended) =>
    if ended then String.ofList (Text.decode (chomp (bytes line))) else String.ofList line).foldl remember []

def historyText (history : List String) : String := String.join (history.map (· ++ "\n"))

def historyFile : String := ".quasiscript_history"

/-! ## Units -/

def red (s : String) : String := "\x1b[31m" ++ s ++ "\x1b[0m"

def green (s : String) : String := "\x1b[32m" ++ s ++ "\x1b[0m"

def yellow (s : String) : String := "\x1b[33m" ++ s ++ "\x1b[0m"

structure State (engine : Engine) where
  session : Session
  memory : engine.Memory
  /-- How many units were evaluated, successfully or not. -/
  evaluated : Nat
  history : List String
  output : String
  errors : String

namespace State
variable {engine : Engine}

/-- Compiles a unit, runs it within a time limit, and shows its code and its value, or the error of either. -/
def evaluate (logger : Log.Logger) (limit : Option Nat) (s : State engine) (unit : String) : State engine :=
  let name := "repl-" ++ toString (s.evaluated + 1)
  let (c, session) := s.session.compile name unit.toList
  let history := record s.history (String.ofList (unit.toList.map fun c => if c = '\n' then ' ' else c))
  match c.result with
  | .error e =>
    ⟨session, s.memory, s.evaluated + 1, history, s.output,
      s.errors ++ Command.logText logger c.records ++ red e.message ++ "\n"⟩
  | .ok code =>
    let (ran, memory) := engine.run limit s.memory code
    let output := s.output ++ ran.output ++ (if code = "" then "" else yellow code)
    match ran.result with
    | .error e =>
      ⟨session, memory, s.evaluated + 1, history, output,
        s.errors ++ Command.logText logger (c.records ++ [.ran name (some e)]) ++ red e ++ "\n"⟩
    | .ok value =>
      ⟨session, memory, s.evaluated + 1, history, output ++ green value.text ++ "\n",
        s.errors ++ Command.logText logger (c.records ++ [.ran name none])⟩

def print (s : State engine) (text : String) : State engine := { s with output := s.output ++ text }

def run (logger : Log.Logger) (limit : Option Nat) : State engine → List Prompt.Attempt → State engine
  | s, [] => s
  | s, a :: rest =>
    let s := s.print (String.join a.prompts)
    match a.unit with
    | none => s.print "\n"
    | some unit =>
      let word := Text.trim unit
      if word = "" then run logger limit s rest
      else if word.toList.head? = some ':' then
        if Text.lower word = ":quit" then s
        else run logger limit (s.print "unknown command. Type :quit to exit.\n") rest
      else run logger limit (s.evaluate logger limit unit) rest

end State

/-! ## The command -/

def banner : String := "QuasiScript. Type :quit to exit; end a line with \\ to continue it."

def flags : List Command.Flag := [
  ⟨"timeout", .duration "5s", "time limit for running one unit"⟩,
  ⟨"v", .switch, "log translation phases to stderr"⟩]

/-- Runs the console on redirected input. The history lies in the home directory; if it cannot be written there, it is
not kept. -/
def command (engine : Engine) (program : String) (arguments : List String) (home : List String) (input : String)
    (fs : FileSystem) : Command.Outcome :=
  match Command.parse flags arguments with
  | .error e => .misused e program flags fs
  | .ok options =>
    let logger := Command.logger (options.isOn "v") .text
    let path := home ++ [historyFile]
    let history := readHistory ((fs.contents? path).getD "")
    let start : State engine := ⟨.start .standard, engine.start, 0, history, banner ++ "\n", ""⟩
    let s := start.run logger (options.timeLimit? "5s") (Prompt.readUnits (answers input))
    ⟨0, s.output, s.errors, ((fs.write (Path.ofParts path) (historyText s.history)).toOption).getD fs⟩

end Console
end QuasiScript
