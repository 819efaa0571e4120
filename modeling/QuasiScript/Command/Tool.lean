import QuasiScript.Command.Console
import QuasiScript.Command.File
import QuasiScript.Command.Report

/-!
# The tools

There are three tools: one compiles a file, one reports on files, and one is a console. Each is a function of its
arguments, the files, its input and the engine that code is run with.
-/
namespace QuasiScript
namespace Command

inductive Tool where
  | compiler
  | reporter
  | console
deriving DecidableEq

/-- What a tool is run in: the engine, the files, the home directory and the text on its standard input. -/
structure Surroundings where
  engine : Engine
  files : FileSystem
  home : List String
  input : String

namespace Tool

def name : Tool → String
  | .compiler => "quasiscript"
  | .reporter => "qsc"
  | .console => "repl"

def ofName? (s : String) : Option Tool := [compiler, reporter, console].find? fun t => t.name == s

/-- The tool that arguments ask for with the first of them, and the arguments for it. The compiler need not be named. -/
def select : List String → Tool × List String
  | [] => (.compiler, [])
  | a :: rest =>
    match ofName? a with
    | some t => (t, rest)
    | none => (.compiler, a :: rest)

def run (t : Tool) (arguments : List String) (s : Surroundings) : Outcome :=
  match t with
  | .compiler => compileCommand s.engine t.name arguments s.files
  | .reporter => Report.command t.name arguments s.files
  | .console => Console.command s.engine t.name arguments s.home s.input s.files

/-- The paths that a tool may open, given its arguments. -/
def paths (t : Tool) (arguments : List String) (home : List String) : List String :=
  match t with
  | .compiler =>
    match parse fileFlags arguments with
    | .error _ => []
    | .ok o => [o.text "in" "", outputPath o]
  | .reporter =>
    match parse Report.flags arguments with
    | .error _ => []
    | .ok o => o.arguments
  | .console => [Path.ofParts (home ++ [Console.historyFile])]

end Tool
end Command
end QuasiScript
