import QuasiScript.Command.Outcome
import QuasiScript.Compilation
import QuasiScript.Engine

/-!
# Compiling files

The main command compiles one file into another and may run the code. A run that fails does not undo the compilation: the
code is in its file by then.
-/
namespace QuasiScript
namespace Command

inductive FileFailure where
  | unreadable (message : String)
  | failed (failure : Failure)
  | unwritable (path : String) (error : FileError)

namespace FileFailure

def message : FileFailure → String
  | .unreadable m => "failed to read input file: " ++ m
  | .failed f => "translation failed:\n" ++ f.message
  | .unwritable path e =>
    "failed to write output file " ++ Text.quoted path ++ ": open " ++ path ++ ": " ++ e.message

end FileFailure

structure FileResult where
  result : Except FileFailure String
  files : FileSystem
  records : List Log.Record

/-- Compiles one file into another. Nothing is written unless all of it compiles. -/
def compileFile (fs : FileSystem) (input output : String) : FileResult :=
  match fs.readSource input with
  | .error e => ⟨.error (.unreadable e), fs, [.file input]⟩
  | .ok source =>
    let c := Compilation.ofText .standard .initial input source.toList
    let records := .file input :: c.records
    match c.result with
    | .error f => ⟨.error (.failed f), fs, records⟩
    | .ok code =>
      match fs.write output code with
      | .error e => ⟨.error (.unwritable output e), fs, records⟩
      | .ok fs => ⟨.ok code, fs, records⟩

/-! ## The command -/

def fileFlags : List Flag := [
  ⟨"dev", .switch, "development logging: debug level with source locations"⟩,
  ⟨"in", .text "", "input QuasiScript file path"⟩,
  ⟨"log-format", .text "text", "log format: text or json"⟩,
  ⟨"out", .text "", "output JavaScript file path (default: input with .js extension)"⟩,
  ⟨"run", .switch, "run the generated code and print its value"⟩,
  ⟨"timeout", .duration "10s", "time limit for -run"⟩,
  ⟨"v", .switch, "log translation phases"⟩]

/-- The logger that the flags ask for. Development logging overrides the others. -/
def fileLogger (o : Options) : Except Log.SetupError Log.Logger :=
  if o.isOn "dev" then .ok (logger true .text)
  else
    let format := o.text "log-format" "text"
    match Log.Format.parse? format with
    | some f => .ok (logger (o.isOn "v") f)
    | none => .error (.unknownFormat format)

/-- Where the code goes: the named file, or the input with another extension. -/
def outputPath (o : Options) : String :=
  let out := o.text "out" ""
  if out = "" then Path.withExtension (o.text "in" "") ".js" else out

def compileCommand (engine : Engine) (program : String) (arguments : List String) (fs : FileSystem) : Outcome :=
  match parse fileFlags arguments with
  | .error e => .misused e program fileFlags fs
  | .ok options =>
    match fileLogger options with
    | .error e => ⟨2, "", "invalid logging configuration: " ++ e.message ++ "\n", fs⟩
    | .ok logger =>
      let input := options.text "in" ""
      if input = "" then
        ⟨2, "", "nothing to do: provide -in <file.qs>\n" ++ usage program fileFlags, fs⟩
      else
        let output := outputPath options
        let r := compileFile fs input output
        match r.result with
        | .error e => ⟨1, "", logText logger r.records ++ e.message ++ "\n", r.files⟩
        | .ok code =>
          let translated := "translated " ++ input ++ " -> " ++ output ++ "\n"
          if options.isOn "run" then
            let (ran, _) := engine.run (options.timeLimit? "10s") engine.start code
            match ran.result with
            | .error e =>
              ⟨1, translated ++ ran.output, logText logger (r.records ++ [.ran input (some e)]) ++
                "run failed for " ++ Text.quoted output ++ ": " ++ e ++ "\n", r.files⟩
            | .ok value =>
              ⟨0, translated ++ ran.output ++ value.line, logText logger (r.records ++ [.ran input none]), r.files⟩
          else ⟨0, translated, logText logger r.records, r.files⟩

end Command
end QuasiScript
