import QuasiScript.Command.Flag
import QuasiScript.Command.Outcome
import QuasiScript.Emit.Node
import QuasiScript.Reading

/-!
# Reports

A report shows all that becomes of a source text: its tokens, what was read, the code and the scopes.
-/
namespace QuasiScript

inductive Progress where
  | unread (error : ReadError)
  | ungenerated (error : CompileError)
  | generated (surface code scopes : String)

structure Report where
  name : String
  source : String
  tokens : List Lexed
  progress : Progress

namespace Report

def ofSource (name source : String) : Report :=
  let d := Dialect.standard
  let reading := Reading.ofText d source.toList
  let progress := match reading.error with
    | some e => .unread e
    | none =>
      match Emit.generate d .initial reading.nodes with
      | (.error e, _) => .ungenerated e
      | (.ok code, scopes) => .generated (Node.unparse reading.nodes) code scopes.describe
  ⟨name, source, (Scan.ofText d source.toList).lexed, progress⟩

def failed (r : Report) : Bool :=
  match r.progress with
  | .generated _ _ _ => false
  | _ => true

def records (r : Report) : List Log.Record := [.tokenized r.name r.tokens.length]

def text (r : Report) : String :=
  "== " ++ r.name ++ "\n" ++
  "Source:\n" ++ r.source ++ "\n" ++
  "Tokens (" ++ toString r.tokens.length ++ ")\n" ++
  String.join (r.tokens.map fun t => "  " ++ t.describe ++ "\n") ++ "\n" ++
  match r.progress with
  | .unread e => "read error: " ++ e.message ++ "\n"
  | .ungenerated e => "codegen error: " ++ e.message ++ "\n"
  | .generated surface code scopes =>
    "AST\n" ++ surface ++ "\n\n" ++ "Generated code\n" ++ code ++ "\n" ++ scopes

/-- What reporting on files gives: a report for each, or why the first unreadable one cannot be read; and the records on
the way. -/
structure Batch where
  result : Except String (List Report)
  records : List Log.Record

def ofFiles (fs : FileSystem) : List String → Batch
  | [] => ⟨.ok [], []⟩
  | path :: paths =>
    match fs.readSource path with
    | .error e => ⟨.error e, [.file path]⟩
    | .ok source =>
      let r := ofSource path source
      let more := ofFiles fs paths
      ⟨more.result.map (r :: ·), .file path :: r.records ++ more.records⟩

/-! ## The command -/

/-- What is reported on when no file is named. -/
def sample : String := "(var sqr (fun (x) (* x x)))\n(var xs [1 2 3])\n(sqr (+ 1 4))\n"

def flags : List Command.Flag := [⟨"v", .switch, "log translation phases to stderr"⟩]

def command (program : String) (arguments : List String) (fs : FileSystem) : Command.Outcome :=
  match Command.parse flags arguments with
  | .error e => .misused e program flags fs
  | .ok options =>
    let logger := Command.logger (options.isOn "v") .text
    let batch := if options.arguments.isEmpty then
        let r := ofSource "<built-in>" sample
        ⟨.ok [r], r.records⟩
      else ofFiles fs options.arguments
    match batch.result with
    | .error e => ⟨1, "", Command.logText logger batch.records ++ "read error: " ++ e ++ "\n", fs⟩
    | .ok reports =>
      ⟨if reports.any failed then 1 else 0, String.join (reports.map text), Command.logText logger batch.records, fs⟩

end Report
end QuasiScript
