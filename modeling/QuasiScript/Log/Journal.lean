import QuasiScript.FileSystem
import QuasiScript.Log.Record

/-!
# Where records go

Nothing is logged until a logger is set up. A logger writes records from its level upward to its file, if it has one,
and to its stream otherwise. The file is opened once, when the logger is set up, and closed when another takes its place
or when the logger is done away with. A set-up that fails changes nothing.
-/
namespace QuasiScript
namespace Log

/-- What lines can be written to apart from files, known by its name. -/
structure Stream where
  name : String
deriving DecidableEq

/-- The stream of a logger that is given none. -/
def Stream.standardError : Stream := ⟨"stderr"⟩

inductive Sink where
  | stream (s : Stream)
  /-- An opened file, by the number of its handle. -/
  | file (handle : Nat)
deriving DecidableEq

structure Logger where
  level : Level
  format : Format
  sink : Sink
deriving DecidableEq

namespace Logger

def accepts (l : Logger) (r : Record) : Bool := l.level.number ≤ r.level.number

def lines (l : Logger) (rs : List Record) : List String := (rs.filter l.accepts).map (Record.line l.format)

end Logger

/-- What a logger is to be set up with. No file is the empty name. A file takes precedence over the stream. -/
structure Config where
  level : Level
  format : String
  output : Option Stream
  file : String
deriving DecidableEq

inductive SetupError where
  | unknownFormat (format : String)
  | cannotOpen (file : String) (error : FileError)
deriving DecidableEq

namespace SetupError

def message : SetupError → String
  | .unknownFormat f => "unknown log format " ++ Text.quoted f
  | .cannotOpen file e => "open " ++ file ++ ": " ++ e.message

end SetupError

namespace Format

/-- The format that a word names; no word at all means text. -/
def parse? (s : String) : Option Format :=
  match s with
  | "json" => some .json
  | "text" | "" => some .text
  | _ => none

end Format

/-- The logger in use and the file held open for it, the files that handles stand for, closed ones left out, the lines
written to streams, and the files. -/
structure Journal where
  logger : Option Logger
  held : Option Nat
  handles : List (Option (List String))
  written : List (Stream × String)
  files : FileSystem

namespace Journal

def start (fs : FileSystem) : Journal := ⟨none, none, [], [], fs⟩

/-- One more handle stands for a file, which is made if it is missing. -/
def opened (j : Journal) (parts : List String) : Journal :=
  { j with handles := j.handles ++ [some parts], files := j.files.extend parts "" }

/-- Opens a file to add to it and gives its handle. There is nothing to open under the empty name. -/
def openFile (j : Journal) (file : String) : Except FileError (Option Nat) × Journal :=
  if file = "" then (.ok none, j)
  else
    match j.files.writable file with
    | .error e => (.error e, j)
    | .ok parts => (.ok (some j.handles.length), j.opened parts)

def closeFile (j : Journal) : Journal :=
  match j.held with
  | none => j
  | some n => { j with held := none, handles := j.handles.set n none }

def use (j : Journal) (l : Logger) (held : Option Nat) : Journal := { j with logger := some l, held := held }

/-- Sets a logger up. Its file is opened before the one that was held so far is closed. -/
def setup (j : Journal) (c : Config) : Except SetupError Unit × Journal :=
  match Format.parse? c.format with
  | none => (.error (.unknownFormat c.format), j)
  | some format =>
    match j.openFile c.file with
    | (.error e, opened) => (.error (.cannotOpen c.file e), opened)
    | (.ok none, opened) =>
      (.ok (), opened.closeFile.use ⟨c.level, format, .stream (c.output.getD .standardError)⟩ none)
    | (.ok (some n), opened) => (.ok (), opened.closeFile.use ⟨c.level, format, .file n⟩ (some n))

def reset (j : Journal) : Journal := { j.closeFile with logger := none }

/-- Writes a line. Nothing comes of it if the file was closed. -/
def write (j : Journal) (line : String) : Sink → Journal
  | .stream s => { j with written := j.written ++ [(s, line)] }
  | .file n =>
    match j.handles[n]? with
    | some (some parts) => { j with files := j.files.extend parts (line ++ "\n") }
    | _ => j

def log (j : Journal) (r : Record) : Journal :=
  match j.logger with
  | none => j
  | some l => if l.accepts r then j.write (r.line l.format) l.sink else j

def logAll (j : Journal) (rs : List Record) : Journal := rs.foldl log j

end Journal
end Log
end QuasiScript
