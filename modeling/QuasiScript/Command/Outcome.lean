import QuasiScript.Command.Flag
import QuasiScript.Log.Journal

/-!
# What a command leaves behind
-/
namespace QuasiScript
namespace Command

/-- The exit code of a command, what it wrote to both streams, and the files after it. -/
structure Outcome where
  exitCode : Nat
  output : String
  errors : String
  files : FileSystem

namespace Outcome

/-- A command line that cannot be used is answered with the usage message. -/
def misused (e : FlagError) (program : String) (flags : List Flag) (fs : FileSystem) : Outcome :=
  ⟨e.exitCode, "", e.message ++ usage program flags, fs⟩

end Outcome

/-- The logger of a command: it keeps to warnings unless everything is wanted. -/
def logger (verbose : Bool) (format : Log.Format) : Log.Logger :=
  ⟨if verbose then .debug else .warn, format, .stream .standardError⟩

def logText (l : Log.Logger) (rs : List Log.Record) : String := String.join ((l.lines rs).map (· ++ "\n"))

end Command
end QuasiScript
