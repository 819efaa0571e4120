import QuasiScript.Command.Tool

/-!
# The program

Loads what a tool may open, runs the tool, and carries out what it leaves behind. The first argument may name the tool.
There is no engine here, so code that is to be run does nothing.
-/
namespace QuasiScript
namespace Command

def readContents (path : String) : IO (Option String) := do
  try
    let bytes ← IO.FS.readBinFile path
    return some (String.ofList (Text.decode bytes.toList))
  catch _ => return none

def isPresent (path : String) : IO Bool := do
  try
    discard <| IO.FS.realPath path
    return true
  catch _ => return false

def loadParts (fs : FileSystem) (parts : List String) : IO FileSystem := do
  let path := Path.ofParts parts
  match ← readContents path with
  | some contents => return fs.set parts contents
  | none => if ← isPresent path then return { fs with folders := parts :: fs.folders } else return fs

def loadPath (fs : FileSystem) (path : String) : IO FileSystem := do
  let parts := fs.absolute path
  (List.range parts.length).foldlM (fun fs n => loadParts fs (parts.take (n + 1))) fs

/-- Writes the files that differ from what they were. -/
def save (before after : FileSystem) : IO Unit := do
  for (parts, contents) in after.files do
    if before.contents? parts != some contents then
      IO.FS.writeFile (Path.ofParts parts) contents

partial def readStream (stream : IO.FS.Stream) (sofar : ByteArray) : IO ByteArray := do
  let more ← stream.read 65536
  if more.isEmpty then return sofar else readStream stream (sofar ++ more)

/-- The text on the standard input of a tool; only the console has any. -/
def readInput (t : Tool) : IO String := do
  match t with
  | .console => return String.ofList (Text.decode (← readStream (← IO.getStdin) .empty).toList)
  | _ => return ""

def directoryIn (key : String) : IO (List String) := do
  return Path.normalParts ((← IO.getEnv key).getD "").toList

def perform (t : Tool) (arguments : List String) : IO UInt32 := do
  let home ← directoryIn "HOME"
  let working := Path.normalParts (toString (← IO.currentDir)).toList
  let files ← (t.paths arguments home).foldlM loadPath ⟨working, [], []⟩
  let outcome := t.run arguments ⟨.idle, files, home, ← readInput t⟩
  IO.print outcome.output
  IO.eprint outcome.errors
  save files outcome.files
  return outcome.exitCode.toUInt32

end Command
end QuasiScript

def main (arguments : List String) : IO UInt32 :=
  let (tool, rest) := QuasiScript.Command.Tool.select arguments
  QuasiScript.Command.perform tool rest
