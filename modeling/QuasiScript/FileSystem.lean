import QuasiScript.Path

/-!
# Files

A file is known by the parts of its absolute path. Every proper beginning of these parts is a directory, and so are the
working directory, from which relative paths start, and the directories around it.
-/
namespace QuasiScript

inductive FileError where
  | notFound
  | notDirectory
  | isDirectory
  | nameTooLong
  | invalidName
deriving DecidableEq

namespace FileError

def message : FileError → String
  | .notFound => "no such file or directory"
  | .notDirectory => "not a directory"
  | .isDirectory => "is a directory"
  | .nameTooLong => "file name too long"
  | .invalidName => "invalid argument"

end FileError

/-- The working directory, the contents of all files, and directories that may hold none. -/
structure FileSystem where
  working : List String
  files : List (List String × String)
  folders : List (List String)

inductive Place where
  | directory (parts : List String)
  | file (parts : List String)
  /-- Nothing yet, in a directory that exists. -/
  | vacant (parts : List String)

namespace FileSystem

def contents? (fs : FileSystem) (parts : List String) : Option String := fs.files.lookup parts

def isDirectory (fs : FileSystem) (parts : List String) : Bool :=
  (fs.working :: fs.folders).any parts.isPrefixOf ||
    fs.files.any fun f => parts.isPrefixOf f.1 && f.1 != parts

def enter (fs : FileSystem) (here : List String) (part : String) : Place :=
  if part = "" ∨ part = "." then .directory here
  else if part = ".." then .directory here.dropLast
  else if (fs.contents? (here ++ [part])).isSome then .file (here ++ [part])
  else if fs.isDirectory (here ++ [part]) then .directory (here ++ [part])
  else .vacant (here ++ [part])

/-- No part of a path may have more bytes than this. -/
def longestName : Nat := 255

/-- A path must have fewer bytes than this. -/
def pathLimit : Nat := 4096

/-- Why a path cannot be followed at all, whatever it leads to. -/
def pathError? (path : String) : Option FileError :=
  if path.toList.contains '\x00' then some .invalidName
  else if pathLimit ≤ path.utf8ByteSize then some .nameTooLong
  else none

/-- Follows parts from a place. Only directories can be entered. -/
def follow (fs : FileSystem) : Place → List String → Except FileError Place
  | place, [] => .ok place
  | .directory here, part :: rest =>
    if longestName < part.utf8ByteSize then .error .nameTooLong else follow fs (fs.enter here part) rest
  | .file _, _ :: _ => .error .notDirectory
  | .vacant _, _ :: _ => .error .notFound

/-- The parts to follow when a path is to be opened for writing. A slash at the end asks for a directory, and the name
before it is then not even looked up. -/
def writtenParts (parts : List String) : List String :=
  let named := (parts.reverse.dropWhile (· == "")).reverse
  if named.length < parts.length then named.dropLast ++ ["."] else parts

def resolve (fs : FileSystem) (path : String) : Except FileError Place :=
  match pathError? path with
  | some e => .error e
  | none =>
    match path.toList with
    | [] => .error .notFound
    | '/' :: cs => fs.follow (.directory []) (writtenParts (Path.parts cs))
    | cs => fs.follow (.directory fs.working) (writtenParts (Path.parts cs))

def set (fs : FileSystem) (parts : List String) (contents : String) : FileSystem :=
  { fs with files := fs.files.filter (fun f => f.1 != parts) ++ [(parts, contents)] }

def writable (fs : FileSystem) (path : String) : Except FileError (List String) :=
  match fs.resolve path with
  | .error e => .error e
  | .ok (.directory _) => .error .isDirectory
  | .ok (.file parts) => .ok parts
  | .ok (.vacant parts) => .ok parts

def write (fs : FileSystem) (path contents : String) : Except FileError FileSystem :=
  (fs.writable path).map fun parts => fs.set parts contents

/-- Adds to a file, which is there from then on. -/
def extend (fs : FileSystem) (parts : List String) (more : String) : FileSystem :=
  fs.set parts ((fs.contents? parts).getD "" ++ more)

/-- The parts of the absolute form of a path, with nothing left to resolve. -/
def absolute (fs : FileSystem) (path : String) : List String :=
  match path.toList with
  | '/' :: cs => Path.normalParts cs
  | cs => Path.resolveParts fs.working (Path.parts cs)

/-- Reads a source file, or tells why not. The path is resolved before anything is opened. -/
def readSource (fs : FileSystem) (path : String) : Except String String :=
  let parts := fs.absolute path
  let full := Path.ofParts parts
  let problem := fun (verb : String) (e : FileError) =>
    "read " ++ full ++ ": " ++ verb ++ " " ++ full ++ ": " ++ e.message
  match pathError? full with
  | some e => .error (problem "open" e)
  | none =>
    match fs.follow (.directory []) parts with
    | .error e => .error (problem "open" e)
    | .ok (.vacant _) => .error (problem "open" .notFound)
    | .ok (.directory _) => .error (problem "read" .isDirectory)
    | .ok (.file parts) => .ok ((fs.contents? parts).getD "")

end FileSystem
end QuasiScript
