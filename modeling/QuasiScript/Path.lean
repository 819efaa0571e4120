/-!
# Paths

A path is a text; its parts are divided by slashes.
-/
namespace QuasiScript
namespace Path

/-- The extension of a path: from the last dot of its last part on, or nothing. -/
def extension (path : List Char) : List Char :=
  let name := path.reverse.takeWhile (· != '/')
  if '.' ∈ name then '.' :: (name.takeWhile (· != '.')).reverse else []

def withExtension (path ext : String) : String :=
  String.ofList (path.toList.take (path.toList.length - (extension path.toList).length)) ++ ext

def parts (path : List Char) : List String := (path.splitOn '/').map String.ofList

/-- Goes on from the parts of a directory: empty parts and `.` change nothing, and `..` goes back by one part. Nothing
lies above the root. -/
def resolveParts (base : List String) (ps : List String) : List String := ps.foldl step base
where
  step (base : List String) (part : String) : List String :=
    if part = "" ∨ part = "." then base
    else if part = ".." then base.dropLast
    else base ++ [part]

def normalParts (path : List Char) : List String := resolveParts [] (parts path)

def ofParts (ps : List String) : String := "/" ++ "/".intercalate ps

def normalize (path : String) : String := ofParts (normalParts path.toList)

def directory (path : String) : String := ofParts (normalParts path.toList).dropLast

end Path
end QuasiScript
