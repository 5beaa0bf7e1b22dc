/-!
# Reading files

How the text of a script is obtained: a path is looked up, the bytes found are read as UTF-8, and
all line ends become newlines. A `Folder` is a folder given by its contents, in which paths are
looked up the way a file system does it.

## Main definitions

* `ReadFailure`: why a path cannot be read, with its wording.
* `Folder.read`: the bytes of a file in a folder.
* `unifyLineEnds`: a text in which all line ends are newlines.
-/

namespace Lox

/-- Why a path cannot be read. -/
inductive ReadFailure
  | missing
  | isFolder
  | notFolder
  | other (reason : String)
  deriving DecidableEq, Repr, Inhabited

/-- The wording of a failure. -/
def ReadFailure.message : ReadFailure → String
  | missing => "No such file or directory"
  | isFolder => "Is a directory"
  | notFolder => "Not a directory"
  | other reason => reason

/-- A text in which every carriage return, alone or in front of a newline, has become a
newline. -/
def unifyLineEnds : List Char → List Char
  | '\r' :: '\n' :: cs => '\n' :: unifyLineEnds cs
  | '\r' :: cs => '\n' :: unifyLineEnds cs
  | c :: cs => c :: unifyLineEnds cs
  | [] => []

/-- The contents of a folder: paths, and the bytes of those that are files. -/
abbrev Folder := List (List String × Option ByteArray)

namespace Folder

/-- The parts of a path that say something: neither empty nor the folder itself. -/
def parts (path : String) : List String :=
  (path.splitOn "/").filter fun p => p ≠ "" ∧ p ≠ "."

/-- Whether a path of parts lies in front of some path of the folder. -/
def isInner (f : Folder) (path : List String) : Bool :=
  path.isEmpty || f.any fun (p, bytes) =>
    path.isPrefixOf p && (bytes.isNone || path.length < p.length)

/-- The bytes of the file at a path of parts. -/
def file? (f : Folder) (path : List String) : Option ByteArray :=
  (f.lookup path).bind id

/-- Looks up the rest of a path from a place in the folder; there is no place outside. -/
def walk (f : Folder) (place : Option (List String)) : List String → Except ReadFailure ByteArray
  | [] =>
    match place.bind (file? f) with
    | some bytes => .ok bytes
    | none => .error .isFolder
  | p :: ps =>
    match place with
    | none => if p = ".." then walk f none ps else .error .missing
    | some path =>
      if (file? f path).isSome then .error .notFolder
      else if p = ".." then walk f (if path.isEmpty then none else some path.dropLast) ps
      else if (file? f (path ++ [p])).isSome || isInner f (path ++ [p]) then
        walk f (some (path ++ [p])) ps
      else .error .missing

/-- The bytes of the file at a path. -/
def read (f : Folder) (path : String) : Except ReadFailure ByteArray :=
  walk f (if path.startsWith "/" then none else some []) (parts path)

end Folder

end Lox
