import ExactLinear.CommandLine.Startup

/-!
# Directories

A `Directory` is a working directory among text files, as far as the program can see and change
them. There are no other directories than those that lead to it or to a file. A path is a way
through the directories, from the outermost one if it starts with a slash and from the working
directory otherwise. A name or a path that is too long leads nowhere.
-/

namespace ExactLinear.CommandLine

/-- A place among the directories, from the outermost one inwards. -/
abbrev Location := List String

/-- A working directory among text files. -/
structure Directory where
  /-- The place of the working directory. -/
  place : Location
  files : List (Location × String)
deriving DecidableEq, Repr

namespace Directory

/-- The most bytes that a name has. -/
def nameLimit : Nat := 255

/-- The most bytes that a path has. -/
def pathLimit : Nat := 4095

/-- The parts of a path between its slashes. -/
def parts (path : String) : List String := (path.toList.splitOnP (· = '/')).map String.ofList

/-- A part that stays where it is. -/
def staysHere (part : String) : Bool := part.isEmpty || part = "."

/-- Where a path starts that is followed from a place. -/
def origin (place : Location) (path : String) : Location :=
  if path.toList.head? = some '/' then [] else place

/-- The absolute path of the working directory. -/
def path (d : Directory) : String := "/" ++ "/".intercalate d.place

/-- The working directory at a place, among files with the given paths. -/
def ofFiles (place : Location) (files : List (String × String)) : Directory where
  place := place
  files := files.map fun (path, content) =>
    (origin place path ++ (parts path).filter (!staysHere ·), content)

/-- Whether there is a directory at a place. -/
def isDirectory (d : Directory) (place : Location) : Bool :=
  place.isPrefixOf d.place || d.files.any fun (p, _) => place.isPrefixOf p && p ≠ place

/-- Follows the parts of a path, starting from a place. Every part but the last leads into a
directory; the outermost directory is its own parent. -/
def follow (d : Directory) (place : Location) : List String → Option Location
  | [] => some place
  | part :: rest =>
    if !d.isDirectory place then none
    else if staysHere part then d.follow place rest
    else if part = ".." then d.follow place.dropLast rest
    else if nameLimit < part.utf8ByteSize then none
    else d.follow (place ++ [part]) rest

/-- The place that a path leads to. No path is empty or has a null character in it. -/
def locate? (d : Directory) (path : String) : Option Location :=
  if path.isEmpty || pathLimit < path.utf8ByteSize || path.toList.contains '\x00' then none
  else d.follow (origin d.place path) (parts path)

/-- What stands at a path. -/
def look (d : Directory) (path : String) : FileState :=
  match d.locate? path with
  | none => .absent
  | some place =>
    if d.isDirectory place then .directory
    else
      match d.files.lookup place with
      | some content => .ofContent place content
      | none => .absent

/-- Writes a file, which succeeds where a directory contains it and none is in its place. -/
def write? (d : Directory) (path content : String) : Option Directory :=
  match d.locate? path with
  | none => none
  | some place =>
    if d.isDirectory place then none
    else some { d with files := (place, content) :: d.files.filter (·.1 ≠ place) }

/-- The text of a file. -/
def text? (d : Directory) (path : String) : Option String := (d.look path).content?

end Directory

end ExactLinear.CommandLine
