import Pathwise.Text.Parts

/-!
# Files and directories

The files and directories that a run sees.  A place is the list of names on the way to it from the
root.  A path is a text: its names are divided by slashes, an empty name or a dot stays in place,
two dots go up, and everything on the way has to be a directory.  Names and paths have a greatest
length in bytes, and no path holds a null character.
-/

namespace Pathwise

/-- The names on the way from the root. -/
abbrev Place := List String

inductive DiskError where
  | noSuchFile
  | isDirectory
  | notDirectory
  | alreadyThere
  | tooLong
  | nullByte
deriving Repr, DecidableEq, Inhabited

namespace DiskError

def message : DiskError → String
  | noSuchFile => "[Errno 2] No such file or directory"
  | isDirectory => "[Errno 21] Is a directory"
  | notDirectory => "[Errno 20] Not a directory"
  | alreadyThere => "[Errno 17] File exists"
  | tooLong => "[Errno 36] File name too long"
  | nullByte => "embedded null byte"

end DiskError

/-- Files with their texts, and directories. -/
structure Disk where
  files : List (Place × String)
  directories : List Place
deriving Inhabited

namespace Disk

def empty : Disk := ⟨[], []⟩

def file? (d : Disk) (p : Place) : Option String :=
  (d.files.find? (·.1 = p)).map (·.2)

def isDirectory (d : Disk) (p : Place) : Bool :=
  p.isEmpty || d.directories.contains p

def names (path : String) : List String :=
  Text.parts '/' path

def step (p : Place) (name : String) : Place :=
  if name = "" || name = "." then p
  else if name = ".." then p.dropLast
  else p ++ [name]

/-- The place that a path from a directory means, whatever is there. -/
def resolve (p : Place) (path : String) : Place :=
  (names path).foldl step p

/-- The greatest length of a name in bytes. -/
def maxName : Nat := 255

/-- The length in bytes that no path reaches. -/
def maxPath : Nat := 4096

/-- Follows names from a place; all that is stepped through has to be a directory. -/
def follow (d : Disk) (p : Place) : List String → Except DiskError Place
  | [] => .ok p
  | [name] => if maxName < name.utf8ByteSize then .error .tooLong else .ok (step p name)
  | name :: rest =>
    let q := step p name
    if maxName < name.utf8ByteSize then .error .tooLong
    else if d.isDirectory q then d.follow q rest
    else if (d.file? q).isSome then .error .notDirectory
    else .error .noSuchFile

/-- The place that a path means when it is read at the directory `home`. -/
def locate (d : Disk) (home : Place) (path : String) : Except DiskError Place :=
  if path.isEmpty then .error .noSuchFile
  else if path.toList.contains '\x00' then .error .nullByte
  else if maxPath ≤ path.utf8ByteSize then .error .tooLong
  else d.follow (if path.startsWith "/" then [] else home) (names path)

/-- The directory in which a place lies exists. -/
def hasParent (d : Disk) (p : Place) : Bool :=
  d.isDirectory p.dropLast

/-- Replaces the text of a file in its place in the list, or adds the file. -/
def putFile (p : Place) (text : String) : List (Place × String) → List (Place × String)
  | [] => [(p, text)]
  | (q, old) :: rest => if q = p then (p, text) :: rest else (q, old) :: putFile p text rest

/-- Adds to the text of a file, which comes into being if it is not there. -/
def extendFile (p : Place) (text : String) : List (Place × String) → List (Place × String)
  | [] => [(p, text)]
  | (q, old) :: rest =>
    if q = p then (p, old ++ text) :: rest else (q, old) :: extendFile p text rest

def put (d : Disk) (p : Place) (text : String) : Disk :=
  { d with files := putFile p text d.files }

def extend (d : Disk) (p : Place) (text : String) : Disk :=
  { d with files := extendFile p text d.files }

def removeFile (d : Disk) (p : Place) : Disk :=
  { d with files := d.files.filter (·.1 ≠ p) }

def wayTo (p : Place) : List Place :=
  (List.range p.length).map fun n => p.take (n + 1)

def makeDirectories (d : Disk) (p : Place) : Disk :=
  { d with
    directories :=
      (wayTo p).foldl (fun ds q => if ds.contains q then ds else ds ++ [q]) d.directories }

def removeTree (d : Disk) (p : Place) : Disk :=
  ⟨d.files.filter fun f => !p.isPrefixOf f.1, d.directories.filter fun q => !p.isPrefixOf q⟩

/-- Writes a file and makes the directories on the way to it. -/
def provide (d : Disk) (p : Place) (text : String) : Disk :=
  (d.makeDirectories p.dropLast).put p text

def filesIn (d : Disk) (p : Place) : List Place :=
  (d.files.filter fun f => f.1.dropLast = p && !f.1.isEmpty).map (·.1)

def directoriesIn (d : Disk) (p : Place) : List Place :=
  d.directories.filter fun q => q.dropLast = p && !q.isEmpty

/-- The files below a directory, by the names that lead on from there. -/
def below (d : Disk) (p : Place) : List (Place × String) :=
  d.files.filterMap fun (q, text) => if p.isPrefixOf q then some (q.drop p.length, text) else none

/-- The files below a directory that are different on another disk, with their texts there, and
those that are gone. -/
def changesBelow (d e : Disk) (p : Place) : List (Place × Option String) :=
  let old := d.below p
  let new := e.below p
  (new.filter fun (q, t) => old.lookup q != some t).map (fun (q, t) => (q, some t)) ++
    (old.filter fun (q, _) => (new.lookup q).isNone).map fun (q, _) => (q, none)

end Disk

end Pathwise
