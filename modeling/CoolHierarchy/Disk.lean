import CoolHierarchy.Path

/-!
# Directories and files

What a program sees of the place where its files lie. A look-up says what is found under a path;
`Disk` is such a place by value, with all that is in it.
-/

namespace CoolHierarchy

/-- What is found under a path. -/
inductive Entry where
  | missing
  /-- Nothing can be there: the path leads through a file, or is no path at all. -/
  | blocked
  | directory
  /-- A file whose bytes spell no text. -/
  | binary
  | text (s : String)
deriving DecidableEq, Repr, Inhabited

namespace Entry

def text? : Entry → Option String
  | text s => some s
  | _ => none

/-- A file by its bytes, which spell a text if they are UTF-8. -/
def ofBytes (bytes : ByteArray) : Entry :=
  match String.fromUTF8? bytes with
  | some s => text s
  | none => binary

end Entry

/-- A tree of directories with a place in it to work from. What is in it is listed by the names on
the way to it from the top; a directory exists as well when something is listed below it, and the
working directory always exists. -/
structure Disk where
  entries : List (List String × Entry) := []
  home : List String := ["work"]
deriving DecidableEq, Repr, Inhabited

namespace Disk

/-- The segments of a path, taken from the top. -/
def way (d : Disk) (path : String) : List String :=
  if Path.isAbsolute path then Path.segments path else d.home ++ Path.segments path

/-- The names on the way to what a path without detours leads to. -/
def placeOf (d : Disk) (path : String) : List String :=
  (d.way path).filter fun s => !Path.isIdle s

def put (d : Disk) (path : String) (entry : Entry) : Disk :=
  { d with entries := (d.placeOf path, entry) :: d.entries }

/-- What is at a place. -/
def entryAt (d : Disk) (place : List String) : Entry :=
  match d.entries.lookup place with
  | some entry => entry
  | none =>
    if place.isPrefixOf d.home || d.entries.any (place.isPrefixOf ·.1) then .directory
    else .missing

/-- The longest name that an entry of a directory can have, in bytes. -/
def maxName : Nat := 255

/-- The longest path, in bytes. -/
def maxPath : Nat := 4095

/-- Follows segments from a place. The top directory is above itself. -/
def follow (d : Disk) (place : List String) : List String → Entry
  | [] => d.entryAt place
  | segment :: rest =>
    match d.entryAt place with
    | .missing => .missing
    | .directory =>
      if Path.isIdle segment then d.follow place rest
      else if segment == ".." then d.follow place.dropLast rest
      else if segment.utf8ByteSize > maxName then .blocked
      else d.follow (place ++ [segment]) rest
    | _ => .blocked

/-- What is found under a path. -/
def look (d : Disk) (path : String) : Entry :=
  if path.toList.contains '\x00' || path.utf8ByteSize > maxPath then .blocked
  else if path == "" then .missing
  else d.follow [] (d.way path)

end Disk

end CoolHierarchy
