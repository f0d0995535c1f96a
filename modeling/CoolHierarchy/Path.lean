/-!
# Paths as text

Paths are written with slashes between their segments. Empty segments and the segment `.` lead
nowhere, except that a leading empty segment stands for the top directory and a leading `.` is
kept as it is written.
-/

namespace CoolHierarchy.Path

/-- Cuts a text at every slash. -/
def cut : List Char → List (List Char)
  | [] => [[]]
  | c :: rest =>
    if c == '/' then [] :: cut rest
    else match cut rest with
      | segment :: more => (c :: segment) :: more
      | [] => [[c]]

/-- The segments of a path. There is always one, which may be empty. -/
def segments (path : String) : List String :=
  (cut path.toList).map String.ofList

def ofSegments (segments : List String) : String :=
  "/".intercalate segments

/-- Segments that lead nowhere. -/
def isIdle (segment : String) : Bool :=
  segment == "" || segment == "."

/-- Drops idle segments at the end. -/
def trimIdle (segments : List String) : List String :=
  (segments.reverse.dropWhile isIdle).reverse

/-- The directory that a path lies in, as the path is written. A path of one segment lies in the
directory with the empty path; the empty path and the top directory lie in none. -/
def parent? (path : String) : Option String :=
  match segments path with
  | [] => none
  | first :: rest =>
    match trimIdle rest with
    | [] => if first == "" then none else some ""
    | rest =>
      match trimIdle rest.dropLast with
      | [] => some (if first == "" then "/" else first)
      | rest => some (ofSegments (first :: rest))

def isAbsolute (path : String) : Bool :=
  path.toList.head? == some '/'

/-- A path taken from a base directory. -/
def join (base path : String) : String :=
  if isAbsolute path || base == "" then path
  else if base.toList.getLast? == some '/' then base ++ path
  else base ++ "/" ++ path

end CoolHierarchy.Path
