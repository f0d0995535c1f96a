import CoolHierarchy.Toml.Basic

/-!
# Building TOML tables

A document defines its tables piece by piece: by headers, by dotted keys and inside braces. Every
table remembers how it came about, because that decides what may still be added to it. A table
that only a longer header has implied may get a header of its own; a table that dotted keys have
made may get more dotted keys; nothing may be defined twice.
-/

namespace CoolHierarchy.Toml

inductive Origin where
  /-- By a header of its own, or as the table at the top. -/
  | defined
  /-- As a part of the name in a header. -/
  | implied
  /-- As a part of a dotted key. -/
  | dotted
deriving DecidableEq, Repr, Inhabited

/-- What a key of an unfinished table stands for. -/
inductive Item where
  | value (v : Toml)
  /-- A table that may still grow. -/
  | table (origin : Origin) (entries : List (String × Item))
  /-- An array of tables, of which the last, listed first, may still grow. -/
  | tables (last : List (String × Item)) (before : List (List (String × Item)))
deriving Inhabited

structure Section where
  origin : Origin := .defined
  entries : List (String × Item) := []
deriving Inhabited

namespace Section

def find? (s : Section) (key : String) : Option Item :=
  s.entries.lookup key

/-- Sets the item of a key. A new key comes last. -/
def put (s : Section) (key : String) (item : Item) : Section :=
  if (s.find? key).isSome then
    { s with entries := s.entries.map fun e => if e.1 == key then (key, item) else e }
  else { s with entries := s.entries ++ [(key, item)] }

/-- Changes the table at the end of a path. Missing tables on the way are made, with the given
origin. Of an array of tables the last is meant. With dotted keys the way may not lead through a
table that has a header of its own. -/
def modifyAt (origin : Origin) (change : Section → Option Section) :
    List String → Section → Option Section
  | [], s => change s
  | key :: path, s =>
    match s.find? key with
    | none => do
      let sub ← modifyAt origin change path { origin }
      some (s.put key (.table sub.origin sub.entries))
    | some (.value _) => none
    | some (.table o entries) =>
      if origin == .dotted && o == .defined then none
      else do
        let sub ← modifyAt origin change path ⟨o, entries⟩
        some (s.put key (.table sub.origin sub.entries))
    | some (.tables last before) => do
      let sub ← modifyAt origin change path ⟨.defined, last⟩
      some (s.put key (.tables sub.entries before))

/-- Sets a value under a key that may be dotted. The table that a dotted key leads to must be one
that dotted keys have made, and no key may be set twice. -/
def insert (s : Section) (path : List String) (v : Toml) : Option Section :=
  match path.reverse with
  | [] => none
  | key :: way =>
    modifyAt .dotted (fun t =>
        if (t.origin == .dotted) == way.isEmpty || (t.find? key).isSome then none
        else some (t.put key (.value v)))
      way.reverse s

/-- Opens the table that a header names. -/
def openTable (s : Section) (path : List String) : Option Section :=
  match path.reverse with
  | [] => none
  | key :: way =>
    modifyAt .implied (fun t =>
        match t.find? key with
        | none => some (t.put key (.table .defined []))
        | some (.table .implied entries) => some (t.put key (.table .defined entries))
        | _ => none)
      way.reverse s

/-- Opens one more table in the array of tables that a header names. -/
def openItem (s : Section) (path : List String) : Option Section :=
  match path.reverse with
  | [] => none
  | key :: way =>
    modifyAt .implied (fun t =>
        match t.find? key with
        | none => some (t.put key (.tables [] []))
        | some (.tables last before) => some (t.put key (.tables [] (last :: before)))
        | _ => none)
      way.reverse s

/-- Sets a value under a key, in the table that the last header has opened. -/
def insertUnder (s : Section) (header path : List String) (v : Toml) : Option Section :=
  modifyAt .implied (fun t => t.insert path v) header s

end Section

mutual

/-- The value of an item that is finished. -/
def Item.toToml : Item → Toml
  | .value v => v
  | .table _ entries => .table (entriesToToml entries)
  | .tables last before => .array (.table (entriesToToml last) :: tablesToToml before).reverse

def entriesToToml : List (String × Item) → List (String × Toml)
  | [] => []
  | (key, item) :: rest => (key, item.toToml) :: entriesToToml rest

def tablesToToml : List (List (String × Item)) → List Toml
  | [] => []
  | entries :: rest => .table (entriesToToml entries) :: tablesToToml rest

end

def Section.toToml (s : Section) : Toml :=
  .table (entriesToToml s.entries)

end CoolHierarchy.Toml
