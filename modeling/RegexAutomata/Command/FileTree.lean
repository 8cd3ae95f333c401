/-
A tree of files in memory.

A place is the list of names that lead to it from the root, the last name first, so that the parent
of a place is its tail.

* `FileTree.lookup_put_self`, `FileTree.lookup_put_of_ne` — putting an entry changes one place only.
-/
import RegexAutomata.Command.Disk
import RegexAutomata.Keyed
import RegexAutomata.Text.Utf8

namespace RegexAutomata.Command

/-- A place in a tree of files. -/
abbrev Place := List Text

/-- What can be at a place. -/
inductive Entry where
  | file (content : Bytes)
  | directory
  /-- takes all that is written to it and stays empty -/
  | sink
deriving DecidableEq

/-- The places at which something is, and the directory where relative paths begin. -/
structure FileTree where
  entries : List (Place × Entry)
  current : Place

namespace FileTree

def lookup? (tree : FileTree) (place : Place) : Option Entry := tree.entries.lookup place

def put (tree : FileTree) (place : Place) (entry : Entry) : FileTree :=
  { tree with entries := Keyed.put Prod.fst (place, entry) tree.entries }

/-- The longest name, in bytes. -/
def maxName : Nat := 255

/-- The longest path, in bytes. -/
def maxPath : Nat := 4095

/-- Goes on from a place along names. Each step starts in a directory; two dots lead to its
parent. -/
def walk (tree : FileTree) (place : Place) : List Text → Except DiskError Place
  | [] => .ok place
  | name :: rest =>
    match tree.lookup? place with
    | none => .error .noSuchFile
    | some .directory =>
      if name = ".." then walk tree place.tail rest
      else if maxName < (Utf8.encode name).length then .error .nameTooLong
      else walk tree (name :: place) rest
    | some _ => .error .notDirectory

def place (tree : FileTree) (path : Path) : Except DiskError Place :=
  if maxPath < (Utf8.encode path.write).length then .error .nameTooLong
  else tree.walk (if path.leading = 0 then tree.current else []) path.segments

def read (tree : FileTree) (path : Path) : Except DiskError Bytes :=
  match tree.place path with
  | .error e => .error e
  | .ok place =>
    match tree.lookup? place with
    | none => .error .noSuchFile
    | some .directory => .error .isDirectory
    | some .sink => .ok []
    | some (.file content) => .ok content

def write (tree : FileTree) (path : Path) (content : Bytes) : Except DiskError FileTree :=
  match tree.place path with
  | .error e => .error e
  | .ok place =>
    match tree.lookup? place with
    | some .directory => .error .isDirectory
    | some .sink => .ok tree
    | _ => .ok (tree.put place (.file content))

/-- A tree of files as a disk. -/
def disk : Disk (StateM FileTree) where
  read path := return (← get).read path
  write path content := do
    match (← get).write path content with
    | .error e => return .error e
    | .ok tree =>
      set tree
      return .ok ()

def makeDirectory (tree : FileTree) : Place → FileTree
  | [] => if (tree.lookup? []).isSome then tree else tree.put [] .directory
  | name :: parent =>
    let tree := makeDirectory tree parent
    if (tree.lookup? (name :: parent)).isSome then tree else tree.put (name :: parent) .directory

def makeFile (tree : FileTree) (place : Place) (content : Bytes) : FileTree :=
  (tree.makeDirectory place.tail).put place (.file content)

/-- The tree with the root, a sink and a current directory only. -/
def empty (current : Place) : FileTree :=
  let tree : FileTree := { entries := [], current }
  ((tree.makeDirectory current).makeDirectory ["dev"]).put ["null", "dev"] .sink

/-- The files below the current directory with the names that lead to them. -/
def files (tree : FileTree) : List (Text × Bytes) :=
  tree.entries.filterMap fun (place, entry) =>
    match entry with
    | .file content =>
      if tree.current.isSuffixOf place then
        some (Text.join "/" (place.take (place.length - tree.current.length)).reverse, content)
      else none
    | _ => none

@[simp] theorem lookup_put_self (tree : FileTree) (place : Place) (entry : Entry) :
    (tree.put place entry).lookup? place = some entry :=
  Keyed.lookup_put_self place entry tree.entries

theorem lookup_put_of_ne {place other : Place} (h : other ≠ place) (tree : FileTree)
    (entry : Entry) : (tree.put place entry).lookup? other = tree.lookup? other :=
  Keyed.lookup_put_of_ne h entry tree.entries

end FileTree

end RegexAutomata.Command
