import Keyspace.Files.Place

/-!
# Trees of files

A `FileTree` holds the files below the working directory.  Of the rest of the file system only what
every system has can be seen.  `FileTree.lookup` says what stands at a path: it walks there
directory by directory, so that a path which passes a file or a name that does not exist leads
nowhere, even where it turns back.
-/

namespace Keyspace

/-- Files by their path, relative to the working directory.  The directories on the way exist, and
of two files at one place the later one counts. -/
structure FileTree where
  files : List (String × String)
deriving Inhabited

/-- What stands at a place. -/
inductive FileEntry where
  | missing
  | directory
  | file (text : String)
deriving DecidableEq, Repr, Inhabited

/-- Directories that every system has below its root. -/
def systemDirectories : List String :=
  ["bin", "dev", "etc", "home", "lib", "proc", "root", "sys", "tmp", "usr", "var"]

namespace FileTree

/-- What stands at a place named from the root directory.  The null device reads as an empty
file. -/
def systemEntry : List String → FileEntry
  | [] => .directory
  | [name] => if systemDirectories.contains name then .directory else .missing
  | names => if names == ["dev", "null"] then .file "" else .missing

/-- What stands at a place. -/
def entry (tree : FileTree) : Place → FileEntry
  | .hidden => .missing
  | .above => .directory
  | .fromRoot names => systemEntry names
  | .below names =>
    match tree.files.reverse.find? fun f => Place.ofPath f.1 == .below names with
    | some f => .file f.2
    | none =>
      if names.isEmpty || tree.files.any fun f => (Place.passed f.1).contains (.below names)
      then .directory else .missing

/-- Follows the parts of a path.  Only a directory can be passed, and a part that names nothing
passes the place where it stands. -/
def follow (tree : FileTree) (place : Place) : List String → FileEntry
  | [] => tree.entry place
  | part :: rest =>
    match tree.entry place with
    | .directory => tree.follow (place.step part) rest
    | _ => .missing

/-- A path has to be shorter than this number of bytes. -/
def pathLimit : Nat := 4096

/-- What stands at a path.  The empty path leads nowhere, and so does one that is too long. -/
def lookup (tree : FileTree) (path : String) : FileEntry :=
  if path.isEmpty || pathLimit ≤ path.utf8ByteSize then .missing
  else tree.follow (Place.start path) (Place.parts path)

end FileTree

end Keyspace
