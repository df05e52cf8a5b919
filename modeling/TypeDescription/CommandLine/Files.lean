/-!
# Finding files

A `FileTree` holds files and directories by the names that lead to them from
the root.  `FileTree.read` follows a path name by name: each name is looked up
in a directory, and the last one must lead to a file.  An empty name stays
where it is, as `.` does, so a path that ends in `/` leads to no file.
-/

namespace TypeDescription.CommandLine

/-! ## Errors -/

/-- Why a file cannot be read. -/
inductive FileError where
  | missing
  | denied
  | notDirectory
  | isDirectory
  | nameTooLong
  | notText
  | other (reason : String)
deriving DecidableEq

/-- The report of an error. -/
def FileError.message : FileError → String
  | missing => "No such file or directory (os error 2)"
  | denied => "Permission denied (os error 13)"
  | notDirectory => "Not a directory (os error 20)"
  | isDirectory => "Is a directory (os error 21)"
  | nameTooLong => "File name too long (os error 36)"
  | notText => "stream did not contain valid UTF-8"
  | other reason => reason

/-! ## Trees -/

/-- What stands at a place of a tree. -/
inductive FileNode where
  | directory
  | file (text : String)
deriving DecidableEq

/-- Files and directories, each with the names that lead to it from the root,
and the place where paths without a leading `/` start. -/
structure FileTree where
  nodes : List (List String × FileNode)
  start : List String

namespace FileTree

/-- What stands at a place.  The root is a directory. -/
def node? (tree : FileTree) : List String → Option FileNode
  | [] => some .directory
  | place => (tree.nodes.find? fun node => node.1 == place).map Prod.snd

/-- The most bytes of a name. -/
def maxNameSize : Nat := 255

/-- The most bytes of a path. -/
def maxPathSize : Nat := 4095

/-- The place that a name in a directory means.  Above the root is the root. -/
def enter (place : List String) (name : String) : List String :=
  if name = "" ∨ name = "." then place
  else if name = ".." then place.dropLast
  else place ++ [name]

/-- The text of the file that names lead to from a place. -/
def follow (tree : FileTree) (place : List String) : List String → Except FileError String
  | [] =>
      match tree.node? place with
      | none => .error .missing
      | some .directory => .error .isDirectory
      | some (.file text) => .ok text
  | name :: rest =>
      match tree.node? place with
      | none => .error .missing
      | some (.file _) => .error .notDirectory
      | some .directory =>
          if maxNameSize < name.utf8ByteSize then .error .nameTooLong
          else tree.follow (enter place name) rest

/-- The text of the file at a path. -/
def read (tree : FileTree) (path : String) : Except FileError String :=
  if path.isEmpty then .error .missing
  else if maxPathSize < path.utf8ByteSize then .error .nameTooLong
  else
    match path.splitOn "/" with
    | "" :: names => tree.follow [] names
    | names => tree.follow tree.start names

end FileTree

end TypeDescription.CommandLine
