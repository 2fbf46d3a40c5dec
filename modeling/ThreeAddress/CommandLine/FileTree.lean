/-!
# Reading files

How a source file is found from its path, and how this can fail. A `FileTree`
is a working directory held in memory. Its `read` follows a path one name at a
time, as a file system does: every name but the last has to be a directory,
and so has the last if a slash follows it. A name and a path may have only so
many bytes. A path that is too long is refused before it is followed; a name
that is too long is refused when it is looked up, so a fault of the names
before it is found first.
-/

set_option autoImplicit false

namespace ThreeAddress.CommandLine

/-- Why a file cannot be read as text. -/
inductive ReadError where
  | notFound
  | notADirectory
  | isDirectory
  /-- The path, or a name in it, has too many bytes. -/
  | nameTooLong
  /-- The bytes are no text. -/
  | notText
  /-- Another cause, with its own wording. -/
  | other (text : String)
deriving DecidableEq, Repr, Inhabited

/-- The wording of a failed reading. -/
def ReadError.message : ReadError → String
  | notFound => "No such file or directory (os error 2)"
  | notADirectory => "Not a directory (os error 20)"
  | isDirectory => "Is a directory (os error 21)"
  | nameTooLong => "File name too long (os error 36)"
  | notText => "stream did not contain valid UTF-8"
  | other text => text

/-- A file that cannot be read, and why. -/
structure ReadFailure where
  path : String
  error : ReadError
deriving DecidableEq, Repr, Inhabited

/-- The wording of a file that cannot be read. -/
def ReadFailure.message (failure : ReadFailure) : String :=
  s!"could not read {failure.path}: {failure.error.message}"

/-- The files of a working directory. Each has the names that lead to it from
the top; all names before the last are directories. -/
structure FileTree where
  files : List (List String × ByteArray)
deriving Inhabited

namespace FileTree

/-- Whether a name in a path stays in the directory where it stands: the empty
name between two slashes, and the dot. -/
def isStay (name : String) : Bool := name = "" || name = "."

/-- The tree with these files, given by their paths. -/
def ofFiles (files : List (String × ByteArray)) : FileTree :=
  ⟨files.map fun (path, bytes) =>
    ((path.splitOn "/").filter fun name => !isStay name, bytes)⟩

/-- Where a path leads. -/
inductive Place where
  /-- Into the tree, through these names. -/
  | inside (names : List String)
  /-- To a directory that is not in the tree. -/
  | outside
deriving DecidableEq, Repr, Inhabited

/-- What can be at a place. -/
inductive Node where
  | file (bytes : ByteArray)
  | directory
deriving Inhabited

/-- What is at a place. -/
def node? (tree : FileTree) : Place → Option Node
  | .outside => some .directory
  | .inside names =>
    match tree.files.find? (·.1 = names) with
    | some (_, bytes) => some (.file bytes)
    | none =>
      if names.isEmpty || tree.files.any (names.isPrefixOf ·.1) then some .directory else none

/-- The most bytes that a name may have. -/
def maxNameBytes : Nat := 255

/-- The most bytes that a path may have. -/
def maxPathBytes : Nat := 4095

/-- The directory that holds a place. Above the top of the tree lies the
outside, and nothing leads back from there. -/
def Place.parent : Place → Place
  | .outside => .outside
  | .inside [] => .outside
  | .inside names => .inside names.dropLast

/-- Where a name leads from a directory. Nothing is known of what lies outside
the tree but the way up. -/
def child (place : Place) (name : String) : Except ReadError Place :=
  if isStay name then .ok place
  else if name = ".." then .ok place.parent
  else if maxNameBytes < name.utf8ByteSize then .error .nameTooLong
  else
    match place with
    | .outside => .error .notFound
    | .inside names => .ok (.inside (names ++ [name]))

/-- Follows one name from a place, which has to be a directory. -/
def follow (tree : FileTree) (place : Place) (name : String) : Except ReadError Place :=
  match tree.node? place with
  | some .directory => child place name
  | some (.file _) => .error .notADirectory
  | none => .error .notFound

/-- Follows names from a place. -/
def walk (tree : FileTree) (place : Place) : List String → Except ReadError Place
  | [] => .ok place
  | name :: names =>
    match tree.follow place name with
    | .ok place => tree.walk place names
    | .error error => .error error

/-- Where a path starts: at the top of the tree, or outside if it starts with a
slash. -/
def start (path : String) : Place :=
  if path.toList.head? = some '/' then .outside else .inside []

/-- The bytes of the file that a path leads to. The empty path leads to
nothing. -/
def read (tree : FileTree) (path : String) : Except ReadError ByteArray :=
  if path = "" then .error .notFound
  else if maxPathBytes < path.utf8ByteSize then .error .nameTooLong
  else
    match tree.walk (start path) (path.splitOn "/") with
    | .error error => .error error
    | .ok place =>
      match tree.node? place with
      | some (.file bytes) => .ok bytes
      | some .directory => .error .isDirectory
      | none => .error .notFound

end FileTree

end ThreeAddress.CommandLine
