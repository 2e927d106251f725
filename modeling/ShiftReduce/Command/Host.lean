import Std.Data.ExtTreeMap
import ShiftReduce.Symbol

/-!
# The surroundings of the command

`Host` lists what the command needs of its surroundings: files that it can read, create and extend,
an input, and two outputs. The command is written against it, for any monad.

`World` is a host whose files are a value: a tree of directories from its root, and the directory in
which relative paths start. The file store maps paths from the root to contents, where a directory
has a path that ends in a slash, so that a listing in byte order of the paths is the store itself.
-/

namespace ShiftReduce

/-- What the command needs of its surroundings. -/
structure Host (m : Type → Type) where
  /-- Makes an empty file, or empties the one that is there. Fails if that is not possible. -/
  create : Text → m Bool
  /-- Writes at the end of a file that was created. -/
  append : Text → Text → m Unit
  /-- The content of a file, if it can be opened. -/
  read : Text → m (Option Text)
  input : m Text
  out : Text → m Unit
  err : Text → m Unit

namespace FileStore

/-- A part of a path that names something: it is not empty and has no slash. -/
structure IsName (part : Text) : Prop where
  ne_nil : part ≠ []
  slash_notMem : 47 ∉ part

end FileStore

/-- The files of a machine, and where relative paths start. -/
structure FileStore where
  /-- Contents by path from the root. The path of a directory ends in a slash, and its content is
  empty. -/
  contents : Std.ExtTreeMap Text Text
  /-- The directory in which relative paths start, by its parts from the root. -/
  start : List Text
  isName_start : ∀ part ∈ start, FileStore.IsName part

namespace FileStore

/-- The parts of a path between its slashes. -/
def components : Text → List Text
  | [] => [[]]
  | b :: t =>
    if b = '/'.toUInt8 then [] :: components t
    else
      match components t with
      | [] => [[b]]
      | c :: cs => (b :: c) :: cs

/-- The path of the given parts from the root. -/
def path (parts : List Text) : Text :=
  Text.join "/" parts

/-- Whether the parts lead to a directory. No parts lead to the root. -/
def isDirectory (fs : FileStore) (parts : List Text) : Bool :=
  parts.isEmpty || fs.contents.contains (path parts ++ "/")

/-- The longest name that a file system takes. -/
def maxNameLength : Nat := 255

/-- The longest path that a file system takes. -/
def maxPathLength : Nat := 4095

/-- Follows the parts of a path from a directory. All but the last must be directories. The root is
its own parent. -/
def follow (fs : FileStore) (directory : List Text) : List Text → Option (List Text)
  | [] => some directory
  | part :: rest =>
    if part = [] ∨ part = Text.ofString "." then fs.follow directory rest
    else if part = Text.ofString ".." then fs.follow directory.dropLast rest
    else
      let here := directory ++ [part]
      if part.length > maxNameLength then none
      else if rest = [] then some here
      else if fs.isDirectory here then fs.follow here rest
      else none

/-- The parts from the root that a path leads to. The empty path leads nowhere, nor does one that is
too long. A path that begins with a slash starts at the root. -/
def locate (fs : FileStore) (file : Text) : Option (List Text) :=
  if file.length > maxPathLength then none
  else
    match file with
    | [] => none
    | 47 :: rest => fs.follow [] (components rest)
    | file => fs.follow fs.start (components file)

/-- The store with new content for a file, by its parts from the root. -/
def insert (fs : FileStore) (parts : List Text) (content : Text) : FileStore :=
  { fs with contents := fs.contents.insert (path parts) content }

/-- The content of a file. A directory can be opened, and reads as empty. -/
def read? (fs : FileStore) (file : Text) : Option Text :=
  (fs.locate file).bind fun parts =>
    if fs.isDirectory parts then some [] else fs.contents[path parts]?

/-- Makes an empty file, if there is no directory in its place. -/
def create? (fs : FileStore) (file : Text) : Option FileStore :=
  (fs.locate file).bind fun parts =>
    if fs.isDirectory parts then none else some (fs.insert parts [])

/-- Writes at the end of a file, if it is there. -/
def append (fs : FileStore) (file content : Text) : FileStore :=
  match fs.locate file with
  | none => fs
  | some parts =>
    match fs.contents[path parts]? with
    | none => fs
    | some old => fs.insert parts (old ++ content)

/-- The parts of a path that are names. -/
def names (file : Text) : List Text :=
  (components file).filter fun part => part ≠ [] && part ≠ Text.ofString "."

/-- Adds the directories that lead to a place. -/
def addDirectories (fs : FileStore) (parts : List Text) : FileStore :=
  let paths := (List.range parts.length).map fun n => path (parts.take (n + 1)) ++ "/"
  { fs with contents := paths.foldl (·.insert · []) fs.contents }

/-- Adds a directory with those above it, by its path from the start. -/
def addDirectory (fs : FileStore) (directory : Text) : FileStore :=
  fs.addDirectories (fs.start ++ names directory)

/-- Adds a file with the directories above it, by its path from the start. -/
def addFile (fs : FileStore) (file content : Text) : FileStore :=
  let parts := fs.start ++ names file
  (fs.addDirectories parts.dropLast).insert parts content

end FileStore

/-- Surroundings as a value. -/
structure World where
  files : FileStore
  input : Text
  out : Text
  err : Text

/-- The host that changes a value. -/
def World.host : Host (StateM World) where
  create file := do
    let w ← get
    match w.files.create? file with
    | none => return false
    | some files => set { w with files }; return true
  append file content := modify fun w => { w with files := w.files.append file content }
  read file := return (← get).files.read? file
  input := return (← get).input
  out text := modify fun w => { w with out := w.out ++ text }
  err text := modify fun w => { w with err := w.err ++ text }

end ShiftReduce
