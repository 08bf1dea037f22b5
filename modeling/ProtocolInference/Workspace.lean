import ProtocolInference.Text.Octets

/-!
# Workspaces

A workspace is the part of the file system that a command works on: the files with
their contents, the directories that have been made, and the directory that names
start from. Names and contents are octets. A name is followed from directory to
directory, so every name in it but the last has to be a directory, even where the next
one leads back. Of the rest of the system there are the usual directories, the programs
of the shell and the empty device.
-/

namespace ProtocolInference

/-- The names on the way from the root of the file system to a file or directory. -/
abbrev Path := List String

/-- Why a file cannot be used. -/
inductive FileError where
  | missing
  | isDirectory
  | notDirectory
  | present
  | tooLong
  | zeroOctet
  /-- The contents are the octets of no text. -/
  | notText
  deriving DecidableEq, Repr

/-- The words for the reason. -/
def FileError.message : FileError → String
  | .missing => "No such file or directory"
  | .isDirectory => "Is a directory"
  | .notDirectory => "Not a directory"
  | .present => "File exists"
  | .tooLong => "File name too long"
  | .zeroOctet => "file name contained an unexpected NUL byte"
  | .notText => "stream did not contain valid UTF-8"

namespace Path

/-- The directory of a workspace, from which its names start. -/
def home : Path := ["tmp", "workspace"]

/-- The device that is empty and takes everything. -/
def nullDevice : Path := ["dev", "null"]

/-- Directories that are there without having been made. -/
def systemDirectories : List Path :=
  [[], ["bin"], ["dev"], ["etc"], ["home"], ["lib"], ["opt"], ["proc"], ["root"], ["run"],
    ["sbin"], ["sys"], ["tmp"], ["usr"], ["usr", "bin"], ["usr", "lib"], ["usr", "local"],
    ["usr", "local", "bin"], ["usr", "sbin"], ["usr", "share"], ["var"], ["var", "tmp"], home]

/-- The directories in which programs are found. -/
def programDirectories : List Path := [["bin"], ["usr", "bin"]]

/-- The programs that are found there. -/
def programs : List String :=
  ["sh", "dash", "cat", "echo", "printf", "grep", "sleep", "kill", "true", "false", "test", "["]

/-- Follows one name from a directory. -/
def enter (path : Path) (name : String) : Path :=
  if name = "" ∨ name = "." then path
  else if name = ".." then path.dropLast
  else path ++ [name]

/-- The path of a name that starts at the home directory, whatever is on the way. -/
def ofName (name : String) : Path :=
  (name.splitOn "/").foldl enter (if name.startsWith "/" then [] else home)

/-- The name of a path from the root. -/
def display (path : Path) : String := "/" ++ String.intercalate "/" path

/-- The name of a path from the home directory, or from the root if it is not in it. -/
def shortName (path : Path) : String :=
  if home.isPrefixOf path then
    match path.drop home.length with
    | [] => "."
    | names => String.intercalate "/" names
  else path.display

end Path

/-- The files and directories, and the directory that names start from. -/
structure Workspace where
  files : List (Path × String) := []
  directories : List Path := []
  place : Path := Path.home
  deriving DecidableEq, Repr, Inhabited

namespace Workspace

/-- The workspace that holds the given texts under the given names. -/
def ofTexts (texts : List (String × String)) : Workspace :=
  { files := texts.map fun (name, text) => (Path.ofName (Text.octets name), Text.octets text) }

def file? (w : Workspace) (path : Path) : Option String :=
  w.files.lookup path

/-- Whether the path is a directory: a usual one, one that has been made, or one on the way
to a file or directory. -/
def isDirectory (w : Workspace) (path : Path) : Bool :=
  Path.systemDirectories.contains path || w.directories.any (path.isPrefixOf ·) ||
    w.files.any fun (p, _) => path.isPrefixOf p && path != p

/-- Whether the path is a program of the system. -/
def isProgram (path : Path) : Bool :=
  Path.programDirectories.contains path.dropLast && path.getLast?.any Path.programs.contains

/-- Whether the path is a file, a device or a program. -/
def isFile (w : Workspace) (path : Path) : Bool :=
  path == Path.nullDevice || isProgram path || (w.file? path).isSome

/-! ### Names -/

/-- The greatest number of octets of a name between slashes, and of a whole name. -/
def maxNameLength : Nat × Nat := (255, 4095)

/-- Follows names from a directory. -/
def follow (w : Workspace) : Path → List String → Except FileError Path
  | path, [] => .ok path
  | path, name :: rest =>
    if !w.isDirectory path then .error (if w.isFile path then .notDirectory else .missing)
    else if maxNameLength.1 < name.length then .error .tooLong
    else w.follow (path.enter name) rest

/-- The path that a name leads to. There need not be anything. -/
def resolve (w : Workspace) (name : String) : Except FileError Path :=
  if name.contains '\x00' then .error .zeroOctet
  else if name = "" then .error .missing
  else if maxNameLength.2 < name.length then .error .tooLong
  else w.follow (if name.startsWith "/" then [] else w.place) (name.splitOn "/")

/-- The path of the file or directory with that name. -/
def find (w : Workspace) (name : String) : Except FileError Path := do
  let path ← w.resolve name
  if w.isDirectory path || w.isFile path then pure path else throw .missing

/-- Whether there is something with that name. -/
def exists? (w : Workspace) (name : String) : Bool :=
  w.find name matches .ok _

/-- Whether that name is the name of a directory. -/
def isDirectoryName (w : Workspace) (name : String) : Bool :=
  match w.find name with
  | .ok path => w.isDirectory path
  | .error _ => false

/-! ### Contents -/

/-- The octets of the file with that name. -/
def octets (w : Workspace) (name : String) : Except FileError String := do
  let path ← w.find name
  if w.isDirectory path then throw .isDirectory
  else pure ((w.file? path).getD "")

/-- The text of the file with that name. -/
def read (w : Workspace) (name : String) : Except FileError String := do
  match Text.ofOctets? (← w.octets (Text.octets name)) with
  | some text => pure text
  | none => throw .notText

/-- Replaces the octets of a file, or adds a file. -/
def put (w : Workspace) (path : Path) (content : String) : Workspace :=
  if (w.file? path).isSome then
    { w with files := w.files.map fun (p, t) => if p = path then (p, content) else (p, t) }
  else if path = Path.nullDevice then w
  else { w with files := w.files ++ [(path, content)] }

/-- The path of the file with that name, which may be a new one in a directory. -/
def target (w : Workspace) (name : String) : Except FileError Path := do
  let path ← match w.resolve name with
    | .error .missing =>
      -- A name that ends with a slash is no name for a new file.
      match w.resolve (name.dropEndWhile (· == '/')).toString with
      | .ok _ => throw .isDirectory
      | .error e => throw e
    | other => other
  if w.isDirectory path then throw .isDirectory else pure path

/-- Writes a text to the file with that name, whose directory has to exist. -/
def write (w : Workspace) (name text : String) : Except FileError Workspace := do
  pure (w.put (← w.target (Text.octets name)) (Text.octets text))

/-! ### Directories -/

/-- Makes one directory in a directory. -/
def makeOne (w : Workspace) (name : String) : Except FileError Workspace := do
  let name := if name.all (· == '/') then name else (name.dropEndWhile (· == '/')).toString
  let path ← w.resolve name
  if w.isDirectory path || w.isFile path then throw .present
  else pure { w with directories := w.directories ++ [path] }

/-- The name of the directory that holds what is named, empty where it is the one that
names start from. Dots and repeated slashes at the end do not count. -/
def parentName (name : String) : Option String :=
  let trimmed (names : List String) : List String :=
    (names.reverse.dropWhile fun n => n = "" ∨ n = ".").reverse
  let names := name.splitOn "/"
  match names with
  | "" :: rest =>
    match trimmed rest with
    | [] => none
    | rest => some ("/" ++ String.intercalate "/" (trimmed rest.dropLast))
  | first :: rest =>
    match trimmed rest with
    | [] => some ""
    | rest => some (String.intercalate "/" (first :: trimmed rest.dropLast))
  | [] => none

/-- Makes a directory after those on the way to it. -/
def makeWithParents (w : Workspace) : Nat → String → Except FileError Workspace
  | 0, _ => .error .missing
  | fuel + 1, name =>
    let settled (w : Workspace) (e : FileError) : Except FileError Workspace :=
      if w.isDirectoryName name then .ok w else .error e
    if name = "" then .ok w
    else match w.makeOne name with
      | .ok w => .ok w
      | .error .missing => do
        let w ← match parentName name with
          | some parent => w.makeWithParents fuel parent
          | none => throw .missing
        match w.makeOne name with
        | .ok w => .ok w
        | .error e => settled w e
      | .error e => settled w e

/-- Makes a directory and those on the way to it. -/
def makeDirectory (w : Workspace) (name : String) : Except FileError Workspace :=
  let name := Text.octets name
  w.makeWithParents (name.length + 1) name

/-- What stands directly in a directory, by name. -/
def entries (w : Workspace) (path : Path) : List String :=
  let below := (w.files.map (·.1) ++ w.directories).filterMap fun p =>
    if path.isPrefixOf p then (p.drop path.length).head? else none
  below.eraseDups

/-- The texts of the files of a directory, by name. -/
def list (w : Workspace) (name : String) : List (String × String) :=
  match w.find (Text.octets name) with
  | .error _ => []
  | .ok path => w.files.filterMap fun (p, content) =>
    match p.getLast? with
    | some last =>
      if p.dropLast = path then some (Text.ofOctets last, Text.ofOctets content) else none
    | none => none

end Workspace

end ProtocolInference
