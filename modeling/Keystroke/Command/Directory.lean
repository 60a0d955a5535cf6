import Keystroke.Command.Run

/-!
# Running in a directory

A host to run command lines on without a system around them: files, where a path leads among them
(`Directory.locate?`), and what a command line does to them (`Directory.run`). Folders are not kept:
there are those that files are in and those that every system has.
-/

namespace Keystroke

/-- A place in the tree of folders, by the names that lead to it from the root. -/
abbrev Location := List String

namespace Location

/-- The folder in which everybody may make files. -/
def scratch : Location := ["tmp"]

/-- The folder where commands run. It is a scratch folder under a name of its own, which is not
known and is therefore one that no path can spell. -/
def home : Location := scratch ++ [""]

/-- The folders of every system. -/
def standard : List Location :=
  [[], scratch, home, ["dev", "fd"]] ++
    ["bin", "boot", "dev", "etc", "home", "lib", "media", "mnt", "opt", "proc", "root", "run",
      "sbin", "srv", "sys", "usr", "var"].map ([·])

/-- Goes one part of a path on. The root is above itself. -/
def step (location : Location) (part : String) : Location :=
  if part = "" ∨ part = "." then location
  else if part = ".." then location.dropLast
  else location ++ [part]

/-- The parts of a path between its slashes. -/
def parts : List Char → List (List Char)
  | [] => [[]]
  | char :: path =>
    if char = '/' then [] :: parts path
    else
      match parts path with
      | [] => [[char]]
      | part :: rest => (char :: part) :: rest

/-- Where a path starts, which is the root if its first part is empty, and its parts. -/
def route (path : String) : Location × List String :=
  let found := (parts path.toList).map String.ofList
  (if found.head? = some "" then [] else home, found)

/-- The location of a path on which every folder is made as it is needed. -/
def ofPath (path : String) : Location := (route path).2.foldl step (route path).1

end Location

/-- What stands at a location. -/
inductive Node where
  | folder
  | file (content : ByteArray)
  /-- A device that counts as empty and keeps nothing. -/
  | sink
  /-- The device that shows what is written to it. -/
  | console

/-- The devices of every system. -/
def Node.devices : List (Location × Node) :=
  [(["dev", "stdout"], console), (["dev", "fd", "1"], console), (["dev", "fd", "0"], sink),
    (["dev", "fd", "2"], sink)] ++
    ["null", "stdin", "stderr", "zero", "random", "urandom"].map fun name => (["dev", name], sink)

/-- The files among which commands run. -/
structure Directory where
  files : List (Location × ByteArray)

namespace Directory

/-- The directory with a file written. -/
def put (directory : Directory) (location : Location) (content : ByteArray) : Directory :=
  ⟨(location, content) :: directory.files.filter (·.1 ≠ location)⟩

/-- The directory that holds files under the given names. -/
def ofFiles (files : List (String × ByteArray)) : Directory :=
  files.foldl (fun directory (path, content) => directory.put (.ofPath path) content) ⟨[]⟩

/-- There is a folder at a location: a standard one or one that a file is in. -/
def isFolder (directory : Directory) (location : Location) : Bool :=
  Location.standard.contains location ||
    directory.files.any fun (place, _) => location.isPrefixOf place && place ≠ location

/-- What stands at a location, if anything does. -/
def node? (directory : Directory) (location : Location) : Option Node :=
  if directory.isFolder location then some .folder
  else
    match directory.files.find? (·.1 = location) with
    | some (_, content) => some (.file content)
    | none => (Node.devices.find? (·.1 = location)).map (·.2)

/-- The length in bytes from which on a path is refused. -/
def pathLimit : Nat := 4096

/-- The length in bytes from which on a part of a path is refused. -/
def partLimit : Nat := 256

/-- Where the parts of a path lead. One can go on only from a folder, and what stands at the end may
be missing. -/
def walk (directory : Directory) (location : Location) : List String → Option Location
  | [] => some location
  | part :: rest =>
    if directory.isFolder location && part.utf8ByteSize < partLimit then
      directory.walk (location.step part) rest
    else none

/-- Where a path leads. -/
def locate? (directory : Directory) (path : String) : Option Location :=
  if path.isEmpty || pathLimit ≤ path.utf8ByteSize then none
  else directory.walk (Location.route path).1 (Location.route path).2

/-- What can be read at a path. -/
def file (directory : Directory) : Files := fun path =>
  match (directory.locate? path).bind directory.node? with
  | none | some .console => .missing
  | some .folder => .folder
  | some (.file content) => .content content
  | some .sink => .content .empty

/-- Writes a text at a path: what the console shows of it, and the directory after it. -/
def write (directory : Directory) (path text : String) : Except Error (String × Directory) :=
  match directory.locate? path with
  | none => .error .missingFile
  | some location =>
    match directory.node? location with
    | some .folder => .error .isFolder
    | some (.file _) => .ok ("", directory.put location text.toUTF8)
    | some .sink => .ok ("", directory)
    | some .console => .ok (text, directory)
    | none =>
      if Location.scratch.isPrefixOf location then .ok ("", directory.put location text.toUTF8)
      else .error .missingFile

/-- The host that a directory is. -/
def host (directory : Directory) : Host where
  file := directory.file
  write path text := (directory.write path text).map fun _ => ()

/-- What the console shows and the directory, after one more output. -/
def receive : String × Directory → Output → String × Directory
  | (shown, directory), .printed text => (shown ++ text, directory)
  | (shown, directory), .written path text =>
    match directory.write path text with
    | .ok (text, after) => (shown ++ text, after)
    | .error _ => (shown, directory)

/-- Runs a command line in a directory: what the console shows, the exit code, and the directory
after it. -/
def run (directory : Directory) (words : List String) : String × Nat × Directory :=
  let outcome := Outcome.ofArguments directory.host words
  let (shown, after) := outcome.outputs.foldl receive ("", directory)
  (shown, outcome.ending.code, after)

end Directory

end Keystroke
