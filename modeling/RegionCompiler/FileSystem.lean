import RegionCompiler.Path

/-! A working directory: its files and the directories below it. The directories above it and
the root exist as well, and nothing is known to be in them.

A file or directory is named by its components from the working directory. The name of one that
lies outside starts with `..` for every step up, or with `/` for the root. -/
namespace RegionCompiler

inductive FileError
  | notFound
  | permissionDenied
  | notDirectory
  | isDirectory
  | nameTooLong
  | invalidName
  | invalidArgument
deriving DecidableEq

def FileError.message : FileError → String
  | .notFound => "No such file or directory (os error 2)"
  | .permissionDenied => "Permission denied (os error 13)"
  | .notDirectory => "Not a directory (os error 20)"
  | .isDirectory => "Is a directory (os error 21)"
  | .nameTooLong => "File name too long (os error 36)"
  | .invalidName => "file name contained an unexpected NUL byte"
  | .invalidArgument => "nul byte found in provided data"

structure File where
  contents : String
  isProgram : Bool
deriving DecidableEq

structure FileSystem where
  files : List (List String × File)
  directories : List (List String)

/-- Where a path leads. -/
inductive PathTarget
  | file (name : List String) (file : File)
  | directory (name : List String)
  /-- Nothing yet, in a directory that exists. -/
  | absent (name : List String)
  /-- There are slashes behind the last component, which is no directory: it cannot be read for
  the given reason, and not be written since only a directory could be meant. -/
  | misnamed (error : FileError)
  | fault (error : FileError)

namespace FileSystem

def get? (fs : FileSystem) (name : List String) : Option File :=
  fs.files.lookup name

/-- The directory that `..` leads to. The root is its own. -/
def above (here : List String) : List String :=
  if here = ["/"] then here
  else if here.all (· == "..") then here ++ [".."]
  else here.dropLast

/-- Where a path leads that ends at a component for the given reason, with the rest of its parts
behind that component. -/
def blocked (rest : List String) (error : FileError) : PathTarget :=
  if !rest.isEmpty && rest.all (· == "") then .misnamed error else .fault error

/-- The greatest size of a component in bytes. -/
def maxComponentSize : Nat := 255

/-- Where a component leads that is no directory. -/
def entry (fs : FileSystem) (name : List String) (part : String) (rest : List String) :
    PathTarget :=
  if maxComponentSize < part.utf8ByteSize then blocked rest .nameTooLong
  else
    match fs.get? name with
    | some f => if rest.isEmpty then .file name f else blocked rest .notDirectory
    | none => if rest.isEmpty then .absent name else blocked rest .notFound

/-- Follows the parts of a path from a directory. -/
def walk (fs : FileSystem) (here : List String) : List String → PathTarget
  | [] => .directory here
  | part :: rest =>
    if Path.isIdle part then fs.walk here rest
    else if part = ".." then fs.walk (above here) rest
    else if fs.directories.contains (here ++ [part]) then fs.walk (here ++ [part]) rest
    else fs.entry (here ++ [part]) part rest

/-- The greatest size of a path in bytes. -/
def maxPathSize : Nat := 4095

def find (fs : FileSystem) (path : String) : PathTarget :=
  if path.contains '\x00' then .fault .invalidName
  else if path.isEmpty then .fault .notFound
  else if maxPathSize < path.utf8ByteSize then .fault .nameTooLong
  else fs.walk (if Path.isAbsolute path then ["/"] else []) (Path.split path)

def isFile (fs : FileSystem) (path : String) : Bool :=
  match fs.find path with
  | .file _ _ => true
  | _ => false

def isDirectory (fs : FileSystem) (path : String) : Bool :=
  match fs.find path with
  | .directory _ => true
  | _ => false

def pathExists (fs : FileSystem) (path : String) : Bool :=
  fs.isFile path || fs.isDirectory path

def read (fs : FileSystem) (path : String) : Except FileError String :=
  match fs.find path with
  | .file _ f => .ok f.contents
  | .directory _ => .error .isDirectory
  | .absent _ => .error .notFound
  | .misnamed e | .fault e => .error e

def put (fs : FileSystem) (name : List String) (f : File) : FileSystem :=
  { fs with files := (name, f) :: fs.files.filter (·.1 ≠ name) }

/-- Writes a file, over one of that name if there is one. -/
def write (fs : FileSystem) (path : String) (f : File) : Except FileError FileSystem :=
  match fs.find path with
  | .file name _ | .absent name => .ok (fs.put name f)
  | .directory _ | .misnamed _ => .error .isDirectory
  | .fault e => .error e

/-- Without the file at a path, if there is one. -/
def remove (fs : FileSystem) (path : String) : FileSystem :=
  match fs.find path with
  | .file name _ => { fs with files := fs.files.filter (·.1 ≠ name) }
  | _ => fs

def parents : List String → List (List String)
  | [] => []
  | [_] => []
  | part :: rest => [part] :: (parents rest).map (part :: ·)

/-- Files by their paths, in directories made for them. -/
def ofFiles (files : List (String × String)) : FileSystem :=
  let named := files.map fun (path, contents) =>
    ((Path.split path).filter fun part => part ≠ "" ∧ part ≠ ".", File.mk contents false)
  { files := named, directories := (named.flatMap fun (name, _) => parents name).eraseDups }

def addDirectory (fs : FileSystem) (name : String) : FileSystem :=
  { fs with directories := [name] :: fs.directories }

/-- Without a directory and all that is in it. -/
def removeDirectory (fs : FileSystem) (name : String) : FileSystem where
  files := fs.files.filter (·.1.head? ≠ some name)
  directories := fs.directories.filter (·.head? ≠ some name)

def isOutside (name : List String) : Bool :=
  name.head? == some ".." || name.head? == some "/"

/-- The paths of all files in the working directory, sorted. -/
def list (fs : FileSystem) : List String :=
  ((fs.files.filter fun (name, _) => !isOutside name).map fun (name, _) =>
    "/".intercalate name).mergeSort fun a b => decide (a ≤ b)

end FileSystem

end RegionCompiler
