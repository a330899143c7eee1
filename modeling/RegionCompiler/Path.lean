/-! File paths with `/` between their components. Empty components and dots behind the first
component mean nothing, at the end of a path either. -/
namespace RegionCompiler.Path

def isAbsolute (path : String) : Bool :=
  path.startsWith "/"

/-- Appends a path to a directory. An absolute path stands for itself. -/
def join (base path : String) : String :=
  if isAbsolute path then path
  else if base.isEmpty || base.endsWith "/" then base ++ path
  else base ++ "/" ++ path

def isIdle (part : String) : Bool := part == "" || part == "."

/-- What stands between slashes. -/
def split (path : String) : List String := (path.toList.splitOn '/').map String.ofList

/-- The parts of a path between slashes: the first one, which is empty if the path is absolute,
and those behind it. -/
def parts (path : String) : String × List String :=
  match split path with
  | [] => ("", [])
  | first :: rest => (first, rest)

def dropIdleEnd (rest : List String) : List String :=
  (rest.reverse.dropWhile isIdle).reverse

/-- The components of a path, with `/` for the root. Paths with the same components are the
same. -/
def components (path : String) : List String :=
  let (first, rest) := parts path
  (if first != "" then [first] else if isAbsolute path then ["/"] else [])
    ++ rest.filter fun part => !isIdle part

/-- The parts of a path without those at its end that mean nothing. -/
def significant (path : String) : String × List String :=
  let (first, rest) := parts path
  (first, dropIdleEnd rest)

/-- The last component, unless it is the root, a dot or two. -/
def fileName? (path : String) : Option String :=
  let (first, rest) := significant path
  let last := rest.getLastD first
  if isIdle last || last == ".." then none else some last

/-- The name before its last dot and what is behind that dot. A dot at the front of a name
starts no extension. -/
def splitName (name : String) : String × Option String :=
  let chars := name.toList.reverse
  match chars.dropWhile (· != '.') with
  | [] | [_] => (name, none)
  | _ :: stem =>
    (String.ofList stem.reverse, some (String.ofList (chars.takeWhile (· != '.')).reverse))

def fileStem? (path : String) : Option String :=
  (fileName? path).map fun name => (splitName name).1

def extension? (path : String) : Option String :=
  (fileName? path).bind fun name => (splitName name).2

/-- The directory of a path; the root and the empty path are in none. -/
def parent? (path : String) : Option String :=
  let (first, rest) := significant path
  if rest.isEmpty then
    if first == "" then none else some ""
  else
    let above := dropIdleEnd rest.dropLast
    if first == "" && above.isEmpty then some "/" else some ("/".intercalate (first :: above))

/-- The path without as many characters at its end as its extension has. The dot before them
stays. -/
def cutExtension (path : String) : String :=
  match extension? path with
  | none => path
  | some ext => String.ofList (path.toList.take (path.length - ext.length))

/-- Puts an extension, or nothing for the empty one, behind the stem of the name. A path without
a name stays as it is. -/
def putExtension (path ext : String) : String :=
  match fileStem? path with
  | none => path
  | some stem =>
    let (first, rest) := significant path
    let before := (first :: rest).dropLast
    let name := if ext.isEmpty then stem else stem ++ "." ++ ext
    "/".intercalate (before ++ [name])

/-- The path with another extension, or with none for the empty one. The old extension goes
first: two dots may be left of a name, and then the path leads to a directory and gets no new
extension. -/
def withExtension (path ext : String) : String :=
  putExtension (cutExtension path) ext

end RegionCompiler.Path
