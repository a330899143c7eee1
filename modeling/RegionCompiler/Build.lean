import RegionCompiler.Compilation
import RegionCompiler.Toolchain

/-! From a source file to an executable. The assembly and the object file lie next to the
executable and are removed in the end, unless they were asked for. -/
namespace RegionCompiler

structure BuildOptions where
  platform : Platform
  output : String
  /-- Where the object file goes if it is asked for. -/
  object : Option String
  /-- Where the assembly goes if it is asked for. -/
  assembly : Option String
  searchPaths : List String
  keepFiles : Bool

namespace BuildOptions

/-- An executable next to its source. -/
def ofSource (path : String) (platform : Platform) : BuildOptions where
  platform := platform
  output := Path.withExtension path platform.system.executableExtension
  object := none
  assembly := none
  searchPaths := []
  keepFiles := false

def objectPath (o : BuildOptions) : String :=
  o.object.getD (Path.withExtension o.output o.platform.system.objectExtension)

def assemblyPath (o : BuildOptions) : String :=
  o.assembly.getD (Path.withExtension o.output "S")

end BuildOptions

/-- What a program asks the linker for. -/
inductive Library
  /-- A static library at a path. -/
  | archive (path : String)
  /-- A library that is searched for. -/
  | named (name : String)
deriving DecidableEq

namespace Library

def ofLink (link : String) : Library :=
  match Path.extension? link with
  | some "a" | some "lib" => .archive link
  | _ => .named link

/-- The linker puts `lib` in front of the names it searches for. -/
def searchName (stem : String) : String :=
  if stem.startsWith "lib" then String.ofList (stem.toList.drop 3) else stem

def arguments : Library → List String
  | .named name => ["-l" ++ name]
  | .archive path =>
    match Path.fileStem? path with
    | none => []
    | some stem =>
      (match Path.parent? path with
        | some directory => if directory.isEmpty then [] else ["-L", directory]
        | none => [])
      ++ ["-l" ++ searchName stem]

end Library

inductive BuildError
  | findings (findings : List Finding)
  | read (path : String) (cause : FileError)
  | write (path : String) (cause : FileError)
  | tool (name : ToolName) (cause : ToolError)
  | run (path : String) (cause : FileError)
  | fault (cause : Codegen.Fault)

namespace BuildError

def message : BuildError → String
  | .findings fs => "compilation stopped after " ++ toString fs.length ++ " diagnostic(s)"
  | .read path cause => "could not read `" ++ path ++ "`: " ++ cause.message
  | .write path cause => "could not write `" ++ path ++ "`: " ++ cause.message
  | .tool name (.start cause) => "could not start `" ++ name.program ++ "`: " ++ cause.message
  | .tool name (.failed text) => "`" ++ name.program ++ "` failed:\n" ++ text
  | .run path cause => "could not start `" ++ path ++ "`: " ++ cause.message
  | .fault cause => cause.message

def cause? : BuildError → Option FileError
  | .read _ cause | .write _ cause | .run _ cause | .tool _ (.start cause) => some cause
  | _ => none

end BuildError

/-- Steps that change the working directory and may fail. What was done before a failure stays
done. -/
abbrev Build := ExceptT BuildError (StateM Workspace)

namespace Build

def fail {α : Type} (e : BuildError) : Build α := throw e

def readSource (path : String) : Build String := do
  match (← get).files.read path with
  | .ok text => return text
  | .error e => fail (.read path e)

def compile (platform : Platform) (path text : String) : Build Compilation := do
  match Compilation.run (← get).files.isFile platform path text with
  | .ok c => return c
  | .error f => fail (.fault f)

def writeFile (path text : String) : Build Unit := do
  let w ← get
  match w.files.write path ⟨text, false⟩ with
  | .ok files => set { w with files }
  | .error e => fail (.write path e)

def removeFile (path : String) : Build Unit :=
  modify fun w => { w with files := w.files.remove path }

def runTool (tool : ToolName) (arguments : List String) (output : String) : Build Unit := do
  let (outcome, w) := (← get).runTool tool arguments output
  set w
  match outcome with
  | .ok () => return ()
  | .error e => fail (.tool tool e)

def assemblerArguments (o : BuildOptions) : List String :=
  ["-f", o.platform.system.objectFormat, o.assemblyPath]

/-- Libraries come after the object that refers to them. -/
def linkerArguments (o : BuildOptions) (links : List String) : List String :=
  (if o.platform.system = .linux then ["-no-pie"] else [])
    ++ [o.objectPath]
    ++ o.searchPaths.flatMap (["-L", ·])
    ++ links.flatMap (fun link => (Library.ofLink link).arguments)
    ++ (if o.platform.isWindows then ["-lkernel32"] else [])

def link (o : BuildOptions) (assembly : Machine.Assembly) (links : List String) : Build Unit := do
  writeFile o.assemblyPath assembly.text
  runTool .assembler (assemblerArguments o) o.objectPath
  runTool .linker (linkerArguments o links) o.output
  if !o.keepFiles then
    if o.assembly.isNone then removeFile o.assemblyPath
    if o.object.isNone then removeFile o.objectPath

/-- Links what was compiled, if it could be. -/
def finish (o : BuildOptions) (c : Compilation) : Build Compilation := do
  match c.assembly with
  | none => fail (.findings c.findings)
  | some assembly =>
    link o assembly (c.program.links.map (·.value))
    return { c with stages := c.stages ++ [.assembling, .linking] }

def executable (path : String) (o : BuildOptions) : Build Compilation := do
  let text ← readSource path
  finish o (← compile o.platform path text)

def runProgram (path : String) : Build Outcome := do
  let (result, w) := (← get).runProgram path
  set w
  match result with
  | .ok outcome => return outcome
  | .error e => fail (.run path e)

end Build

end RegionCompiler
