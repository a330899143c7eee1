import RegionCompiler.ExitStatus
import RegionCompiler.FileSystem
import RegionCompiler.Text.Blank

/-! The assembler, the linker and the programs that the linker makes. -/
namespace RegionCompiler

/-- How an installed tool behaves. -/
structure Tool where
  exitCode : Nat
  stdout : String
  stderr : String
  /-- Does not write the file that it was asked for. -/
  silent : Bool

inductive ToolName
  | assembler
  | linker
deriving DecidableEq

def ToolName.program : ToolName → String
  | .assembler => "nasm"
  | .linker => "gcc"

/-- A working directory, the tools that are installed and the commands that were run. -/
structure Workspace where
  files : FileSystem
  installed : ToolName → Option Tool
  /-- How a program ends that the linker has made. -/
  program : Outcome
  commands : List (List String)

inductive ToolError
  | start (cause : FileError)
  | failed (text : String)
deriving DecidableEq

/-- What a tool said when it failed; it may have used either stream. -/
def Tool.complaint (t : Tool) : String :=
  if t.stderr.toList.all Text.isBlank then t.stdout else t.stderr

namespace Workspace

/-- What a tool writes, as far as it matters here. -/
def product (tool : ToolName) : File := ⟨"", tool == .linker⟩

/-- A tool that succeeds writes the file, if it can. -/
def afterTool (w : Workspace) (tool : ToolName) (arguments : List String) (output : String)
    (t : Tool) : Workspace :=
  { w with
    commands := w.commands ++ [tool.program :: arguments]
    files :=
      if t.exitCode % 256 = 0 && !t.silent then
        (w.files.write output (product tool)).toOption.getD w.files
      else w.files }

/-- Runs a tool with the given arguments, which end with those for the output. -/
def runTool (w : Workspace) (tool : ToolName) (arguments : List String) (output : String) :
    Except ToolError Unit × Workspace :=
  let arguments := arguments ++ ["-o", output]
  if arguments.any (·.contains '\x00') then (.error (.start .invalidArgument), w)
  else
    match w.installed tool with
    | none => (.error (.start .notFound), w)
    | some t =>
      (if t.exitCode % 256 = 0 then .ok () else .error (.failed t.complaint),
        w.afterTool tool arguments output t)

/-- Why a name cannot be started that is none of an installed tool. The directory of the tools
and the one above it are no programs. -/
def unknownProgram (name : String) : FileError :=
  if FileSystem.maxComponentSize < name.utf8ByteSize then .nameTooLong
  else if name = "." ∨ name = ".." then .permissionDenied
  else .notFound

/-- Runs a program by its name. Only tools are found so. -/
def runNamed (w : Workspace) (name : String) : Except FileError Outcome × Workspace :=
  match [ToolName.assembler, .linker].find? (·.program == name) with
  | none => (.error (unknownProgram name), w)
  | some tool =>
    match w.installed tool with
    | none => (.error .notFound, w)
    | some t => (.ok (.exited t.exitCode), { w with commands := w.commands ++ [[name]] })

/-- The outcome of the program at a path, if it can be started. -/
def runFile (w : Workspace) (path : String) : Except FileError Outcome :=
  match w.files.find path with
  | .file _ f => if f.isProgram then .ok w.program else .error .permissionDenied
  | .directory _ => .error .permissionDenied
  | .absent _ => .error .notFound
  | .misnamed e | .fault e => .error e

/-- Runs a program. A name without a slash is looked for among the tools. -/
def runProgram (w : Workspace) (path : String) : Except FileError Outcome × Workspace :=
  if path.contains '\x00' then (.error .invalidArgument, w)
  else if path.contains '/' then (w.runFile path, w)
  else w.runNamed path

end Workspace

end RegionCompiler
