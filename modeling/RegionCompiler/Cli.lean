import RegionCompiler.Build
import RegionCompiler.CommandLine
import RegionCompiler.Report
import RegionCompiler.Statistics

/-! The command line: what is printed, and how the program ends. -/
namespace RegionCompiler.Cli

open CommandLine

def versionText : String := "borzoi 0.0.3"

/-- Directories that are searched for libraries if they exist. -/
def defaultSearchPaths : List String := ["lib", "libs", "module", "modules"]

/-- Adds the default search paths that exist and are not yet among the given ones. -/
def searchPaths (files : FileSystem) (given : List String) : List String :=
  defaultSearchPaths.foldl (fun paths directory =>
    if files.isDirectory directory
        && !paths.any (fun p => Path.components p == Path.components directory)
    then paths ++ [directory] else paths) given

/-- Where the executable goes: to the given path, or else next to the source or, under the same
name, into the given directory. -/
def outputPath (request : BuildRequest) (directory : Option String) (default : String) : String :=
  match request.output, directory, Path.fileName? default with
  | some output, _, _ => output
  | none, some directory, some name => Path.join directory name
  | none, _, _ => default

def buildOptions (files : FileSystem) (request : BuildRequest) (directory : Option String) :
    BuildOptions :=
  let plain := BuildOptions.ofSource request.file (request.platform.getD .linux)
  { plain with
    output := outputPath request directory plain.output
    object := request.object
    assembly := request.assembly
    keepFiles := request.keepFiles
    searchPaths := searchPaths files request.searchPaths }

inductive Failure
  | missing (file : String)
  | rejected (file : String) (count : Nat)
  | build (cause : BuildError)

namespace Failure

/-- Says what failed, and why once more where the system gave the reason for a step that has a
message of its own. -/
def message : Failure → String
  | .missing file => "file `" ++ file ++ "` does not exist"
  | .rejected file count =>
    "could not compile `" ++ file ++ "` due to " ++ toString count ++ " diagnostic(s)"
  | .build (.read path cause) => (BuildError.read path cause).message
  | .build e =>
    match e.cause? with
    | some cause => e.message ++ ": " ++ cause.message
    | none => e.message

end Failure

/-- A workspace and what was printed in it. -/
structure Session where
  workspace : Workspace
  stdout : String
  stderr : String

abbrev Action := ExceptT Failure (StateM Session)

def print (line : String) : Action Unit :=
  modify fun s => { s with stdout := s.stdout ++ line ++ "\n" }

def complain (text : String) : Action Unit :=
  modify fun s => { s with stderr := s.stderr ++ text }

def perform {α : Type} (steps : Build α) : Action α := do
  let s ← get
  let (outcome, workspace) := (ExceptT.run steps).run s.workspace
  set { s with workspace }
  match outcome with
  | .ok a => return a
  | .error e => throw (.build e)

/-- The figures of a compilation. No clock is read, so that the stages take no time. -/
def figures (c : Compilation) : Statistics where
  stages := c.stages.map (·, 0)
  tokens := c.tokens.length
  functions := c.program.functions.length
  instructions := c.instructionCount

/-- Builds an executable and gives its path. -/
def build (request : BuildRequest) (directory : Option String) : Action String := do
  let files := (← get).workspace.files
  let options := buildOptions files request directory
  if !files.pathExists request.file then throw (.missing request.file)
  let text ← perform (Build.readSource request.file)
  let c ← perform (Build.compile options.platform request.file text)
  if request.showTokens then
    for token in c.tokens do
      print token.kind.text
  if !c.isSuccess then
    for f in c.findings do
      complain (Report.finding request.file text f)
    throw (.rejected request.file c.findings.length)
  let built ← perform (Build.finish options c)
  print "Build was successful!"
  if request.stats then
    print (figures built).text
  return options.output

/-- Where programs go that are built to be run once. -/
def scratchDirectory : String := "<tmp>"

/-- Builds a program, runs it and gives its exit code. -/
def runOnce (request : BuildRequest) (showExitCode : Bool) : Action Nat := do
  let executable ← build request (some scratchDirectory)
  let outcome ← perform (Build.runProgram executable)
  if let some reason := outcome.abnormal then
    complain ("\nerror: program stopped abnormally: " ++ reason ++ "\n")
  let code := outcome.exitCode.getD 1
  if showExitCode then
    print ("\nProgram finished with exit code " ++ toString code)
  return code

def changeFiles (f : FileSystem → FileSystem) (w : Workspace) : Workspace :=
  { w with files := f w.files }

def command : Command → Action Nat
  | .build request => do
    let _ ← build request none
    return 0
  | .run request showExitCode => runOnce request showExitCode
  | .version => do
    print versionText
    return 0

/-- What the program printed and its exit code. -/
structure Response where
  stdout : String
  stderr : String
  exitCode : Nat

/-- The exit code of a failure; faults of the compiler itself have one of their own. -/
def Failure.exitCode : Failure → Nat
  | .build (.fault _) => 101
  | _ => 1

def respond (outcome : Except Failure Nat) (s : Session) : Response :=
  match outcome with
  | .ok code => ⟨s.stdout, s.stderr, code⟩
  | .error e => ⟨s.stdout, s.stderr ++ "error: " ++ e.message ++ "\n", e.exitCode⟩

/-- Runs a command. The scratch directory exists only meanwhile. -/
def run (c : Command) (w : Workspace) : Response × Workspace :=
  let prepared := changeFiles (·.addDirectory scratchDirectory) w
  let (outcome, s) := (ExceptT.run (command c)).run ⟨prepared, "", ""⟩
  (respond outcome s, changeFiles (·.removeDirectory scratchDirectory) s.workspace)

end RegionCompiler.Cli
