import RegionCompiler.Cli

/-! The program. It starts no other programs, so that a build ends with the assembly. -/
namespace RegionCompiler.Main

/-- The paths of all files below a directory, given its entries and the path to it. -/
partial def filesBelow (entries : Array IO.FS.DirEntry) (above : String) : IO (List String) := do
  let mut found := []
  for entry in entries do
    let path := Path.join above entry.fileName
    if ← entry.path.isDir then
      found := found ++ (← filesBelow (← entry.path.readDir) path)
    else
      found := found ++ [path]
  return found

/-- The file that a command reads. -/
def sourceOf : CommandLine.Command → Option String
  | .build request | .run request _ => some request.file
  | .version => none

def loadFiles (source : Option String) : IO FileSystem := do
  let paths ← filesBelow (← (← IO.currentDir).readDir) ""
  let files := FileSystem.ofFiles (paths.map (·, ""))
  match source with
  | none => return files
  | some path =>
    if files.isFile path then
      let text ← IO.FS.readFile path
      return (files.write path ⟨text, false⟩).toOption.getD files
    else return files

/-- Makes the working directory what the command has made of it. -/
def storeFiles (before after : FileSystem) : IO Unit := do
  for (name, file) in after.files do
    if before.get? name != some file then
      IO.FS.writeFile ("/".intercalate name) file.contents
  for (name, _) in before.files do
    if (after.get? name).isNone then
      IO.FS.removeFile ("/".intercalate name)

end RegionCompiler.Main

open RegionCompiler in
def main (arguments : List String) : IO UInt32 := do
  match CommandLine.read arguments with
  | none =>
    (← IO.getStderr).putStrLn "error: the arguments could not be understood"
    return 2
  | some command =>
    let files ← Main.loadFiles (Main.sourceOf command)
    let (response, after) := Cli.run command ⟨files, fun _ => none, .exited 0, []⟩
    Main.storeFiles files after.files
    (← IO.getStdout).putStr response.stdout
    (← IO.getStderr).putStr response.stderr
    return UInt32.ofNat (response.exitCode % 256)
