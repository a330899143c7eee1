import RegionCompiler.Platform

/-! The arguments of the program. An option may be given once, except for search paths; its value
follows it, in the same argument or the next one. -/
namespace RegionCompiler.CommandLine

/-- Options without a value. -/
inductive Flag
  | verbose
  | stats
  | showTokens
  | showTree
  | keepFiles
  | exitCode
deriving DecidableEq

/-- Options with a value. -/
inductive Setting
  | output
  | object
  | assembly
  | platform
  | searchPath
deriving DecidableEq

inductive Subcommand
  | build
  | run
  | version
deriving DecidableEq

def Subcommand.ofName? : String → Option Subcommand
  | "build" => some .build
  | "run" => some .run
  | "version" => some .version
  | _ => none

inductive OptionName
  | flag (f : Flag)
  | setting (s : Setting)
deriving DecidableEq

namespace OptionName

def ofLong? : String → Option OptionName
  | "verbose" => some (.flag .verbose)
  | "stats" => some (.flag .stats)
  | "display-lexer" => some (.flag .showTokens)
  | "display-parser" => some (.flag .showTree)
  | "keep-files" => some (.flag .keepFiles)
  | "exit-code" => some (.flag .exitCode)
  | "output" => some (.setting .output)
  | "output-obj" => some (.setting .object)
  | "output-nasm" => some (.setting .assembly)
  | "platform" => some (.setting .platform)
  | "lib-search-path" => some (.setting .searchPath)
  | _ => none

def ofShort? : Char → Option OptionName
  | 'v' => some (.flag .verbose)
  | 's' => some (.flag .stats)
  | 'o' => some (.setting .output)
  | 'p' => some (.setting .platform)
  | _ => none

def isAllowed (subcommand : Subcommand) : OptionName → Bool
  | .flag .verbose => true
  | .flag .exitCode => subcommand == .run
  | _ => subcommand != .version

end OptionName

/-- An argument once it is read. -/
inductive Item
  | flag (f : Flag)
  | setting (s : Setting) (value : String)
  | file (path : String)
deriving DecidableEq

/-- Whether an argument starts an option, so that it is not the value of the one before it. A
single dash is a name. -/
def isOption (argument : String) : Bool :=
  argument.startsWith "-" && argument != "-"

/-- Options of one letter in one argument. The value of the last one is the rest of the argument;
if there is no rest, that option still waits for it. -/
def readShort (subcommand : Subcommand) : List Char → Option (List Item × Option Setting)
  | [] => some ([], none)
  | c :: letters =>
    match (OptionName.ofShort? c).filter (·.isAllowed subcommand) with
    | none => none
    | some (.flag f) =>
      (readShort subcommand letters).map fun (items, waiting) => (.flag f :: items, waiting)
    | some (.setting s) =>
      match letters with
      | [] => some ([], some s)
      | '=' :: value => some ([.setting s (String.ofList value)], none)
      | value => some ([.setting s (String.ofList value)], none)

/-- An option by its long name, perhaps with its value behind an equals sign. -/
def readLong (subcommand : Subcommand) (body : List Char) : Option (List Item × Option Setting) :=
  let name := String.ofList (body.takeWhile (· != '='))
  let attached := (body.dropWhile (· != '=')).tail?
  match (OptionName.ofLong? name).filter (·.isAllowed subcommand), attached with
  | some (.flag f), none => some ([.flag f], none)
  | some (.setting s), some value => some ([.setting s (String.ofList value)], none)
  | some (.setting s), none => some ([], some s)
  | _, _ => none

/-- The arguments of a subcommand, the first of which is the value of the option that waits for
one. Behind two dashes all are names. -/
def readItems (subcommand : Subcommand) : Option Setting → List String → Option (List Item)
  | none, [] => some []
  | some _, [] => none
  | some s, argument :: rest =>
    if isOption argument then none
    else (readItems subcommand none rest).map (.setting s argument :: ·)
  | none, argument :: rest =>
    match argument.toList with
    | ['-', '-'] => some (rest.map .file)
    | '-' :: '-' :: body => do
      let (items, waiting) ← readLong subcommand body
      return items ++ (← readItems subcommand waiting rest)
    | '-' :: c :: letters => do
      let (items, waiting) ← readShort subcommand (c :: letters)
      return items ++ (← readItems subcommand waiting rest)
    | _ => (readItems subcommand none rest).map (.file argument :: ·)

def hasFlag (items : List Item) (f : Flag) : Bool := items.contains (.flag f)

def values (items : List Item) (s : Setting) : List String :=
  items.filterMap fun
    | .setting t value => if t = s then some value else none
    | _ => none

def files (items : List Item) : List String :=
  items.filterMap fun
    | .file path => some path
    | _ => none

/-- Whether no option is given too often. -/
def isSingle (items : List Item) : Bool :=
  [Flag.verbose, .stats, .showTokens, .showTree, .keepFiles, .exitCode].all
      (fun f => items.count (.flag f) ≤ 1)
    && [Setting.output, .object, .assembly, .platform].all (fun s => (values items s).length ≤ 1)
    && (files items).length ≤ 1

/-- What is built, and how. -/
structure BuildRequest where
  file : String
  output : Option String
  object : Option String
  assembly : Option String
  platform : Option Platform
  searchPaths : List String
  stats : Bool
  showTokens : Bool
  showTree : Bool
  keepFiles : Bool

inductive Command
  | build (request : BuildRequest)
  | run (request : BuildRequest) (showExitCode : Bool)
  | version

def readPlatform : List String → Option (Option Platform)
  | [] => some none
  | name :: _ => (Platform.ofName? name).map some

/-- Paths are never empty. -/
def readRequest (items : List Item) : Option BuildRequest := do
  let paths := files items ++ values items .output ++ values items .object
    ++ values items .assembly ++ values items .searchPath
  if paths.any String.isEmpty || !isSingle items then none
  let platform ← readPlatform (values items .platform)
  return {
    file := (files items).headD "main.bz"
    output := (values items .output).head?
    object := (values items .object).head?
    assembly := (values items .assembly).head?
    platform
    searchPaths := values items .searchPath
    stats := hasFlag items .stats
    showTokens := hasFlag items .showTokens
    showTree := hasFlag items .showTree
    keepFiles := hasFlag items .keepFiles }

def readSubcommand (subcommand : Subcommand) (arguments : List String) : Option Command := do
  let items ← readItems subcommand none arguments
  match subcommand with
  | .build => return .build (← readRequest items)
  | .run => return .run (← readRequest items) (hasFlag items .exitCode)
  | .version => if isSingle items && (files items).isEmpty then return .version else none

/-- The command that the arguments give, or nothing if they cannot be understood. In front of a
subcommand stands at most the request for a verbose log, which changes no answer. -/
def read : List String → Option Command
  | [] => none
  | first :: rest =>
    if first = "-v" ∨ first = "--verbose" then
      match rest with
      | [] => none
      | second :: rest => do readSubcommand (← Subcommand.ofName? second) rest
    else do readSubcommand (← Subcommand.ofName? first) rest

end RegionCompiler.CommandLine
