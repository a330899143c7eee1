/-! The systems that programs are built for. -/
namespace RegionCompiler

inductive OperatingSystem
  | linux
  | windows
deriving DecidableEq

namespace OperatingSystem

def executableExtension : OperatingSystem → String
  | .linux => ""
  | .windows => "exe"

def objectExtension : OperatingSystem → String
  | .linux => "o"
  | .windows => "obj"

/-- The object format that the assembler is asked for. -/
def objectFormat : OperatingSystem → String
  | .linux => "elf64"
  | .windows => "win64"

def readOnlySection : OperatingSystem → String
  | .linux => ".rodata"
  | .windows => ".rdata"

end OperatingSystem

/-- How C functions are called. -/
inductive Convention
  | systemV
  | microsoft
deriving DecidableEq

structure Platform where
  system : OperatingSystem
  convention : Convention
deriving DecidableEq

namespace Platform

def linux : Platform := ⟨.linux, .systemV⟩

def windows : Platform := ⟨.windows, .microsoft⟩

def isWindows (p : Platform) : Bool := p.system == .windows

def ofName? : String → Option Platform
  | "linux" => some linux
  | "win" | "windows" => some windows
  | _ => none

/-- What is said about a name that is no platform's. -/
def unknownMessage (name : String) : String :=
  "unknown platform `" ++ name ++ "`, expected `win` or `linux`"

end Platform

end RegionCompiler
