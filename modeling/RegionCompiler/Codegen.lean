import RegionCompiler.Codegen.Stmt

/-! Assembly of a checked program: the collector, the embedded files and the functions. -/
namespace RegionCompiler.Codegen

open Machine

def layOutFrames (layouts : Registry) : List Function → Except Fault (List Routine)
  | [] => .ok []
  | f :: rest =>
    match Routine.ofFunction layouts f with
    | .error e => .error (.frame e)
    | .ok r => return r :: (← layOutFrames layouts rest)

/-- An embedded file is an array: its address and its length. -/
def embedData (e : Embed) : Except Fault (DataItem × DataItem) :=
  let symbol := embedSymbol e.name.value
  let bytes := symbol ++ "$bytes"
  let stop := symbol ++ "$end"
  match e.resolved with
  | none => .error (.unresolvedEmbed e.name.value)
  | some path => .ok (.file bytes path stop, .quads symbol [bytes, stop ++ " - " ++ bytes])

def embedsData : List Embed → Except Fault (List DataItem × List DataItem)
  | [] => .ok ([], [])
  | e :: rest => do
    let (file, array) ← embedData e
    let (files, arrays) ← embedsData rest
    return (file :: files, array :: arrays)

def routinesCode (env : Routine → Env) : List Routine → Gen Code
  | [] => return []
  | r :: rest => do
    let first ← functionCode (env r)
    return first ++ (← routinesCode env rest)

def utf8Bytes (s : String) : List Nat := s.toUTF8.toList.map UInt8.toNat

/-- The data of string literals, the first of which has the given number. -/
def stringsData (index : Nat) : List String → List DataItem
  | [] => []
  | s :: rest => .bytes (stringSymbol index) (utf8Bytes s) :: stringsData (index + 1) rest

/-- The size of what the program returns to its caller. -/
def mainResultSize (routines : List Routine) : Nat :=
  match routines.find? (·.name == "main") with
  | some r => r.frame.result
  | none => 0

structure Output where
  routines : List Routine
  assembly : Assembly

/-- Puts the data of embedded files and the code of functions behind that of the collector. -/
def join (platform : Platform) (p : Program) (routines : List Routine)
    (data : List DataItem × List DataItem) (made : Code × Supply) : Output :=
  let externs := (p.foreign.map (·.linkName) ++ Collector.cFunctions).foldl Assembly.addExtern
    (.empty platform)
  { routines
    assembly := { externs with
      code := Collector.code platform (mainResultSize routines) ++ made.1
      readOnly := data.1 ++ stringsData 0 made.2.strings
      data := data.2
      zeroed := Collector.state } }

def assemble (platform : Platform) (layouts : Registry) (p : Program) : Except Fault Output := do
  let routines ← layOutFrames layouts p.functions
  let data ← embedsData p.embeds
  let made ← (routinesCode (fun r => ⟨platform, layouts, routines, p.foreign, r⟩) routines).run
    ⟨Collector.labelCount, []⟩
  return join platform p routines data made

/-- Sizes add up while code is made, and some sum may not be a word. -/
def generate (platform : Platform) (layouts : Registry) (p : Program) : Except Fault Output := do
  let out ← assemble platform layouts p
  if out.assembly.code.all Instr.isCounted then return out else throw .overflow

end RegionCompiler.Codegen
