import RegionCompiler.Codegen
import RegionCompiler.Parse
import RegionCompiler.Path
import RegionCompiler.Typing.Check

/-! From a source text to assembly. A stage runs only if the ones before it found nothing
wrong. -/
namespace RegionCompiler

inductive Stage
  | parsing
  | analyzing
  | generating
  | assembling
  | linking
deriving DecidableEq

def Stage.name : Stage → String
  | .parsing => "Parsing"
  | .analyzing => "Analyzing"
  | .generating => "Generating"
  | .assembling => "Assembling"
  | .linking => "Linking"

/-- What found a problem. -/
inductive Origin
  | lexer
  | parser
  | semantics
deriving DecidableEq

def Origin.name : Origin → String
  | .lexer => "lexer"
  | .parser => "parser"
  | .semantics => "semantics"

/-- A problem in a source text, whatever found it. -/
structure Finding where
  origin : Origin
  name : String
  message : String
  span : Span
  /-- Remarks on other places. -/
  related : List (Located String)

namespace Finding

def display (f : Finding) : String := f.span.display ++ ": " ++ f.message

def ofReport (r : Token.Report) : Finding :=
  ⟨.lexer, r.fault.name, r.fault.message, ⟨r.position, r.position⟩, []⟩

def ofParse (d : Parse.Diagnostic) : Finding := ⟨.parser, d.name, d.message, d.span, []⟩

def ofTyping (d : Typing.Diagnostic) : Finding :=
  ⟨.semantics, d.problem.name, d.problem.message, d.span,
    d.related.map fun r => ⟨r.span, r.value.message⟩⟩

end Finding

structure Compilation where
  tokens : List Token
  program : Program
  findings : List Finding
  /-- Given if nothing was found. -/
  assembly : Option Machine.Assembly
  /-- The stages that were run. -/
  stages : List Stage

namespace Compilation

def isSuccess (c : Compilation) : Bool := c.findings.isEmpty && c.assembly.isSome

def instructionCount (c : Compilation) : Nat :=
  match c.assembly with
  | some a => a.instructionCount
  | none => 0

/-- Where the files that a source names are looked for. -/
def baseDirectory (path : String) : String := (Path.parent? path).getD ""

/-- Compiles a source text. `isFile` tells which files exist. -/
def run (isFile : String → Bool) (platform : Platform) (path text : String) :
    Except Codegen.Fault Compilation :=
  let parsed := Parse.source path text
  if parsed.hasErrors then
    .ok {
      tokens := parsed.tokens
      program := parsed.program
      findings := parsed.reports.map .ofReport ++ parsed.diagnostics.map .ofParse
      assembly := none
      stages := [.parsing] }
  else
    let (program, known) := Typing.analyze isFile (baseDirectory path) .initial parsed.program
    if known.overflows then .error .overflow
    else if !known.diagnostics.isEmpty then
      .ok {
        tokens := parsed.tokens
        program
        findings := known.diagnostics.map .ofTyping
        assembly := none
        stages := [.parsing, .analyzing] }
    else
      (Codegen.generate platform known.layouts program).map fun output => {
        tokens := parsed.tokens
        program
        findings := []
        assembly := some output.assembly
        stages := [.parsing, .analyzing, .generating] }

end Compilation

end RegionCompiler
