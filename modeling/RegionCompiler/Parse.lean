import RegionCompiler.Parse.Declaration
import RegionCompiler.Token.Lexer

/-! From a source text to a program. -/
namespace RegionCompiler.Parse

/-- What was read from a text. There is a program even if there are faults. -/
structure Output where
  tokens : List Token
  reports : List Token.Report
  program : Program
  diagnostics : List Diagnostic

def Output.hasErrors (o : Output) : Bool :=
  !o.reports.isEmpty || !o.diagnostics.isEmpty

def source (path text : String) : Output :=
  let (tokens, reports) := Token.lex text
  let (program, diagnostics) := program path tokens
  ⟨tokens, reports, program, diagnostics⟩

end RegionCompiler.Parse
