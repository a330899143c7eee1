import RegionCompiler.Compilation

/-! What a reader is told about a problem: the message, the line that it is on with a mark under
the text in question, remarks on other places, and the position. -/
namespace RegionCompiler.Report

def spaces (n : Nat) : String := String.ofList (List.replicate n ' ')

/-- How long the mark is. Text that goes on in the next line is marked to the end of its first
one. -/
def markLength (line : String) (span : Span) : Nat :=
  if span.start.line = span.stop.line then span.length
  else line.utf8ByteSize - span.start.column

/-- The line on which a span starts, with its mark. -/
def excerpt (text : String) (span : Span) : String :=
  match Source.lineOf? text span with
  | none => ""
  | some line =>
    let number := toString (span.start.line + 1)
    let mark := "^" ++ String.ofList (List.replicate (markLength line span - 1) '~')
    number ++ " | " ++ line ++ "\n"
      ++ spaces number.length ++ " | " ++ spaces span.start.column ++ mark ++ "\n\n"

def remark (text : String) (r : Located String) : String :=
  "note: " ++ r.value ++ "\n" ++ excerpt text r.span

def finding (path text : String) (f : Finding) : String :=
  "error[" ++ f.name ++ "]: " ++ f.message ++ "\n\n" ++ excerpt text f.span
    ++ String.join (f.related.map (remark text))
    ++ "In " ++ path ++ ":" ++ f.span.display ++ "\n\n"

end RegionCompiler.Report
