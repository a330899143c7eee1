/-! Positions in a source text. An offset counts UTF-8 bytes, a line counts newlines and a
column counts characters, all from zero; what is shown to a reader counts from one. -/
namespace RegionCompiler

structure Location where
  offset : Nat
  line : Nat
  column : Nat
deriving DecidableEq, Inhabited, Ord

/-- The beginning of every text. -/
def Location.origin : Location := ⟨0, 0, 0⟩

/-- The location after a character that stands at `at_`. -/
def Location.advance (at_ : Location) (c : Char) : Location :=
  if c = '\n' then ⟨at_.offset + c.utf8Size, at_.line + 1, 0⟩
  else ⟨at_.offset + c.utf8Size, at_.line, at_.column + 1⟩

def Location.advanceBy (at_ : Location) (text : List Char) : Location :=
  text.foldl Location.advance at_

@[simp] theorem Location.advanceBy_nil (at_ : Location) : at_.advanceBy [] = at_ := rfl

@[simp] theorem Location.advanceBy_cons (at_ : Location) (c : Char) (text : List Char) :
    at_.advanceBy (c :: text) = (at_.advance c).advanceBy text := rfl

@[simp] theorem Location.advanceBy_append (at_ : Location) (s t : List Char) :
    at_.advanceBy (s ++ t) = (at_.advanceBy s).advanceBy t :=
  List.foldl_append

def Location.display (at_ : Location) : String :=
  s!"{at_.line + 1}:{at_.column + 1}"

/-- The text between two locations. -/
structure Span where
  start : Location
  stop : Location
deriving DecidableEq, Inhabited, Ord

namespace Span

def origin : Span := ⟨Location.origin, Location.origin⟩

/-- Length in bytes; a span that ends before it starts is empty. -/
def length (s : Span) : Nat :=
  s.stop.offset - s.start.offset

def isEmpty (s : Span) : Bool :=
  s.length == 0

/-- From the start of one span to the end of another. -/
def through (s t : Span) : Span :=
  ⟨s.start, t.stop⟩

/-- The empty span at the end of a span. -/
def after (s : Span) : Span :=
  ⟨s.stop, s.stop⟩

def display (s : Span) : String :=
  s.start.display

end Span

/-- A value with the text it was read from. -/
structure Located (α : Type) where
  span : Span
  value : α
deriving DecidableEq, Inhabited

namespace Source

/-- A line without its terminator, which is a newline or a carriage return and a newline. -/
def dropTerminator (line : List Char) : List Char :=
  match line.reverse with
  | '\n' :: '\r' :: rest => rest.reverse
  | '\n' :: rest => rest.reverse
  | _ => line

/-- The lines of a text, each with its terminator; nothing follows the last newline. -/
def splitLines : List Char → List (List Char)
  | [] => []
  | c :: rest =>
    if c = '\n' then [c] :: splitLines rest
    else
      match splitLines rest with
      | [] => [[c]]
      | line :: lines => (c :: line) :: lines

def lineOf? (text : String) (span : Span) : Option String :=
  ((splitLines text.toList)[span.start.line]?).map fun line => String.ofList (dropTerminator line)

end Source

end RegionCompiler
