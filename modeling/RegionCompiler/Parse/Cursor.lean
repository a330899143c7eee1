import RegionCompiler.Token
import RegionCompiler.Ty

/-! A parser reads tokens from a cursor and stops at the first one that does not fit. The cursor
survives a failure: reading goes on from where it stopped. -/
namespace RegionCompiler.Parse

/-- A token that does not fit, or the end of the text. -/
inductive Diagnostic
  | expectedDeclaration (token : Token)
  | expectedIdentifier (token : Token) (context : String)
  | expectedPunctuator (token : Token) (expected : Punctuator) (context : String)
  | expectedKeyword (token : Token) (expected : Keyword) (context : String)
  | expectedString (token : Token) (context : String)
  | expectedType (token : Token)
  | expectedStatement (token : Token)
  | unknownExpression (token : Token)
  | expectedBody (token : Token)
  | invalidArrayLength (token : Token)
  | endOfFile (position : Location)
deriving DecidableEq

namespace Diagnostic

def token? : Diagnostic → Option Token
  | .expectedDeclaration t | .expectedIdentifier t _ | .expectedPunctuator t _ _
  | .expectedKeyword t _ _ | .expectedString t _ | .expectedType t | .expectedStatement t
  | .unknownExpression t | .expectedBody t | .invalidArrayLength t => some t
  | .endOfFile _ => none

def span : Diagnostic → Span
  | .endOfFile position => ⟨position, position⟩
  | d => (d.token?.map Token.span).getD Span.origin

def name : Diagnostic → String
  | .expectedDeclaration _ => "expected-declaration"
  | .expectedIdentifier _ _ => "expected-identifier"
  | .expectedPunctuator _ _ _ => "expected-punctuator"
  | .expectedKeyword _ _ _ => "expected-keyword"
  | .expectedString _ _ => "expected-string-literal"
  | .expectedType _ => "expected-type"
  | .expectedStatement _ => "expected-statement"
  | .unknownExpression _ => "unknown-start-of-expression"
  | .expectedBody _ => "function-body-expected-curly-bracket"
  | .invalidArrayLength _ => "invalid-array-length"
  | .endOfFile _ => "unexpected-end-of-file"

def message : Diagnostic → String
  | .expectedDeclaration t =>
    "Expected `fn`, `cfn`, `type`, `link` or `embed`, but got: " ++ t.kind.text
  | .expectedIdentifier t context =>
    "Expected an identifier after " ++ context ++ ", but got: " ++ t.kind.text
  | .expectedPunctuator t expected context =>
    "Expected " ++ expected.name ++ " `" ++ expected.text ++ "` after " ++ context
      ++ ", but got: " ++ t.kind.text
  | .expectedKeyword t expected context =>
    "Expected keyword `" ++ expected.text ++ "` after " ++ context ++ ", but got: " ++ t.kind.text
  | .expectedString t context =>
    "Expected a string after `" ++ context ++ "`, but got: " ++ t.kind.text
  | .expectedType t => "Expected a type, but got: " ++ t.kind.text
  | .expectedStatement t => "Expected a statement, but got: " ++ t.kind.text
  | .unknownExpression t => "Unknown start of an expression: " ++ t.kind.text
  | .expectedBody t =>
    "Expected `\x7b` or `&&` to start the function body, but got: " ++ t.kind.text
  | .invalidArrayLength t => "Array length must be an integer, but got: " ++ t.kind.text
  | .endOfFile _ => "Unexpected end of file"

end Diagnostic

/-- Why a parser stopped. -/
inductive Failure
  | endOfFile
  | reported (diagnostic : Diagnostic)
deriving DecidableEq

def Failure.message : Failure → String
  | .endOfFile => "Unexpected end of file"
  | .reported _ => "Declaration could not be parsed"

/-- What is left to read, and where the token read last stands. -/
structure Cursor where
  rest : List Token
  last : Span

def Cursor.ofTokens (tokens : List Token) : Cursor :=
  ⟨tokens, Span.origin⟩

abbrev Parser := EStateM Failure Cursor

def fail {α : Type} (d : Diagnostic) : Parser α :=
  throw (.reported d)

/-- The next token, which is left in place. -/
def peek : Parser Token := fun c =>
  match c.rest with
  | [] => .error .endOfFile c
  | t :: _ => .ok t c

def consume : Parser Token := fun c =>
  match c.rest with
  | [] => .error .endOfFile c
  | t :: rest => .ok t ⟨rest, t.span⟩

/-- Where the text read so far ends. -/
def position : Parser Location := fun c => .ok c.last.stop c

/-- The kind of the token `n` places ahead. -/
def ahead? (n : Nat) : Parser (Option Token.Kind) := fun c =>
  .ok (c.rest[n]?.map Token.kind) c

def nextIs (kind : Token.Kind) : Parser Bool := do
  return (← ahead? 0) == some kind

def nextIsMark (mark : Punctuator) : Parser Bool :=
  nextIs (.punctuator mark)

def nextIsWord (word : Keyword) : Parser Bool :=
  nextIs (.keyword word)

/-- Runs a parser that may use as many steps as there are tokens left. -/
def bounded {α : Type} (p : Nat → Parser α) : Parser α := fun c =>
  p c.rest.length c

def expectMark (expected : Punctuator) (context : String) : Parser Unit := do
  let t ← consume
  if t.kind ≠ .punctuator expected then fail (.expectedPunctuator t expected context)

def expectWord (expected : Keyword) (context : String) : Parser Unit := do
  let t ← consume
  if t.kind ≠ .keyword expected then fail (.expectedKeyword t expected context)

def expectName (context : String) : Parser (Located String) := do
  let t ← consume
  match t.kind with
  | .identifier name => return ⟨t.span, name⟩
  | _ => fail (.expectedIdentifier t context)

def expectString (context : String) : Parser (Located String) := do
  let t ← consume
  match t.kind with
  | .string value => return ⟨t.span, value⟩
  | _ => fail (.expectedString t context)

/-- Whether the list that `close` ends goes on after an item. -/
def another (close : Punctuator) (context : String) : Parser Bool := do
  let t ← consume
  if t.kind = .punctuator .comma then return true
  else if t.kind = .punctuator close then return false
  else fail (.expectedPunctuator t close context)

/-- Items between commas, of which there is at least one. -/
def itemsAt {α : Type} (item : Parser α) (close : Punctuator) (context : String) :
    Nat → Parser (List α)
  | 0 => throw .endOfFile
  | n + 1 => do
    let first ← item
    if ← another close context then return first :: (← itemsAt item close context n)
    else return [first]

/-- Items between commas up to `close`, of which there may be none. -/
def items {α : Type} (item : Parser α) (close : Punctuator) (context : String) :
    Parser (List α) := do
  if ← nextIsMark close then
    let _ ← consume
    return []
  else bounded (itemsAt item close context)

/-- As `items`, but a comma may also follow the last item. -/
def trailingItemsAt {α : Type} (item : Parser α) (close : Punctuator) (context : String) :
    Nat → Parser (List α)
  | 0 => throw .endOfFile
  | n + 1 => do
    if ← nextIsMark close then
      let _ ← consume
      return []
    else
      let first ← item
      if ← another close context then return first :: (← trailingItemsAt item close context n)
      else return [first]

def trailingItems {α : Type} (item : Parser α) (close : Punctuator) (context : String) :
    Parser (List α) :=
  bounded (trailingItemsAt item close context)

/-- The modifiers after a type's base name. -/
def modifiersAt : Nat → Ty → Parser Ty
  | 0, t => return t
  | n + 1, t => do
    match ← ahead? 0 with
    | some (.punctuator .leftBracket) =>
      let _ ← consume
      let token ← consume
      match token.kind with
      | .punctuator .rightBracket => modifiersAt n (.array t .dynamic)
      | .integer literal =>
        expectMark .rightBracket "array length"
        modifiersAt n (.array t (.fixed literal.value.toNat))
      | _ => fail (.invalidArrayLength token)
    | some (.punctuator .atSign) =>
      let _ ← consume
      modifiersAt n (.pointer t)
    | _ => return t

def type : Parser (Located Ty) := do
  let token ← consume
  match token.kind with
  | .identifier name =>
    let t ← bounded fun n => modifiersAt n (.base name)
    return ⟨⟨token.start, ← position⟩, t⟩
  | _ => fail (.expectedType token)

end RegionCompiler.Parse
