import RegionCompiler.Parse.Expr
import RegionCompiler.Program.Stmt

/-! Statements and blocks. -/
namespace RegionCompiler.Parse

def statementsAt (statement : Parser Stmt) : Nat → Parser (List Stmt)
  | 0 => throw .endOfFile
  | n + 1 => do
    if ← nextIsMark .rightBrace then
      let _ ← consume
      return []
    else
      let first ← statement
      return first :: (← statementsAt statement n)

/-- Statements in braces or a single one, perhaps after `&&`. -/
def blockOf (statement : Parser Stmt) : Parser Block := do
  let start := (← peek).start
  let manual ← nextIsMark .doubleAmpersand
  if manual then
    let _ ← consume
  if ← nextIsMark .leftBrace then
    let _ ← consume
    let statements ← bounded (statementsAt statement)
    return .mk ⟨start, ← position⟩ manual statements
  else
    let only ← statement
    return .mk ⟨start, ← position⟩ manual [only]

def letAfter (start : Location) (allocate : Bool) : Parser Stmt := do
  let ty ← type
  let name ← expectName "variable type"
  expectMark .assignment "variable name"
  let value ← expression
  return .let_ ⟨start, ← position⟩ allocate ty name value none

def forAfter (start : Location) (block : Parser Block) : Parser Stmt := do
  let iterator ← expectName "for"
  expectWord .from_ "iterator name"
  let first ← expression
  expectWord .until_ "lower bound"
  let last ← expression
  let body ← block
  return .for_ ⟨start, ← position⟩ iterator first last body none

def ifAfter (start : Location) (block : Parser Block) : Parser Stmt := do
  let condition ← expression
  let yes ← block
  if ← nextIsWord .else_ then
    let _ ← consume
    let no ← block
    return .ifElse ⟨start, ← position⟩ condition yes no
  else return .if_ ⟨start, ← position⟩ condition yes

/-- A statement, given the parser for the blocks inside it. -/
def statementOver (block : Parser Block) : Parser Stmt := do
  let token ← peek
  let start := token.start
  match token.kind with
  | .keyword .let_ =>
    let _ ← consume
    letAfter start false
  | .keyword .letAlloc =>
    let _ ← consume
    letAfter start true
  | .keyword .mut_ =>
    let _ ← consume
    let target ← place expression
    expectMark .assignment "mut target"
    let value ← expression
    return .mut_ ⟨start, ← position⟩ target value
  | .keyword .call_ =>
    let _ ← consume
    let value ← expression
    return .call ⟨start, ← position⟩ value
  | .keyword .collect_ =>
    let _ ← consume
    let value ← expression
    return .collect ⟨start, ← position⟩ value
  | .keyword .ret_ =>
    let _ ← consume
    if ((← ahead? 0).map canStartExpression).getD false then
      let value ← expression
      return .return_ ⟨start, ← position⟩ (some value)
    else return .return_ ⟨start, ← position⟩ none
  | .keyword .break_ =>
    let _ ← consume
    return .break_ ⟨start, ← position⟩
  | .keyword .continue_ =>
    let _ ← consume
    return .continue_ ⟨start, ← position⟩
  | .keyword .if_ =>
    let _ ← consume
    ifAfter start block
  | .keyword .while_ =>
    let _ ← consume
    let condition ← expression
    let body ← block
    return .while_ ⟨start, ← position⟩ condition body
  | .keyword .do_ =>
    let _ ← consume
    let body ← block
    expectWord .while_ "do block"
    let condition ← expression
    return .doWhile ⟨start, ← position⟩ body condition
  | .keyword .for_ =>
    let _ ← consume
    forAfter start block
  | .punctuator .leftBrace | .punctuator .doubleAmpersand =>
    let body ← block
    return .block ⟨start, ← position⟩ body
  | _ =>
    let token ← consume
    fail (.expectedStatement token)

/-- A nested statement starts after a token of its own. -/
def statementAt : Nat → Parser Stmt
  | 0 => throw .endOfFile
  | n + 1 => statementOver (blockOf (statementAt n))

def statement : Parser Stmt :=
  bounded statementAt

def block : Parser Block :=
  bounded fun n => blockOf (statementAt n)

end RegionCompiler.Parse
