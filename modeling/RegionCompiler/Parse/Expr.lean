import RegionCompiler.Parse.Cursor
import RegionCompiler.Program.Expr

/-! Expressions in four levels of binary operators, which associate to the left, over prefix
operators, conversions and leaves. A nested expression starts after a token of its own, so as
many levels of nesting as there are tokens are enough. -/
namespace RegionCompiler.Parse

def fresh (start stop : Location) : Node :=
  ⟨⟨start, stop⟩, none⟩

def logicalOp? : Token.Kind → Option BinaryOp
  | .keyword .and_ => some .and_
  | .keyword .or_ => some .or_
  | .keyword .xor_ => some .xor_
  | _ => none

def comparisonOp? : Token.Kind → Option BinaryOp
  | .punctuator .equals => some .equal
  | .punctuator .notEquals => some .notEqual
  | .punctuator .less => some .less
  | .punctuator .lessEqual => some .lessOrEqual
  | .punctuator .greater => some .greater
  | .punctuator .greaterEqual => some .greaterOrEqual
  | _ => none

def additiveOp? : Token.Kind → Option BinaryOp
  | .punctuator .plus => some .add
  | .punctuator .minus => some .subtract
  | _ => none

def multiplicativeOp? : Token.Kind → Option BinaryOp
  | .punctuator .asterisk => some .multiply
  | .punctuator .slash => some .divide
  | .punctuator .percent => some .modulo
  | .punctuator .doublePercent => some .flooredModulo
  | _ => none

def unaryOp? : Token.Kind → Option UnaryOp
  | .keyword .not_ | .punctuator .exclamation => some .not_
  | .punctuator .minus => some .negate
  | .punctuator .ampersand => some .release
  | _ => none

/-- Operators of one level and their right operands, taken onto the left one. -/
def binaryAt (op? : Token.Kind → Option BinaryOp) (operand : Parser Expr) :
    Nat → Expr → Parser Expr
  | 0, lhs => return lhs
  | n + 1, lhs => do
    match (← ahead? 0).bind op? with
    | none => return lhs
    | some op =>
      let token ← consume
      let rhs ← operand
      binaryAt op? operand n
        (.binary (fresh lhs.span.start rhs.span.stop) ⟨token.span, op⟩ lhs rhs)

def binary (op? : Token.Kind → Option BinaryOp) (operand : Parser Expr) : Parser Expr := do
  let lhs ← operand
  bounded fun n => binaryAt op? operand n lhs

def binaryLevels (operand : Parser Expr) : Parser Expr :=
  binary logicalOp? (binary comparisonOp? (binary additiveOp? (binary multiplicativeOp? operand)))

def unaryOver (nested operand : Parser Expr) : Parser Expr := do
  match unaryOp? (← peek).kind with
  | none => operand
  | some op =>
    let token ← consume
    let inner ← nested
    return .unary (fresh token.start inner.span.stop) ⟨token.span, op⟩ inner

def conversionsAt : Nat → Expr → Parser Expr
  | 0, e => return e
  | n + 1, e => do
    if ← nextIsMark .arrow then
      let _ ← consume
      let target ← type
      conversionsAt n (.conversion (fresh e.span.start target.span.stop) e target)
    else return e

def converted (leaf : Parser Expr) : Parser Expr := do
  let e ← leaf
  bounded fun n => conversionsAt n e

/-- Accessors, as long as there are any. -/
def accessorsAt (expr : Parser Expr) : Nat → Parser (List Accessor)
  | 0 => return []
  | n + 1 => do
    match ← ahead? 0 with
    | some (.punctuator .leftParen) =>
      let token ← consume
      let arguments ← items expr .rightParen "argument"
      let one := Accessor.call (fresh token.start (← position)) arguments
      return one :: (← accessorsAt expr n)
    | some (.punctuator .leftBracket) =>
      let token ← consume
      let index ← expr
      expectMark .rightBracket "index"
      let one := Accessor.index (fresh token.start (← position)) index
      return one :: (← accessorsAt expr n)
    | some (.punctuator .period) =>
      let token ← consume
      let name ← expectName "period"
      let one := Accessor.member (fresh token.start (← position)) name
      return one :: (← accessorsAt expr n)
    | some (.punctuator .atSign) =>
      let token ← consume
      let one := Accessor.dereference (fresh token.start (← position))
      return one :: (← accessorsAt expr n)
    | _ => return []

def place (expr : Parser Expr) : Parser (Located Place) := do
  let name ← expectName "variable reference"
  let accessors ← bounded (accessorsAt expr)
  return ⟨⟨name.span.start, ← position⟩, ⟨⟨name, none, none⟩, accessors⟩⟩

/-- A member's value, after its name and `=` if these are given. -/
def argument (expr : Parser Expr) : Parser Argument := do
  let token ← peek
  match token.kind with
  | .identifier name =>
    if (← ahead? 1) = some (.punctuator .assignment) then
      let _ ← consume
      let _ ← consume
      return .mk (some ⟨token.span, name⟩) (← expr)
    else return .mk none (← expr)
  | _ => return .mk none (← expr)

def constructAfter (start : Location) (expr : Parser Expr) : Parser Expr := do
  let record ← expectName "constructor"
  expectMark .exclamation "constructor type"
  expectMark .leftBrace "constructor type"
  let arguments ← trailingItems (argument expr) .rightBrace "constructor argument"
  return .construct (fresh start (← position)) record arguments

/-- A leaf, given the parsers for the expressions and for the leaf inside it. -/
def leafOver (expr leaf : Parser Expr) : Parser Expr := do
  let token ← peek
  let start := token.start
  match token.kind with
  | .integer literal =>
    let _ ← consume
    return .integer (fresh start (← position)) literal
  | .float bits =>
    let _ ← consume
    return .float (fresh start (← position)) bits
  | .string value =>
    let _ ← consume
    return .string (fresh start (← position)) value
  | .keyword .true_ =>
    let _ ← consume
    return .boolean (fresh start (← position)) true
  | .keyword .false_ =>
    let _ ← consume
    return .boolean (fresh start (← position)) false
  | .keyword .null_ =>
    let _ ← consume
    return .null (fresh start (← position))
  | .identifier _ =>
    if (← ahead? 1) = some (.punctuator .exclamation)
        ∧ (← ahead? 2) = some (.punctuator .leftBrace) then
      constructAfter start expr
    else
      let p ← place expr
      return .variable (fresh start (← position)) p.value.head p.value.accessors
  | .punctuator .leftParen =>
    let _ ← consume
    let inner ← expr
    expectMark .rightParen "parenthesized expression"
    return .parenthesized (fresh start (← position)) inner
  | .punctuator .leftBracket =>
    let _ ← consume
    let elements ← items expr .rightBracket "array element"
    return .array (fresh start (← position)) elements
  | .punctuator .asterisk =>
    let _ ← consume
    let size ← leaf
    return .allocation (fresh start (← position)) size
  | .punctuator .atSign =>
    let _ ← consume
    let target ← place expr
    return .addressOf (fresh start (← position)) target.span target.value.head
      target.value.accessors
  | .keyword _ | .punctuator _ | .illegal _ =>
    let token ← consume
    fail (.unknownExpression token)

mutual
def expressionAt : Nat → Parser Expr
  | 0 => throw .endOfFile
  | n + 1 =>
    binaryLevels (unaryOver (unaryAt n) (converted (leafOver (expressionAt n) (leafAt n))))

def unaryAt : Nat → Parser Expr
  | 0 => throw .endOfFile
  | n + 1 => unaryOver (unaryAt n) (converted (leafOver (expressionAt n) (leafAt n)))

def leafAt : Nat → Parser Expr
  | 0 => throw .endOfFile
  | n + 1 => leafOver (expressionAt n) (leafAt n)
end

def expression : Parser Expr :=
  bounded expressionAt

def canStartExpression : Token.Kind → Bool
  | .integer _ | .float _ | .string _ | .identifier _ => true
  | .keyword .true_ | .keyword .false_ | .keyword .null_ | .keyword .not_ => true
  | .punctuator .leftParen | .punctuator .leftBracket | .punctuator .asterisk
  | .punctuator .atSign | .punctuator .exclamation | .punctuator .minus
  | .punctuator .ampersand => true
  | .keyword _ | .punctuator _ | .illegal _ => false

end RegionCompiler.Parse
