import RegionCompiler.Token
import RegionCompiler.Ty

/-! Expressions. A node keeps the text it was read from and, once it is checked, its type. -/
namespace RegionCompiler

/-- What a name can stand for. -/
inductive SymbolKind
  | function
  | foreignFunction
  | parameter
  | local_
  | iterator
  | embed
deriving DecidableEq

/-- Whether a symbol lives in the frame of its function. -/
def SymbolKind.isStack : SymbolKind → Bool
  | .parameter | .local_ | .iterator => true
  | _ => false

/-- The declaration to which a name was resolved. -/
structure Binding where
  mangled : String
  kind : SymbolKind
deriving DecidableEq

inductive UnaryOp
  | not_
  | negate
  | release
deriving DecidableEq

def UnaryOp.text : UnaryOp → String
  | .not_ => "not"
  | .negate => "-"
  | .release => "&"

inductive BinaryOp
  | add
  | subtract
  | multiply
  | divide
  | modulo
  | flooredModulo
  | equal
  | notEqual
  | less
  | lessOrEqual
  | greater
  | greaterOrEqual
  | and_
  | or_
  | xor_
deriving DecidableEq

namespace BinaryOp

def text : BinaryOp → String
  | .add => "+"
  | .subtract => "-"
  | .multiply => "*"
  | .divide => "/"
  | .modulo => "%"
  | .flooredModulo => "%%"
  | .equal => "=="
  | .notEqual => "!="
  | .less => "<"
  | .lessOrEqual => "<="
  | .greater => ">"
  | .greaterOrEqual => ">="
  | .and_ => "and"
  | .or_ => "or"
  | .xor_ => "xor"

def isComparison : BinaryOp → Bool
  | .equal | .notEqual | .less | .lessOrEqual | .greater | .greaterOrEqual => true
  | _ => false

def isLogical : BinaryOp → Bool
  | .and_ | .or_ | .xor_ => true
  | _ => false

def isFloatingArithmetic : BinaryOp → Bool
  | .add | .subtract | .multiply | .divide => true
  | _ => false

def isIntegerArithmetic : BinaryOp → Bool
  | .add | .subtract | .multiply | .divide | .modulo | .flooredModulo => true
  | _ => false

end BinaryOp

/-- Where a node stands and the type found for it. -/
structure Node where
  span : Span
  ty : Option Ty

/-- The name that a variable reference starts with. -/
structure Head where
  name : Located String
  ty : Option Ty
  binding : Option Binding

mutual
inductive Expr
  | integer (node : Node) (literal : IntegerLiteral)
  | float (node : Node) (bits : UInt64)
  | boolean (node : Node) (value : Bool)
  | string (node : Node) (value : String)
  | null (node : Node)
  | variable (node : Node) (head : Head) (accessors : List Accessor)
  | parenthesized (node : Node) (inner : Expr)
  | array (node : Node) (elements : List Expr)
  /-- A heap array of the given size. -/
  | allocation (node : Node) (size : Expr)
  | addressOf (node : Node) (target : Span) (head : Head) (accessors : List Accessor)
  | unary (node : Node) (op : Located UnaryOp) (operand : Expr)
  | binary (node : Node) (op : Located BinaryOp) (lhs rhs : Expr)
  | conversion (node : Node) (inner : Expr) (target : Located Ty)
  | construct (node : Node) (record : Located String) (arguments : List Argument)

/-- A step from a value to a part of it, or to what a call of it returns. -/
inductive Accessor
  | call (node : Node) (arguments : List Expr)
  | index (node : Node) (position : Expr)
  | dereference (node : Node)
  | member (node : Node) (name : Located String)

/-- A member's value in a record expression, perhaps with the member's name. -/
inductive Argument
  | mk (name : Option (Located String)) (value : Expr)
end

namespace Expr

def node : Expr → Node
  | .integer n _ | .float n _ | .boolean n _ | .string n _ | .null n | .variable n _ _
  | .parenthesized n _ | .array n _ | .allocation n _ | .addressOf n _ _ _ | .unary n _ _
  | .binary n _ _ _ | .conversion n _ _ | .construct n _ _ => n

def span (e : Expr) : Span := e.node.span

def ty (e : Expr) : Option Ty := e.node.ty

end Expr

namespace Accessor

def node : Accessor → Node
  | .call n _ | .index n _ | .dereference n | .member n _ => n

def span (a : Accessor) : Span := a.node.span

def ty (a : Accessor) : Option Ty := a.node.ty

def isCall : Accessor → Bool
  | .call _ _ => true
  | _ => false

end Accessor

namespace Argument

def name : Argument → Option (Located String)
  | .mk name _ => name

def value : Argument → Expr
  | .mk _ value => value

end Argument

/-- A name followed by accessors, such as `list[i].next@.value`. -/
structure Place where
  head : Head
  accessors : List Accessor

namespace Place

def endsInCall (accessors : List Accessor) : Bool :=
  (accessors.getLast?.map Accessor.isCall).getD false

def containsCall (accessors : List Accessor) : Bool :=
  accessors.any Accessor.isCall

end Place

/-- Whether an expression is a call, perhaps in parentheses. -/
def Expr.isCall : Expr → Bool
  | .variable _ _ accessors => Place.endsInCall accessors
  | .parenthesized _ inner => inner.isCall
  | _ => false

end RegionCompiler
