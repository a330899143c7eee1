import RegionCompiler.Program.Expr

/-! Statements and blocks. -/
namespace RegionCompiler

mutual
inductive Stmt
  /-- With `allocate` the value lives on the heap and the variable points to it. -/
  | let_ (span : Span) (allocate : Bool) (ty : Located Ty) (name : Located String) (value : Expr)
      (mangled : Option String)
  | mut_ (span : Span) (target : Located Place) (value : Expr)
  | call (span : Span) (value : Expr)
  | collect (span : Span) (value : Expr)
  | return_ (span : Span) (value : Option Expr)
  | break_ (span : Span)
  | continue_ (span : Span)
  | if_ (span : Span) (condition : Expr) (yes : Block)
  | ifElse (span : Span) (condition : Expr) (yes no : Block)
  | while_ (span : Span) (condition : Expr) (body : Block)
  | doWhile (span : Span) (body : Block) (condition : Expr)
  /-- The iterator counts up from the first bound and stays below the second. -/
  | for_ (span : Span) (iterator : Located String) (start stop : Expr) (body : Block)
      (mangled : Option String)
  | block (span : Span) (body : Block)

/-- A manual block opens no frame of the collector. -/
inductive Block
  | mk (span : Span) (manual : Bool) (statements : List Stmt)
end

def Stmt.span : Stmt → Span
  | .let_ s _ _ _ _ _ | .mut_ s _ _ | .call s _ | .collect s _ | .return_ s _ | .break_ s
  | .continue_ s | .if_ s _ _ | .ifElse s _ _ _ | .while_ s _ _ | .doWhile s _ _
  | .for_ s _ _ _ _ _ | .block s _ => s

def Stmt.isReturn : Stmt → Bool
  | .return_ _ _ => true
  | _ => false

namespace Block

def span : Block → Span
  | .mk span _ _ => span

def manual : Block → Bool
  | .mk _ manual _ => manual

def statements : Block → List Stmt
  | .mk _ _ statements => statements

def endsInReturn (b : Block) : Bool :=
  (b.statements.getLast?.map Stmt.isReturn).getD false

end Block

end RegionCompiler
