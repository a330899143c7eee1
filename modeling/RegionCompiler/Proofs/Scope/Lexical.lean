import RegionCompiler.Proofs.Typing.Analysis

/-! Lexical scoping, said with a stack of frames. Every block has a frame with what it has declared
so far; a name means its declaration in the innermost frame that has one, and the frame around all
functions holds the functions, the foreign functions and the embedded files. -/
namespace RegionCompiler

mutual
/-- The names that the references of an expression start with, in the order of evaluation. -/
def Expr.heads : Expr → List Head
  | .integer _ _ | .float _ _ | .boolean _ _ | .string _ _ | .null _ => []
  | .variable _ head accessors | .addressOf _ _ head accessors =>
    head :: Accessor.allHeads accessors
  | .parenthesized _ inner | .allocation _ inner | .unary _ _ inner | .conversion _ inner _ =>
    inner.heads
  | .array _ elements => Expr.allHeads elements
  | .binary _ _ lhs rhs => lhs.heads ++ rhs.heads
  | .construct _ _ arguments => Argument.allHeads arguments

def Expr.allHeads : List Expr → List Head
  | [] => []
  | e :: rest => e.heads ++ Expr.allHeads rest

def Accessor.heads : Accessor → List Head
  | .call _ arguments => Expr.allHeads arguments
  | .index _ position => position.heads
  | .dereference _ | .member _ _ => []

def Accessor.allHeads : List Accessor → List Head
  | [] => []
  | a :: rest => a.heads ++ Accessor.allHeads rest

def Argument.allHeads : List Argument → List Head
  | [] => []
  | .mk _ value :: rest => value.heads ++ Argument.allHeads rest
end

def Place.heads (p : Place) : List Head :=
  p.head :: Accessor.allHeads p.accessors

namespace Lexical

/-- Adds a declaration to a frame. A second declaration of a name does not count. -/
def addTo (frame : List Symbol) (s : Symbol) : List Symbol :=
  if frame.any (·.name == s.name) then frame else frame ++ [s]

/-- The declarations that are visible at some point, the innermost block first. -/
abbrev Frames := List (List Symbol)

namespace Frames

def lookup (frames : Frames) (name : String) : Option Symbol :=
  frames.findSome? fun frame => frame.find? (·.name == name)

def declare (frames : Frames) (s : Symbol) : Frames :=
  match frames with
  | [] => []
  | frame :: outer => addTo frame s :: outer

end Frames

/-- A reference and what is visible when it is evaluated. -/
structure Reference where
  head : Head
  visible : Frames

def Reference.meaning (r : Reference) : Option Symbol :=
  r.visible.lookup r.head.name.value

def referencesIn (frames : Frames) (heads : List Head) : List Reference :=
  heads.map fun head => ⟨head, frames⟩

/-- Whether the base of a type is among the given names. -/
def typeExists (types : List String) (t : Ty) : Bool :=
  t.name?.any types.contains

/-- The variable that a `let` declares, under its mangled name. -/
def letSymbol (allocate : Bool) (ty : Located Ty) (name : Located String)
    (mangled : Option String) : Symbol where
  name := name.value
  mangled := mangled.getD name.value
  ty := if allocate then ty.value.withModifier .pointer else ty.value
  span := name.span
  kind := .local_

def iteratorSymbol (iterator : Located String) (mangled : Option String) : Symbol where
  name := iterator.value
  mangled := mangled.getD iterator.value
  ty := Ty.int
  span := iterator.span
  kind := .iterator

mutual
/-- The references of a statement in the order of evaluation, and the frames after it. A `let` of a
type that does not exist declares nothing; its own initializer does not see it. The bounds of a
`for` do not see the iterator, which shares a frame with what the body declares. -/
def stmt (types : List String) (frames : Frames) : Stmt → Frames × List Reference
  | .let_ _ allocate ty name value mangled =>
    (if typeExists types ty.value then frames.declare (letSymbol allocate ty name mangled)
      else frames,
     referencesIn frames value.heads)
  | .mut_ _ target value =>
    (frames, referencesIn frames (target.value.heads ++ value.heads))
  | .call _ value | .collect _ value | .return_ _ (some value) =>
    (frames, referencesIn frames value.heads)
  | .return_ _ none | .break_ _ | .continue_ _ => (frames, [])
  | .if_ _ condition yes =>
    (frames, referencesIn frames condition.heads ++ block types ([] :: frames) yes)
  | .ifElse _ condition yes no =>
    (frames, referencesIn frames condition.heads ++ block types ([] :: frames) yes
      ++ block types ([] :: frames) no)
  | .while_ _ condition body =>
    (frames, referencesIn frames condition.heads ++ block types ([] :: frames) body)
  | .doWhile _ body condition =>
    (frames, block types ([] :: frames) body ++ referencesIn frames condition.heads)
  | .for_ _ iterator start stop body mangled =>
    (frames, referencesIn frames (start.heads ++ stop.heads)
      ++ block types ([iteratorSymbol iterator mangled] :: frames) body)
  | .block _ body => (frames, block types ([] :: frames) body)

def stmts (types : List String) (frames : Frames) : List Stmt → List Reference
  | [] => []
  | first :: rest =>
    (stmt types frames first).2 ++ stmts types (stmt types frames first).1 rest

/-- The frame of the block is the innermost of the given ones. -/
def block (types : List String) (frames : Frames) : Block → List Reference
  | .mk _ _ statements => stmts types frames statements
end

/-- The parameters of a function, which share a frame with what its body declares. -/
def parameterSymbols (f : Function) : List Symbol :=
  (f.parameters.zip f.stack.parameters).map fun (p, v) =>
    ⟨p.name.value, v.mangled, p.ty.value, p.name.span, .parameter⟩

def function (types : List String) (globals : List Symbol) (f : Function) : List Reference :=
  block types ((parameterSymbols f).foldl Frames.declare [[], globals]) f.body

def types (p : Program) : List String :=
  Typing.Knowledge.initial.types ++ p.records.map (·.name.value)

/-- What is declared outside of functions. -/
def globals (p : Program) : List Symbol :=
  (Typing.globals p).foldl addTo []

def program (p : Program) : List Reference :=
  p.functions.flatMap (function (types p) (globals p))

end Lexical

end RegionCompiler
