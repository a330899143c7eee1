import RegionCompiler.Program.Expr

/-! Names and scopes. A symbol is stored under its name behind those of the scopes around it,
so that a lookup tries the same name in wider and wider scopes. -/
namespace RegionCompiler

structure Symbol where
  name : String
  mangled : String
  ty : Ty
  span : Span
  kind : SymbolKind

/-- The blocks that open a scope. -/
inductive SegmentKind
  | if_
  | else_
  | while_
  | do_
  | for_
  | block
deriving DecidableEq

def SegmentKind.name : SegmentKind → String
  | .if_ => "if"
  | .else_ => "else"
  | .while_ => "while"
  | .do_ => "do"
  | .for_ => "for"
  | .block => "block"

/-- A function and the blocks within it, from the outside in. -/
structure ScopePath where
  function : String
  blocks : List String
deriving DecidableEq

namespace ScopePath

def ofFunction (name : String) : ScopePath := ⟨name, []⟩

def child (s : ScopePath) (kind : SegmentKind) (index : Nat) : ScopePath :=
  { s with blocks := s.blocks ++ [kind.name ++ toString index] }

def segments (s : ScopePath) : List String :=
  s.function :: s.blocks

def display (s : ScopePath) : String :=
  "$".intercalate s.segments

def mangleIn (segments : List String) (name : String) : String :=
  String.join (segments.map (· ++ "$")) ++ name

def mangle (s : ScopePath) (name : String) : String :=
  mangleIn s.segments name

/-- The mangled forms of a name, from the innermost scope out. -/
def candidates (s : ScopePath) (name : String) : List String :=
  (List.range s.segments.length).reverse.map fun n => mangleIn (s.segments.take (n + 1)) name

end ScopePath

/-- How many blocks of each kind a block has so far. -/
structure SegmentCounters where
  count : SegmentKind → Nat

namespace SegmentCounters

def zero : SegmentCounters := ⟨fun _ => 0⟩

def next (c : SegmentCounters) (kind : SegmentKind) : Nat × SegmentCounters :=
  (c.count kind, ⟨fun k => if k = kind then c.count k + 1 else c.count k⟩)

end SegmentCounters

/-- Symbols with different mangled names. -/
structure SymbolTable where
  symbols : List Symbol

namespace SymbolTable

def empty : SymbolTable := ⟨[]⟩

def get? (t : SymbolTable) (mangled : String) : Option Symbol :=
  t.symbols.find? (·.mangled == mangled)

/-- Adds a symbol, unless another one has its mangled name. -/
def declare (t : SymbolTable) (s : Symbol) : Except Symbol SymbolTable :=
  match t.get? s.mangled with
  | some existing => .error existing
  | none => .ok ⟨t.symbols ++ [s]⟩

/-- The symbol that a name means in a scope: that of the innermost block, or else a global. -/
def resolve (t : SymbolTable) (scope : ScopePath) (name : String) : Option Symbol :=
  (scope.candidates name ++ [name]).findSome? t.get?

def size (t : SymbolTable) : Nat := t.symbols.length

def isEmpty (t : SymbolTable) : Bool := t.symbols.isEmpty

end SymbolTable

end RegionCompiler
