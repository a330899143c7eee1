import RegionCompiler.Program.Stmt

/-! The declarations of one source text. -/
namespace RegionCompiler

structure Parameter where
  ty : Located Ty
  name : Located String

/-- A value in the frame of a function. Its offset is known once the frame is laid out. -/
structure StackVariable where
  ty : Ty
  mangled : String
  offset : Option Nat

/-- Locals of nested blocks are listed with those of the body. -/
structure StackVariables where
  parameters : List StackVariable
  locals : List StackVariable

def StackVariables.empty : StackVariables := ⟨[], []⟩

structure Function where
  span : Span
  name : Located String
  parameters : List Parameter
  result : Located Ty
  body : Block
  stack : StackVariables

def Function.signature (f : Function) : Ty :=
  f.result.value.withModifier (.function (f.parameters.map (·.ty.value)) false false)

inductive ForeignParameter
  | typed (ty : Located Ty) (name : Option (Located String))
  /-- Any number of further arguments. -/
  | variadic (span : Span)

namespace ForeignParameter

def span : ForeignParameter → Span
  | .typed ty (some name) => ty.span.through name.span
  | .typed ty none => ty.span
  | .variadic span => span

def ty? : ForeignParameter → Option Ty
  | .typed ty _ => some ty.value
  | .variadic _ => none

end ForeignParameter

structure ForeignFunction where
  span : Span
  name : Located String
  link : Option (Located String)
  parameters : List ForeignParameter
  result : Located Ty

namespace ForeignFunction

/-- The name under which the linker finds the function. -/
def linkName (f : ForeignFunction) : String :=
  (f.link.getD f.name).value

def isVariadic (f : ForeignFunction) : Bool :=
  f.parameters.any (·.ty?.isNone)

def signature (f : ForeignFunction) : Ty :=
  f.result.value.withModifier (.function (f.parameters.filterMap (·.ty?)) f.isVariadic true)

end ForeignFunction

structure RecordMember where
  ty : Located Ty
  name : Located String

structure Record where
  span : Span
  name : Located String
  members : List RecordMember

/-- A file whose bytes become a constant. -/
structure Embed where
  span : Span
  path : Located String
  name : Located String
  resolved : Option String

inductive Declaration
  | function (f : Function)
  | foreign (f : ForeignFunction)
  | record (r : Record)
  | link (library : Located String)
  | embed (e : Embed)

structure Program where
  path : String
  functions : List Function
  foreign : List ForeignFunction
  records : List Record
  links : List (Located String)
  embeds : List Embed

namespace Program

def ofDeclarations (path : String) (declarations : List Declaration) : Program where
  path := path
  functions := declarations.filterMap fun | .function f => some f | _ => none
  foreign := declarations.filterMap fun | .foreign f => some f | _ => none
  records := declarations.filterMap fun | .record r => some r | _ => none
  links := declarations.filterMap fun | .link l => some l | _ => none
  embeds := declarations.filterMap fun | .embed e => some e | _ => none

def declarationCount (p : Program) : Nat :=
  p.functions.length + p.foreign.length + p.records.length + p.links.length + p.embeds.length

end Program

end RegionCompiler
