import RegionCompiler.Collector
import RegionCompiler.Frame
import RegionCompiler.Number.Binary

/-! What code generation hands out and what it looks up. It runs on checked programs only; a
`Fault` says that one was not checked after all. -/
namespace RegionCompiler.Codegen

open Machine

inductive Fault
  | untyped
  | unresolved (name : String)
  | undeclared (name : String)
  | undeclaredIterator (name : String)
  | unresolvedEmbed (name : String)
  | noLayout (ty : Ty) (cause : LayoutError)
  | frame (cause : FrameError)
  | notOnStack (mangled function : String)
  | noOffset (mangled : String)
  | noMember (ty : Ty) (member : String)
  | notCalled (function : String)
  | callInChain (name : String)
  | callOfValue (mangled : String)
  | unknownFunction (name : String)
  | unknownForeign (name : String)
  | undefinedOnFloats (op : BinaryOp)
  | resultTooLong
  /-- The address of a value that is about to be dropped. -/
  | addressOfResult
  | outsideLoop
  /-- A jump to where more frames of the collector are open. -/
  | intoFrame
  /-- A sum of sizes that is not a word. -/
  | overflow

namespace Fault

def message : Fault → String
  | .untyped => "ICE: expression reached code generation without a type"
  | .unresolved name => "ICE: variable `" ++ name ++ "` was never resolved"
  | .undeclared name => "ICE: variable `" ++ name ++ "` was never declared"
  | .undeclaredIterator name => "ICE: iterator `" ++ name ++ "` was never declared"
  | .unresolvedEmbed name => "ICE: embed `" ++ name ++ "` was never resolved"
  | .noLayout ty cause => "ICE: no layout for `" ++ ty.display ++ "`: " ++ cause.message
  | .frame (.variable mangled cause) =>
    "ICE: stack variable `" ++ mangled ++ "` has no layout: " ++ cause.message
  | .frame (.result ty) => "ICE: type `" ++ ty.display ++ "` has no layout"
  | .frame .overflow | .overflow => LayoutError.overflow.message
  | .notOnStack mangled function =>
    "ICE: `" ++ mangled ++ "` is not a stack variable of `" ++ function ++ "`"
  | .noOffset mangled => "ICE: stack variable `" ++ mangled ++ "` has no frame offset"
  | .noMember ty member => "ICE: `" ++ ty.display ++ "` has no member `" ++ member ++ "`"
  | .notCalled function => "ICE: function `" ++ function ++ "` referenced without a call"
  | .callInChain name => "ICE: call in the middle of an accessor chain of `" ++ name ++ "`"
  | .callOfValue mangled => "ICE: call of non-function `" ++ mangled ++ "`"
  | .unknownFunction name => "ICE: function `" ++ name ++ "` is not declared"
  | .unknownForeign name => "ICE: foreign function `" ++ name ++ "` is not declared"
  | .undefinedOnFloats op => "ICE: `" ++ op.text ++ "` on floating-point operands"
  | .resultTooLong => "ICE: return value has more than two eightbytes"
  | .addressOfResult => "address taken of a call result"
  | .outsideLoop => "ICE: loop control outside of a loop"
  | .intoFrame => "attempt to subtract with overflow"

/-- Whether a sum of sizes was not a word. Every other fault is one of the compiler. -/
def isOverflow : Fault → Bool
  | .frame .overflow | .overflow => true
  | _ => false

end Fault

/-- Labels in use and the string literals met so far. -/
structure Supply where
  labels : Nat
  strings : List String

abbrev Gen := StateT Supply (Except Fault)

/-- A label that was not used before. -/
def freshLabel : Gen Label := do
  let s ← get
  set { s with labels := s.labels + 1 }
  return ⟨s.labels + 1⟩

def stringSymbol (index : Nat) : String := "str$" ++ toString index

/-- Keeps a string literal and gives its symbol. -/
def keepString (value : String) : Gen String := do
  let s ← get
  set { s with strings := s.strings ++ [value] }
  return stringSymbol s.strings.length

def functionSymbol (name : String) : String := "fn_" ++ name

def embedSymbol (name : String) : String := "emb$" ++ name

/-- What the code of a function can refer to. -/
structure Env where
  platform : Platform
  layouts : Registry
  routines : List Routine
  foreign : List ForeignFunction
  /-- The function that the code belongs to. -/
  current : Routine

def resolved : Option Ty → Except Fault Ty
  | some ty => .ok ty
  | none => .error .untyped

def bound (head : Head) : Except Fault Binding :=
  match head.binding with
  | some binding => .ok binding
  | none => .error (.unresolved head.name.value)

/-- The type of the value that a reference leads to. -/
def placeTy (head : Head) (accessors : List Accessor) : Except Fault Ty :=
  match accessors.getLast? with
  | some a => resolved a.ty
  | none => resolved head.ty

def placedAt (v : StackVariable) : Except Fault Nat :=
  match v.offset with
  | some offset => .ok offset
  | none => .error (.noOffset v.mangled)

namespace Env

def layoutOf (env : Env) (ty : Ty) : Except Fault Layout :=
  match env.layouts.layoutOf ty with
  | .ok layout => .ok layout
  | .error e => .error (.noLayout ty e)

def sizeOf (env : Env) (ty : Ty) : Except Fault Nat := do
  return (← env.layoutOf ty).size

def routine (env : Env) (name : String) : Except Fault Routine :=
  match env.routines.find? (·.name == name) with
  | some r => .ok r
  | none => .error (.unknownFunction name)

def foreignFunction (env : Env) (name : String) : Except Fault ForeignFunction :=
  match env.foreign.find? (·.name.value == name) with
  | some f => .ok f
  | none => .error (.unknownForeign name)

/-- Where a variable lies in the frame of the current function. -/
def variableAddress (env : Env) (mangled : String) : Except Fault Address :=
  let stack := env.current.function.stack
  match stack.parameters.find? (·.mangled == mangled) with
  | some v => return Address.frame (env.current.frame.argumentAt (← placedAt v))
  | none =>
    match stack.locals.find? (·.mangled == mangled) with
    | some v => return Address.frame (env.current.frame.localAt (← placedAt v))
    | none => .error (.notOnStack mangled env.current.name)

end Env

end RegionCompiler.Codegen
