import RegionCompiler.Layout
import RegionCompiler.Program

/-! Frames of functions. Above the saved base pointer and the return address lie the arguments
and then the result, both reserved by the caller; the locals lie below. -/
namespace RegionCompiler

/-- The parts of a frame in bytes. -/
structure Frame where
  locals : Nat
  arguments : Nat
  result : Nat
deriving DecidableEq

namespace Frame

/-- What a caller reserves for the result. -/
def resultSlot (f : Frame) : Nat := alignUp f.result 16

/-- The distance of an argument from the base pointer. -/
def argumentAt (_ : Frame) (offset : Nat) : Int := 16 + offset

def localAt (f : Frame) (offset : Nat) : Int := (offset : Int) - f.locals

def resultAt (f : Frame) : Int := 16 + f.arguments

end Frame

inductive FrameError
  | variable (mangled : String) (cause : LayoutError)
  | result (ty : Ty)
  /-- A sum of sizes that is not a word. -/
  | overflow

/-- Places variables one after the other from `offset` on and gives the end of the last one. -/
def placeVariables (layouts : Registry) (offset : Nat) :
    List StackVariable → Except FrameError (List StackVariable × Nat)
  | [] => .ok ([], offset)
  | v :: rest =>
    match layouts.layoutOf v.ty with
    | .error e => .error (.variable v.mangled e)
    | .ok layout => do
      let here := alignUp offset layout.alignment
      if wordLimit ≤ here + layout.size then throw .overflow
      let (others, stop) ← placeVariables layouts (here + layout.size) rest
      return ({ v with offset := some here } :: others, stop)

/-- Places the variables of one area and gives its size. -/
def layOut (layouts : Registry) (vs : List StackVariable) :
    Except FrameError (List StackVariable × Nat) := do
  let (placed, stop) ← placeVariables layouts 0 vs
  if wordLimit ≤ alignUp stop 16 then throw .overflow
  return (placed, alignUp stop 16)

/-- A function whose variables have places in its frame. -/
structure Routine where
  function : Function
  frame : Frame

namespace Routine

def name (r : Routine) : String := r.function.name.value

def ofFunction (layouts : Registry) (f : Function) : Except FrameError Routine := do
  let (parameters, arguments) ← layOut layouts f.stack.parameters
  let (placed, locals) ← layOut layouts f.stack.locals
  match layouts.sizeOf? f.result.value with
  | none => throw (.result f.result.value)
  | some result =>
    return {
      function := { f with stack := ⟨parameters, placed⟩ }
      frame := ⟨locals, arguments, result⟩ }

end Routine

end RegionCompiler
