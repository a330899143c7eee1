import RegionCompiler.Layout
import RegionCompiler.Machine.Register
import RegionCompiler.Machine.Instr
import RegionCompiler.Platform

/-! Where the arguments and the result of a C function travel. -/
namespace RegionCompiler

open Machine

/-- The precision of a floating-point type. -/
def Ty.precision? (t : Ty) : Option Precision :=
  if t.isPlain "double" then some .double
  else if t.isPlain "float" then some .single
  else none

namespace Convention

/-- What decides where a value travels. -/
structure Shape where
  size : Nat
  classes : List EightbyteClass
  /-- Given for numbers that are floating-point as a whole. -/
  precision : Option Precision
deriving DecidableEq

namespace Shape

def of (t : Ty) (layout : Layout) : Shape := ⟨layout.size, layout.classes, t.precision?⟩

def double : Shape := ⟨8, [.sse], some .double⟩

/-- Whether a value never travels in registers. -/
def isMemory (s : Shape) : Bool :=
  16 < s.size || s.classes.head? == some .memory

end Shape

structure ForeignArgument where
  shape : Shape
  /-- Given behind the parameters that are declared. -/
  variadic : Bool

inductive Slot
  | general (r : Register)
  | vector (x : Xmm)
deriving DecidableEq

inductive Pointer
  | register (r : Register)
  | stack (offset : Nat)
deriving DecidableEq

inductive Placement
  /-- A register for each eight bytes. -/
  | registers (slots : List Slot)
  /-- The same number in a register of either kind. -/
  | both (vector : Xmm) (general : Register)
  | stack (offset : Nat)
  /-- A copy at an offset of the copies, and a pointer to it. -/
  | reference (copy : Nat) (pointer : Pointer)
deriving DecidableEq

inductive ResultPlacement
  | nothing
  | registers (slots : List Slot)
  /-- At an address that is passed in a register. -/
  | hidden (r : Register)
deriving DecidableEq

structure Plan where
  result : ResultPlacement
  arguments : List Placement
  /-- Bytes that the stack pointer is lowered by for arguments, with the shadow space. -/
  stack : Nat
  /-- Bytes above them for copies. -/
  copies : Nat
  /-- How many vector registers hold arguments. -/
  vectors : Nat

namespace Plan

def area (p : Plan) : Nat := p.stack + p.copies

def fits (p : Plan) : Bool := p.stack < wordLimit && p.copies < wordLimit

end Plan

inductive PlanError
  /-- A result with more parts than there are registers for it. -/
  | resultTooLong
  /-- More bytes than a word can count. -/
  | overflow

/-- Both areas only grow from one argument to the next, so they tell in the end whether a sum on the
way was not a word. -/
def Plan.checked (p : Plan) : Except PlanError Plan :=
  if p.fits then .ok p else .error .overflow

def isRegisterSize (n : Nat) : Bool := n == 1 || n == 2 || n == 4 || n == 8

namespace Microsoft

def argumentRegisters : List Register := [.rcx, .rdx, .r8, .r9]

/-- Bytes that every callee may use. -/
def shadowSpace : Nat := 32

/-- The stack word of a position behind the registers. -/
def stackWord (position : Nat) : Nat := shadowSpace + 8 * (position - 4)

def placeResult : Option Shape → ResultPlacement
  | none => .nothing
  | some s =>
    if s.size = 0 then .nothing
    else if !isRegisterSize s.size then .hidden .rcx
    else if s.precision.isSome then .registers [.vector ⟨0⟩]
    else .registers [.general .rax]

/-- Places the argument at a position; `copies` bytes of copies are in use. -/
def placeArgument (position copies : Nat) (a : ForeignArgument) : Placement :=
  match argumentRegisters[position]? with
  | some r =>
    if !isRegisterSize a.shape.size then .reference copies (.register r)
    else match a.shape.precision, a.variadic with
      | some _, true => .both ⟨position⟩ r
      | some _, false => .registers [.vector ⟨position⟩]
      | none, _ => .registers [.general r]
  | none =>
    if !isRegisterSize a.shape.size then .reference copies (.stack (stackWord position))
    else .stack (stackWord position)

def copySize (a : ForeignArgument) : Nat :=
  if isRegisterSize a.shape.size then 0 else alignUp a.shape.size 16

def copiesSize : List ForeignArgument → Nat
  | [] => 0
  | a :: rest => copySize a + copiesSize rest

def placeArguments (position copies : Nat) : List ForeignArgument → List Placement
  | [] => []
  | a :: rest =>
    placeArgument position copies a :: placeArguments (position + 1) (copies + copySize a) rest

/-- Every argument takes one position, whatever its kind; a hidden result takes the first. -/
def plan (arguments : List ForeignArgument) (result : Option Shape) : Plan :=
  let placed := placeResult result
  let first := match placed with
    | .hidden _ => 1
    | _ => 0
  { result := placed
    arguments := placeArguments first 0 arguments
    stack := alignUp (stackWord (first + arguments.length)) 16
    copies := copiesSize arguments
    vectors := 0 }

def plan? (arguments : List ForeignArgument) (result : Option Shape) : Except PlanError Plan :=
  (plan arguments result).checked

end Microsoft

namespace SystemV

def argumentRegisters : List Register := [.rdi, .rsi, .rdx, .rcx, .r8, .r9]

def vectorCount : Nat := 8

/-- Gives each eight bytes the next register of its kind; `none` when there is none left. -/
def assign (generals : List Register) (vectors : List Xmm) :
    List EightbyteClass → Option (List Slot)
  | [] => some []
  | .sse :: rest =>
    match vectors with
    | [] => none
    | x :: vectors => (assign generals vectors rest).map (.vector x :: ·)
  | _ :: rest =>
    match generals with
    | [] => none
    | r :: generals => (assign generals vectors rest).map (.general r :: ·)

/-- Fails for a result with more parts than there are registers for it. -/
def placeResult? : Option Shape → Option ResultPlacement
  | none => some .nothing
  | some s =>
    if s.size = 0 then some .nothing
    else if s.isMemory then some (.hidden .rdi)
    else (assign [.rax, .rdx] [⟨0⟩, ⟨1⟩] s.classes).map .registers

/-- The arguments placed so far, as the registers in use and the stack bytes. -/
structure Used where
  general : Nat
  vector : Nat
  stack : Nat

def freeGenerals (u : Used) : List Register := argumentRegisters.drop u.general

def freeVectors (u : Used) : List Xmm := ((List.range vectorCount).drop u.vector).map Xmm.mk

/-- An argument travels in registers only if they suffice for all of it. -/
def placeArgument (u : Used) (a : ForeignArgument) : Placement × Used :=
  let onStack := (Placement.stack u.stack, { u with stack := u.stack + alignUp a.shape.size 8 })
  if a.shape.isMemory then onStack
  else match assign (freeGenerals u) (freeVectors u) a.shape.classes with
    | none => onStack
    | some slots =>
      (.registers slots,
        { u with
          general := u.general + a.shape.classes.countP (· != .sse)
          vector := u.vector + a.shape.classes.count .sse })

def placeArguments (u : Used) : List ForeignArgument → List Placement × Used
  | [] => ([], u)
  | a :: rest =>
    let (here, u) := placeArgument u a
    let (others, u) := placeArguments u rest
    (here :: others, u)

def plan (arguments : List ForeignArgument) (placed : ResultPlacement) : Plan :=
  let first := match placed with
    | .hidden _ => 1
    | _ => 0
  let (placements, used) := placeArguments ⟨first, 0, 0⟩ arguments
  { result := placed
    arguments := placements
    stack := alignUp used.stack 16
    copies := 0
    vectors := used.vector }

def plan? (arguments : List ForeignArgument) (result : Option Shape) : Except PlanError Plan :=
  match placeResult? result with
  | none => .error .resultTooLong
  | some placed => (plan arguments placed).checked

end SystemV

def argumentRegisters : Convention → List Register
  | .systemV => SystemV.argumentRegisters
  | .microsoft => Microsoft.argumentRegisters

def plan? (c : Convention) (arguments : List ForeignArgument) (result : Option Shape) :
    Except PlanError Plan :=
  match c with
  | .systemV => SystemV.plan? arguments result
  | .microsoft => Microsoft.plan? arguments result

end Convention

end RegionCompiler
