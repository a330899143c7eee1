import RegionCompiler.Codegen.Move
import RegionCompiler.Convention

/-! Calls of C functions. The arguments are evaluated onto the stack and then moved from their
slots to where the convention wants them. -/
namespace RegionCompiler.Codegen

open Machine Machine.Instr Convention

/-- An argument and the size of the slot that it was evaluated into. -/
structure Passed where
  argument : ForeignArgument
  slot : Nat

/-- Variadic arguments of type `float` travel as doubles. -/
def promote : Code :=
  [.loadFloat .single ⟨0⟩ top, .convertFloat .single ⟨0⟩ ⟨0⟩, .storeFloat .double top ⟨0⟩]

/-- A number that has a register of its own is extended; parts of a record are not. -/
def fillSlot (shape : Shape) (single : Bool) (source : Address) : Slot → Instr
  | .general r =>
    if single then loadSized r source shape.size (shape.size == 4 && shape.precision.isNone)
    else mov r source
  | .vector x =>
    .loadFloat (if single then shape.precision.getD .double else .double) x source

def fillSlots (shape : Shape) (single : Bool) (source : Address) : List Slot → Code
  | [] => []
  | s :: rest => fillSlot shape single source s :: fillSlots shape single (source.offset 8) rest

/-- Moves an argument from its slot to its place; `copies` is where the copies start. -/
def placeArgument (copies : Nat) (shape : Shape) (source : Address) : Placement → Code
  | .registers slots => fillSlots shape (slots.length == 1) source slots
  | .both vector general => [.loadFloat .double vector source, mov general source]
  | .stack offset => copy (Address.stack offset) source (alignUp shape.size 8)
  | .reference offset pointer =>
    let there := Address.stack (copies + offset)
    copy there source shape.size ++
      match pointer with
      | .register r => [.lea r there]
      | .stack word => [.lea .rax there, mov (Address.stack word) Register.rax]

def slotsSize : List Passed → Nat
  | [] => 0
  | a :: rest => a.slot + slotsSize rest

/-- The slot of the last argument lies right above the area of the call, that of the first one
highest. -/
def placeArguments (copies area : Nat) : List Placement → List Passed → Code
  | p :: placements, a :: rest =>
    placeArgument copies a.argument.shape (Address.stack (area + slotsSize rest)) p
      ++ placeArguments copies area placements rest
  | _, _ => []

/-- Stores the parts of a result that came in registers. -/
def storeSlots (precision : Precision) (dst : Address) : List Slot → Code
  | [] => []
  | .general r :: rest => mov dst r :: storeSlots precision (dst.offset 8) rest
  | .vector x :: rest => .storeFloat precision dst x :: storeSlots precision (dst.offset 8) rest

/-- The call, from the evaluated arguments to the result in the slot above them. -/
def callForeign (convention : Convention) (plan : Plan) (passed : List Passed) (symbol : String)
    (result : Option Shape) : Code :=
  let above := plan.area + slotsSize passed
  let hidden : Code := match plan.result with
    | .hidden r => [.lea r (Address.stack above)]
    | _ => []
  let count : Code := match convention with
    | .systemV => [movImm (.register .rax .dword) plan.vectors]
    | .microsoft => []
  let store : Code := match plan.result with
    | .registers slots =>
      storeSlots ((result.bind Shape.precision).getD .double) (Address.stack above) slots
    | _ => []
  lower plan.area ++ placeArguments plan.stack plan.area plan.arguments passed ++ hidden ++ count
    ++ [.call symbol] ++ store ++ raise above

end RegionCompiler.Codegen
