import RegionCompiler.Codegen.Foreign
import RegionCompiler.Codegen.Operator

/-! Code of expressions. The code of an expression pushes a slot that holds its value, and the
code of a reference pushes the address that it leads to. -/
namespace RegionCompiler.Codegen

open Machine Machine.Instr

def pushNull : Code := lower 16 ++ zero top 16

/-- Allocates an array and leaves its address in `rax`. Nothing is allocated as one byte. -/
def allocate (platform : Platform) (count : Operand) (size : Nat) : Code :=
  Collector.callC platform "calloc" [count, .immediate (max size 1 : Nat)]
    ++ Collector.checkAllocation ++ [.call Collector.pushSymbol]

/-- A heap copy of a literal. -/
def stringCode (platform : Platform) (symbol : String) (length : Nat) : Code :=
  allocate platform (.immediate (max length 1 : Nat)) 1 ++ pushRax
    ++ [movImm (Address.stack 8) length]
    ++ (if length = 0 then []
      else [mov Register.rdi Register.rax, .lea .rsi (Address.ofSymbol symbol),
        movImm Register.rcx length, .repMovsb])

/-- Turns a count at the top into an array of that length. -/
def allocationCode (platform : Platform) (size : Nat) : Code :=
  [mov Register.rax top,
    mov (Address.stack 8) Register.rax,
    movImm Register.r10 1,
    .binary .test Register.rax Register.rax,
    .cmov .equal .rax .r10]
    ++ allocate platform Register.rax size ++ [mov top Register.rax]

/-- Replaces the address of an array and the index above it by the address of the element. An
index that is negative is above any length as well. -/
def indexCode (size : Nat) : Code :=
  [mov Register.rcx top] ++ raise 16
    ++ [mov Register.rax top,
      .binary .cmp Register.rcx (Address.at_ .rax 8),
      .jcc .aboveOrEqual (.symbol Collector.boundsTrap),
      mov Register.rax (Address.at_ .rax 0),
      .binary .imul Register.rcx (.immediate size),
      .binary .add Register.rax Register.rcx,
      mov top Register.rax]

def dereferenceCode : Code :=
  [mov Register.rax top, mov Register.rax (Address.at_ .rax 0), mov top Register.rax]

def memberCode (offset : Nat) : Code :=
  if offset = 0 then [] else [.binary .add top (.immediate offset)]

def pushAddress (address : Address) : Code := [.lea .rax address] ++ pushRax

/-- Stores the value at the top at an offset of what lies below it, and drops it. -/
def storeBelow (offset size : Nat) : Code :=
  copy (Address.stack (slot size + offset)) top size ++ raise (slot size)

/-- Code that pushes the value of the given size at the address that a place pushes. -/
def valueAt (size : Nat) (place : Code) (kept : Nat) : Code :=
  place ++ [mov Register.rax top] ++ lower (slot size)
    ++ copy top (Address.at_ .rax 0) size ++ collapse (slot size) (16 + kept)

/-- Code that pushes the address of a reference, and the size of the result that is kept below
the address if the reference starts with a call. The code of the accessors is given for both
cases. -/
def placeWith (env : Env) (head : Head) (along : Ty → Gen Code)
    (called : Binding → Gen (Code × Nat)) : Gen (Code × Nat) := do
  let binding ← bound head
  let base ← resolved head.ty
  match binding.kind with
  | .parameter | .local_ | .iterator =>
    let address ← env.variableAddress binding.mangled
    return (pushAddress address ++ (← along base), 0)
  | .embed =>
    return (pushAddress (Address.ofSymbol (embedSymbol binding.mangled)) ++ (← along base), 0)
  | .function | .foreignFunction => called binding

/-- Code that pushes the result of a call. The code of the arguments is given for both kinds of
functions: stores into the frame that the caller reserves, and values on the stack. -/
def callWith (env : Env) (binding : Binding) (ty : Ty) (stores : List StackVariable → Gen Code)
    (values : Nat → Gen (Code × List Passed)) : Gen Code := do
  match binding.kind with
  | .function =>
    let callee ← env.routine binding.mangled
    let stored ← stores callee.function.stack.parameters
    return lower callee.frame.resultSlot ++ lower callee.frame.arguments ++ stored
      ++ [.call (functionSymbol binding.mangled)] ++ raise callee.frame.arguments
      ++ (if ty.isPointer || ty.isArray then [.call Collector.adoptSymbol] else [])
  | .foreignFunction =>
    let callee ← env.foreignFunction binding.mangled
    let layout ← env.layoutOf ty
    let result := if ty.isVoid then none else some (Convention.Shape.of ty layout)
    let (pushed, passed) ← values (callee.parameters.countP (·.ty?.isSome))
    match env.platform.convention.plan? (passed.map Passed.argument) result with
    | .error .resultTooLong => throw .resultTooLong
    | .error .overflow => throw .overflow
    | .ok plan =>
      return lower (slot layout.size) ++ pushed
        ++ callForeign env.platform.convention plan passed callee.linkName result
  | _ => throw (.callOfValue binding.mangled)

mutual
def exprCode (env : Env) (e : Expr) : Gen Code := do
  let ty ← resolved e.ty
  match e with
  | .integer _ literal => return pushImmediate (integerBits ty literal.value.toNat)
  | .float _ bits => return pushImmediate (floatBits ty bits)
  | .boolean _ value => return pushImmediate (if value then 1 else 0)
  | .null _ => return pushNull
  | .string _ value =>
    let symbol ← keepString value
    return stringCode env.platform symbol value.utf8ByteSize
  | .variable _ head [.call node arguments] =>
    let binding ← bound head
    callWith env binding (← resolved node.ty)
      (fun parameters => argumentsCode env parameters arguments)
      (fun fixed => foreignArgumentsCode env fixed arguments)
  | .variable _ head accessors =>
    let size ← env.sizeOf (← placeTy head accessors)
    let (place, kept) ← placeWith env head (fun t => accessorsCode env head.name.value t accessors)
      (fun binding => calledCode env head.name.value binding accessors)
    return valueAt size place kept
  | .parenthesized _ inner => exprCode env inner
  | .array _ [] => return pushNull
  | .array _ (first :: rest) =>
    let size ← env.sizeOf ty.withoutModifier
    let stores ← elementsCode env size 0 (first :: rest)
    return allocate env.platform (.immediate (rest.length + 1 : Nat)) size ++ pushRax
      ++ [movImm (Address.stack 8) (rest.length + 1 : Nat)] ++ stores
  | .allocation _ count =>
    let size ← env.sizeOf ty.withoutModifier
    return (← exprCode env count) ++ allocationCode env.platform size
  | .addressOf _ _ head accessors =>
    let (place, kept) ← placeWith env head (fun t => accessorsCode env head.name.value t accessors)
      (fun binding => calledCode env head.name.value binding accessors)
    if kept = 0 then return place else throw .addressOfResult
  | .unary _ op operand =>
    let operandTy ← resolved operand.ty
    return (← exprCode env operand) ++ unaryCode op.value operandTy
  | .binary _ op lhs rhs =>
    let lhsTy ← resolved lhs.ty
    let rhsTy ← resolved rhs.ty
    let left ← exprCode env lhs
    let right ← exprCode env rhs
    match lhsTy.precision? with
    | some precision => return left ++ right ++ (← floatBinary op.value precision)
    | none =>
      let operation ← integerBinary op.value lhsTy rhsTy (← env.sizeOf lhsTy) (← env.sizeOf rhsTy)
      return left ++ right ++ operation
  | .conversion _ inner target =>
    let value ← exprCode env inner
    let source ← resolved inner.ty
    return value ++ conversionCode source target.value (← env.sizeOf source)
  | .construct _ _ arguments =>
    let layout ← env.layoutOf ty
    let stores ← membersCode env layout.members arguments
    return lower (slot layout.size) ++ zero top (slot layout.size) ++ stores

/-- Code that follows accessors from the address at the top; `ty` is the type of what lies
there. -/
def accessorsCode (env : Env) (name : String) (ty : Ty) : List Accessor → Gen Code
  | [] => return []
  | .member node member :: rest => do
    let layout ← env.layoutOf ty
    match layout.member? member.value with
    | none => throw (.noMember ty member.value)
    | some m =>
      let steps ← accessorsCode env name (← resolved node.ty) rest
      return memberCode m.offset ++ steps
  | .dereference node :: rest => do
    let steps ← accessorsCode env name (← resolved node.ty) rest
    return dereferenceCode ++ steps
  | .index node position :: rest => do
    let size ← env.sizeOf ty.withoutModifier
    let index ← exprCode env position
    let steps ← accessorsCode env name (← resolved node.ty) rest
    return index ++ indexCode size ++ steps
  | .call _ _ :: _ => throw (.callInChain name)

/-- Code that calls a function and follows further accessors from its result. -/
def calledCode (env : Env) (name : String) (binding : Binding) :
    List Accessor → Gen (Code × Nat)
  | .call node arguments :: rest => do
    let ty ← resolved node.ty
    let call ← callWith env binding ty (fun parameters => argumentsCode env parameters arguments)
      (fun fixed => foreignArgumentsCode env fixed arguments)
    let size ← env.sizeOf ty
    let steps ← accessorsCode env name ty rest
    return (call ++ pushAddress top ++ steps, slot size)
  | _ => throw (.notCalled binding.mangled)

/-- Code that stores arguments in the area that the caller has reserved. -/
def argumentsCode (env : Env) (parameters : List StackVariable) : List Expr → Gen Code
  | [] => return []
  | argument :: rest => do
    match parameters with
    | [] => return []
    | parameter :: others =>
      let size ← env.sizeOf parameter.ty
      let value ← exprCode env argument
      let offset ← placedAt parameter
      let stores ← argumentsCode env others rest
      return value ++ storeBelow offset size ++ stores

/-- Code that pushes the arguments of a C function; the first `fixed` of them have parameters. -/
def foreignArgumentsCode (env : Env) (fixed : Nat) : List Expr → Gen (Code × List Passed)
  | [] => return ([], [])
  | argument :: rest => do
    let ty ← resolved argument.ty
    let value ← exprCode env argument
    let layout ← env.layoutOf ty
    let promoted := fixed == 0 && ty.isPlain "float"
    let shape := if promoted then Convention.Shape.double else .of ty layout
    let (values, passed) ← foreignArgumentsCode env (fixed - 1) rest
    return (value ++ (if promoted then promote else []) ++ values,
      ⟨⟨shape, fixed == 0⟩, slot layout.size⟩ :: passed)

/-- Code that stores elements, from the given index on, in the array at the top. -/
def elementsCode (env : Env) (size index : Nat) : List Expr → Gen Code
  | [] => return []
  | element :: rest => do
    let value ← exprCode env element
    let stores ← elementsCode env size (index + 1) rest
    return value ++ [mov Register.r10 (Address.stack (slot size))]
      ++ copy (Address.at_ .r10 (index * size : Nat)) top size ++ raise (slot size) ++ stores

/-- Code that stores members in the record at the top. -/
def membersCode (env : Env) (members : List LayoutMember) : List Argument → Gen Code
  | [] => return []
  | .mk _ value :: rest => do
    match members with
    | [] => return []
    | member :: others =>
      let size ← env.sizeOf member.ty
      let code ← exprCode env value
      let stores ← membersCode env others rest
      return code ++ storeBelow member.offset size ++ stores
end

/-- Code that pushes the address of a reference, and the size of what is kept below it. -/
def placeCode (env : Env) (p : Place) : Gen (Code × Nat) :=
  placeWith env p.head (fun t => accessorsCode env p.head.name.value t p.accessors)
    (fun binding => calledCode env p.head.name.value binding p.accessors)

end RegionCompiler.Codegen
