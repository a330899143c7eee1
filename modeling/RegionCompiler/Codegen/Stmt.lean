import RegionCompiler.Codegen.Expr

/-! Code of statements and functions. A block that is not manual opens a frame of the collector,
and every way out of it closes that frame: falling through, `ret`, `break` and `continue`. -/
namespace RegionCompiler.Codegen

open Machine Machine.Instr

/-- Where the loop control statements jump, and how many frames of the collector are open
there. -/
structure Loop where
  continues : Label
  breaks : Label
  depth : Nat

/-- Evaluates a condition; equality means that it is false. -/
def conditionCode (env : Env) (condition : Expr) : Gen Code := do
  return (← exprCode env condition) ++ [.movzx .rax .byte top] ++ raise 16
    ++ [.binary .test (.register .rax .dword) (.register .rax .dword)]

/-- Closes frames of the collector from one depth down to another. -/
def leaveFrames (depth target : Nat) : Except Fault Code :=
  if depth < target then .error .intoFrame
  else .ok (List.replicate (depth - target) (.call Collector.exitSymbol))

def inLoop : Option Loop → Except Fault Loop
  | some loop => .ok loop
  | none => .error .outsideLoop

/-- Code that moves the value at the top to its variable, or to the heap with the variable pointing
there. -/
def storeVariable (platform : Platform) (boxed : Bool) (home : Address) (size : Nat) : Code :=
  if boxed then
    Collector.callC platform "calloc" [.immediate 1, .immediate (max size 1 : Nat)]
      ++ Collector.checkAllocation
      ++ [.call Collector.pushSymbol, mov home Register.rax]
      ++ copy (Address.at_ .rax 0) top size
  else copy home top size

def letCode (env : Env) (boxed : Bool) (ty : Ty) (name : String) (value : Expr)
    (mangled : Option String) : Gen Code := do
  match mangled with
  | none => throw (.undeclared name)
  | some mangled =>
    let size ← env.sizeOf ty
    let home ← env.variableAddress mangled
    let code ← exprCode env value
    return code ++ storeVariable env.platform boxed home size ++ raise (slot size)

def mutCode (env : Env) (target : Place) (value : Expr) : Gen Code := do
  let size ← env.sizeOf (← placeTy target.head target.accessors)
  let (place, kept) ← placeCode env target
  let code ← exprCode env value
  return place ++ code ++ [mov Register.rax (Address.stack (slot size))]
    ++ copy (Address.at_ .rax 0) top size ++ raise (slot size + 16 + kept)

/-- How many frames of the collector the body of a function opens. -/
def bodyDepth (f : Function) : Nat := if f.body.manual then 0 else 1

/-- A pointer that is returned leaves the frame of the function. -/
def resultCode (env : Env) (value : Expr) : Gen Code := do
  let ty ← resolved value.ty
  let size ← env.sizeOf ty
  let code ← exprCode env value
  let result := Address.frame env.current.frame.resultAt
  return code ++ copy result top size ++ raise (slot size)
    ++ (if ty.isPointer || ty.isArray then [mov Register.rax result, .call Collector.releaseSymbol]
      else [])

def returnCode (env : Env) (exit : Label) (depth : Nat) (value : Option Expr) : Gen Code := do
  let result ← match value with
    | none => pure []
    | some value => resultCode env value
  return result ++ (← leaveFrames depth (bodyDepth env.current.function)) ++ [jump exit]

/-- Leaves the loop unless the iterator is below the bound at the top. The bound is compared as
the last value that is allowed, which the least integer does not have. -/
def boundCheck (iterator : Address) (stop : Label) : Code :=
  [mov Register.rcx top] ++ raise 16
    ++ [.unary .dec Register.rcx,
      jumpIf .overflow stop,
      mov Register.rax iterator,
      .binary .cmp Register.rax Register.rcx,
      jumpIf .greater stop]

mutual
/-- Code of a statement; `depth` frames of the collector are open around it. -/
def stmtCode (env : Env) (exit : Label) (depth : Nat) (loop : Option Loop) : Stmt → Gen Code
  | .let_ _ boxed ty name value mangled => letCode env boxed ty.value name.value value mangled
  | .mut_ _ target value => mutCode env target.value value
  | .call _ value => do
    let size ← env.sizeOf (← resolved value.ty)
    return (← exprCode env value) ++ raise (slot size)
  | .collect _ value => do
    return (← exprCode env value) ++ popRax ++ [.call Collector.collectSymbol]
  | .return_ _ value => returnCode env exit depth value
  | .break_ _ => do
    let loop ← inLoop loop
    return (← leaveFrames depth loop.depth) ++ [jump loop.breaks]
  | .continue_ _ => do
    let loop ← inLoop loop
    return (← leaveFrames depth loop.depth) ++ [jump loop.continues]
  | .if_ _ condition yes => do
    let otherwise ← freshLabel
    let stop ← freshLabel
    let check ← conditionCode env condition
    let yes ← blockCode env exit depth loop yes
    return check ++ [jumpIf .equal otherwise] ++ yes
      ++ [jump stop, .label otherwise, .label stop]
  | .ifElse _ condition yes no => do
    let otherwise ← freshLabel
    let stop ← freshLabel
    let check ← conditionCode env condition
    let yes ← blockCode env exit depth loop yes
    let no ← blockCode env exit depth loop no
    return check ++ [jumpIf .equal otherwise] ++ yes ++ [jump stop, .label otherwise] ++ no
      ++ [.label stop]
  | .while_ _ condition body => do
    let start ← freshLabel
    let stop ← freshLabel
    let check ← conditionCode env condition
    let body ← blockCode env exit depth (some ⟨start, stop, depth⟩) body
    return [.label start] ++ check ++ [jumpIf .equal stop] ++ body ++ [jump start, .label stop]
  | .doWhile _ body condition => do
    let start ← freshLabel
    let again ← freshLabel
    let stop ← freshLabel
    let body ← blockCode env exit depth (some ⟨again, stop, depth⟩) body
    let check ← conditionCode env condition
    return [.label start] ++ body ++ [.label again] ++ check
      ++ [jumpIf .notEqual start, .label stop]
  | .for_ _ iterator start stop body mangled => do
    match mangled with
    | none => throw (.undeclaredIterator iterator.value)
    | some mangled =>
      let home ← env.variableAddress mangled
      let check ← freshLabel
      let step ← freshLabel
      let done ← freshLabel
      let start ← exprCode env start
      let stop ← exprCode env stop
      let body ← blockCode env exit depth (some ⟨step, done, depth⟩) body
      return start ++ popRax ++ [mov home Register.rax, .label check] ++ stop
        ++ boundCheck home done ++ body
        ++ [.label step, .unary .inc home, jump check, .label done]
  | .block _ body => blockCode env exit depth loop body

def blockCode (env : Env) (exit : Label) (depth : Nat) (loop : Option Loop) : Block → Gen Code
  | .mk _ true statements => stmtsCode env exit depth loop statements
  | .mk _ false statements => do
    let body ← stmtsCode env exit (depth + 1) loop statements
    return [.call Collector.enterSymbol] ++ body ++ [.call Collector.exitSymbol]

def stmtsCode (env : Env) (exit : Label) (depth : Nat) (loop : Option Loop) :
    List Stmt → Gen Code
  | [] => return []
  | s :: rest => do
    let first ← stmtCode env exit depth loop s
    return first ++ (← stmtsCode env exit depth loop rest)
end

def functionCode (env : Env) : Gen Code := do
  let function := env.current.function
  let name := env.current.name
  let exit ← freshLabel
  let body ← stmtsCode env exit (bodyDepth function) none function.body.statements
  return [.comment ("fn " ++ name ++ ": " ++ function.signature.display),
      .symbol (functionSymbol name)]
    ++ Collector.prologue
    ++ lower env.current.frame.locals
    ++ (if function.body.manual then [] else [.call Collector.enterSymbol])
    ++ body
    ++ [.label exit]
    ++ (if function.body.manual then [] else [.call Collector.exitSymbol])
    ++ Collector.epilogue

end RegionCompiler.Codegen
