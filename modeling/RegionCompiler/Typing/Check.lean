import RegionCompiler.Path
import RegionCompiler.Typing.Infer

/-! Checking statements, functions and programs. A program comes back with the type of every
expression, the declaration behind every name and the variables of every function; problems are
collected in the order in which they are met. -/
namespace RegionCompiler.Typing

/-- What the bodies of functions cannot change. -/
structure Context where
  layouts : Registry
  types : List String

/-- What grows while declarations and bodies are checked. -/
structure Progress where
  symbols : SymbolTable
  diagnostics : List Diagnostic
  /-- The locals of the function at hand. -/
  locals : List StackVariable

abbrev Check := StateM Progress

def report (d : Diagnostic) : Check Unit :=
  modify fun s => { s with diagnostics := s.diagnostics ++ [d] }

/-- Reports the problem, if there is one. -/
def settle {α : Type} (outcome : Except Diagnostic α) : Check (Option α) := do
  match outcome with
  | .ok a => return some a
  | .error d =>
    report d
    return none

def addLocal (v : StackVariable) : Check Unit :=
  modify fun s => { s with locals := s.locals ++ [v] }

/-- Declares a symbol, or reports the one that has its name already. -/
def declare (symbol : Symbol) : Check Bool := do
  let s ← get
  match s.symbols.declare symbol with
  | .ok symbols =>
    set { s with symbols }
    return true
  | .error existing =>
    report ⟨symbol.span, .alreadyExists symbol.name,
      [⟨existing.span, .firstDeclared existing.name⟩]⟩
    return false

def env (ctx : Context) : Check Env := do
  return ⟨ctx.layouts, (← get).symbols, ctx.types⟩

def checkExpr (ctx : Context) (scope : ScopePath) (hint : Ty) (e : Expr) :
    Check (Expr × Option Ty) := do
  let (checked, result) := infer (← env ctx) scope hint e
  return (checked, ← settle result)

def checkExact (ctx : Context) (scope : ScopePath) (expected : Ty) (e : Expr) : Check Expr := do
  let (checked, result) := infer (← env ctx) scope expected e
  let _ ← settle (expectTy e.span expected result)
  return checked

def declareType (ctx : Context) (ty : Located Ty) : Check (Option Unit) := do
  settle (checkTypeExists (← env ctx) ty)

def checkLet (ctx : Context) (scope : ScopePath) (span : Span) (allocate : Bool)
    (ty : Located Ty) (name : Located String) (value : Expr) (mangled : Option String) :
    Check Stmt := do
  match ← declareType ctx ty with
  | none => return .let_ span allocate ty name value mangled
  | some () =>
    let (checked, actual) ← checkExpr ctx scope ty.value value
    let variableTy := if allocate then ty.value.withModifier .pointer else ty.value
    let own := scope.mangle name.value
    if ← declare ⟨name.value, own, variableTy, name.span, .local_⟩ then
      addLocal ⟨variableTy, own, none⟩
      if let some actual := actual then
        if !actual.agrees ty.value then
          report (problemAt value.span (.letTypeMismatch ty.value actual))
      return .let_ span allocate ty name checked (some own)
    else return .let_ span allocate ty name checked mangled

def checkMut (ctx : Context) (scope : ScopePath) (span : Span) (target : Located Place)
    (value : Expr) : Check Stmt := do
  if Place.endsInCall target.value.accessors then
    report (problemAt target.span .mutOfCall)
    return .mut_ span target value
  else
    let (place, result) := inferPlace (← env ctx) scope target.value
    match ← settle result with
    | none => return .mut_ span ⟨target.span, place⟩ value
    | some expected =>
      return .mut_ span ⟨target.span, place⟩ (← checkExact ctx scope expected value)

def checkCall (ctx : Context) (scope : ScopePath) (span : Span) (value : Expr) : Check Stmt := do
  if value.isCall then
    let (checked, _) ← checkExpr ctx scope .invalid value
    return .call span checked
  else
    report (problemAt value.span .notACall)
    return .call span value

def checkCollect (ctx : Context) (scope : ScopePath) (span : Span) (value : Expr) :
    Check Stmt := do
  let (checked, result) ← checkExpr ctx scope .invalid value
  if let some t := result then
    if !t.isPointer && !t.isArray then report (problemAt value.span (.notPointerType t))
  return .collect span checked

def checkReturn (ctx : Context) (scope : ScopePath) (result : Located Ty) (span : Span) :
    Option Expr → Check Stmt
  | none => do
    if !result.value.isVoid then
      report ⟨span, .returnEmpty result.value, [⟨result.span, .returnTypeDeclared result.value⟩]⟩
    return .return_ span none
  | some value => do
    if result.value.isVoid then
      report (problemAt value.span .returnValueInVoid)
      return .return_ span (some value)
    else
      let (checked, actual) ← checkExpr ctx scope result.value value
      if let some actual := actual then
        if !actual.agrees result.value then
          report (problemAt value.span (.retTypeMismatch result.value actual))
      return .return_ span (some checked)

def checkInLoop (inLoop : Bool) (span : Span) (keyword : String) : Check Unit := do
  if !inLoop then report (problemAt span (.notInLoop keyword))

/-- Declares the iterator of a loop. It is a local of the function even if its name clashes. -/
def declareIterator (scope : ScopePath) (iterator : Located String) : Check String := do
  let own := scope.mangle iterator.value
  let _ ← declare ⟨iterator.value, own, Ty.int, iterator.span, .iterator⟩
  addLocal ⟨Ty.int, own, none⟩
  return own

mutual
/-- A statement of the block with the given scope, which has had as many blocks of each kind as
`counters` says. -/
def checkStmt (ctx : Context) (result : Located Ty) (scope : ScopePath) (inLoop : Bool)
    (counters : SegmentCounters) : Stmt → Check (Stmt × SegmentCounters)
  | .let_ span allocate ty name value mangled => do
    return (← checkLet ctx scope span allocate ty name value mangled, counters)
  | .mut_ span target value => do return (← checkMut ctx scope span target value, counters)
  | .call span value => do return (← checkCall ctx scope span value, counters)
  | .collect span value => do return (← checkCollect ctx scope span value, counters)
  | .return_ span value => do return (← checkReturn ctx scope result span value, counters)
  | .break_ span => do
    checkInLoop inLoop span "break"
    return (.break_ span, counters)
  | .continue_ span => do
    checkInLoop inLoop span "continue"
    return (.continue_ span, counters)
  | .if_ span condition yes => do
    let (index, counters) := counters.next .if_
    let condition ← checkExact ctx scope Ty.bool condition
    let yes ← checkBlock ctx result (scope.child .if_ index) inLoop yes
    return (.if_ span condition yes, counters)
  | .ifElse span condition yes no => do
    let (index, counters) := counters.next .if_
    let condition ← checkExact ctx scope Ty.bool condition
    let yes ← checkBlock ctx result (scope.child .if_ index) inLoop yes
    let no ← checkBlock ctx result (scope.child .else_ index) inLoop no
    return (.ifElse span condition yes no, counters)
  | .while_ span condition body => do
    let (index, counters) := counters.next .while_
    let condition ← checkExact ctx scope Ty.bool condition
    let body ← checkBlock ctx result (scope.child .while_ index) true body
    return (.while_ span condition body, counters)
  | .doWhile span body condition => do
    let (index, counters) := counters.next .do_
    let body ← checkBlock ctx result (scope.child .do_ index) true body
    let condition ← checkExact ctx scope Ty.bool condition
    return (.doWhile span body condition, counters)
  | .for_ span iterator start stop body _ => do
    let (index, counters) := counters.next .for_
    let inner := scope.child .for_ index
    let start ← checkExact ctx scope Ty.int start
    let stop ← checkExact ctx scope Ty.int stop
    let own ← declareIterator inner iterator
    let body ← checkBlock ctx result inner true body
    return (.for_ span iterator start stop body (some own), counters)
  | .block span body => do
    let (index, counters) := counters.next .block
    let body ← checkBlock ctx result (scope.child .block index) inLoop body
    return (.block span body, counters)

def checkStmts (ctx : Context) (result : Located Ty) (scope : ScopePath) (inLoop : Bool)
    (counters : SegmentCounters) : List Stmt → Check (List Stmt)
  | [] => return []
  | first :: rest => do
    let (first, counters) ← checkStmt ctx result scope inLoop counters first
    let rest ← checkStmts ctx result scope inLoop counters rest
    return first :: rest

def checkBlock (ctx : Context) (result : Located Ty) (scope : ScopePath) (inLoop : Bool) :
    Block → Check Block
  | .mk span manual statements => do
    return .mk span manual (← checkStmts ctx result scope inLoop .zero statements)
end

/-- A parameter keeps its place among the variables even if its name clashes. -/
def checkParameter (scope : ScopePath) (p : Parameter) : Check StackVariable := do
  let own := scope.mangle p.name.value
  let _ ← declare ⟨p.name.value, own, p.ty.value, p.name.span, .parameter⟩
  return ⟨p.ty.value, own, none⟩

def checkFunction (ctx : Context) (f : Function) : Check Function := do
  let scope := ScopePath.ofFunction f.name.value
  modify fun s => { s with locals := [] }
  let parameters ← f.parameters.mapM (checkParameter scope)
  let body ← checkBlock ctx f.result scope false f.body
  if !f.result.value.isVoid && !f.body.endsInReturn then
    report ⟨f.name.span, .noReturn f.name.value f.result.value,
      [⟨f.result.span, .returnTypeDeclared f.result.value⟩]⟩
  return { f with body, stack := ⟨parameters, (← get).locals⟩ }

def declareFunction (ctx : Context) (f : Function) : Check Unit := do
  f.parameters.forM fun p => do let _ ← declareType ctx p.ty
  let _ ← declareType ctx f.result
  let _ ← declare ⟨f.name.value, f.name.value, f.signature, f.name.span, .function⟩

/-- Only the last parameter can stand for any number of arguments. -/
def checkForeignParameters (ctx : Context) : List ForeignParameter → Check Unit
  | [] => return ()
  | .typed ty _ :: rest => do
    let _ ← declareType ctx ty
    checkForeignParameters ctx rest
  | .variadic span :: rest => do
    if !rest.isEmpty then report (problemAt span .invalidVariadicPosition)
    checkForeignParameters ctx rest

def declareForeign (ctx : Context) (f : ForeignFunction) : Check Unit := do
  checkForeignParameters ctx f.parameters
  let _ ← declareType ctx f.result
  let _ ← declare ⟨f.name.value, f.name.value, f.signature, f.name.span, .foreignFunction⟩

/-- Looks for an embedded file below the base directory. -/
def declareEmbed (isFile : String → Bool) (base : String) (e : Embed) : Check Embed := do
  let path := Path.join base e.path.value
  let found := isFile path
  if !found then report (problemAt e.path.span (.embedNotFound path))
  let _ ← declare ⟨e.name.value, e.name.value, Ty.bytes, e.name.span, .embed⟩
  return { e with resolved := if found then some path else e.resolved }

def checkEntryPoint (functions : List Function) : Check Unit := do
  match functions.find? (·.name.value == "main") with
  | none => report (problemAt Span.origin .noEntryPoint)
  | some main =>
    let result := main.result.value
    if !main.parameters.isEmpty || !(result.isVoid || result.isInteger) then
      report ⟨main.name.span, .invalidEntryPoint,
        [⟨main.name.span, .functionDeclared main.name.value⟩]⟩

def recordShape (r : Record) : RecordShape :=
  ⟨r.name.value, r.members.map fun m => (m.name.value, m.ty.value)⟩

/-- The problem of the record at a position. A member of unknown type has been reported where
it stands. -/
def recordDiagnostic (records : List Record) (index : Nat) (name : Located String) :
    LayoutError → Option Diagnostic
  | .duplicateType duplicate =>
    let others := (List.range records.length).zip records
    let other := others.find? fun (i, r) => i ≠ index && r.name.value == duplicate
    some ⟨name.span, .alreadyExists duplicate,
      (other.map fun (_, r) => ⟨r.name.span, .firstDeclared duplicate⟩).toList⟩
  | .unknownType _ => none
  | .notMaterializable ty => some (problemAt name.span (.unknownType ty))
  | .cycle name' => some (problemAt name.span (.cantFigureTypes name'))
  | .overflow => some (problemAt name.span .overflow)

/-- What is known after some programs were checked. -/
structure Knowledge where
  layouts : Registry
  types : List String
  symbols : SymbolTable
  diagnostics : List Diagnostic

def Knowledge.initial : Knowledge where
  layouts := .initial
  types := ["int", "i32", "byte", "bool", "double", "float", "void"]
  symbols := .empty
  diagnostics := []

def Knowledge.env (k : Knowledge) : Env :=
  ⟨k.layouts, k.symbols, k.types⟩

def Knowledge.overflows (k : Knowledge) : Bool :=
  k.diagnostics.any (·.problem.isOverflow)

def checkRecords (ctx : Context) (records : List Record) (errors : List (Nat × LayoutError)) :
    Check Unit := do
  records.forM fun r => r.members.forM fun m => do let _ ← declareType ctx m.ty
  errors.forM fun (index, e) => do
    if let some r := records[index]? then
      if let some d := recordDiagnostic records index r.name e then report d

/-- Everything after the layouts of the records are known. -/
def checkDeclarations (ctx : Context) (isFile : String → Bool) (base : String) (p : Program)
    (errors : List (Nat × LayoutError)) : Check Program := do
  checkRecords ctx p.records errors
  p.functions.forM (declareFunction ctx)
  p.foreign.forM (declareForeign ctx)
  let embeds ← p.embeds.mapM (declareEmbed isFile base)
  checkEntryPoint p.functions
  let functions ← p.functions.mapM (checkFunction ctx)
  return { p with functions, embeds }

/-- Checks a program on top of what is known. -/
def analyze (isFile : String → Bool) (base : String) (k : Knowledge) (p : Program) :
    Program × Knowledge :=
  let types := k.types ++ p.records.map (·.name.value)
  let (layouts, errors) := k.layouts.registerRecords (p.records.map recordShape)
  let (checked, s) :=
    (checkDeclarations ⟨layouts, types⟩ isFile base p errors).run ⟨k.symbols, k.diagnostics, []⟩
  (checked, ⟨layouts, types, s.symbols, s.diagnostics⟩)

end RegionCompiler.Typing
