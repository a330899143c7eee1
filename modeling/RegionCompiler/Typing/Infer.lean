import RegionCompiler.Layout
import RegionCompiler.Scope
import RegionCompiler.Typing.Diagnostic

/-! Types of expressions. The type that is expected guides literals and nothing else. Inference
changes no declarations; it gives back the expression with the types found in it, up to the
first problem, and either the type of the whole or that problem. -/
namespace RegionCompiler.Typing

/-- The declarations that an expression can refer to. -/
structure Env where
  layouts : Registry
  symbols : SymbolTable
  types : List String

abbrev Result := Except Diagnostic Ty

def reject {α : Type} (span : Span) (problem : Problem) : Except Diagnostic α :=
  .error (problemAt span problem)

/-- The types that an integer literal can take, the narrowest first. -/
def literalCandidates (literal : IntegerLiteral) : List Ty :=
  match literal.radix with
  | .decimal =>
    (if literal.value ≤ 255 then [Ty.byte] else [])
      ++ (if literal.value ≤ 2147483647 then [Ty.i32] else [])
      ++ [Ty.int, Ty.float, Ty.double]
  | .hexadecimal digits =>
    if digits ≤ 2 then [Ty.byte, Ty.i32, Ty.int]
    else if digits ≤ 8 then [Ty.i32, Ty.int]
    else [Ty.int]

/-- The expected type if the literal can take it, or else its narrowest one. -/
def literalType (literal : IntegerLiteral) (hint : Ty) : Ty :=
  let candidates := literalCandidates literal
  if hint.isValid && candidates.any (·.agrees hint) then hint
  else candidates.headD Ty.int

/-- The conversions between different types. -/
def isValidConversion (source target : Ty) : Bool :=
  if source.isInteger then target.isNumeric
  else if source.isFloating then target.isFloating || target.isPlain "int" || target.isPlain "i32"
  else false

def recorded : Result → Ty
  | .ok t => t
  | .error _ => .invalid

def checkTypeExists (env : Env) (ty : Located Ty) : Except Diagnostic Unit :=
  match ty.value.name? with
  | some name =>
    if env.types.contains name then .ok () else reject ty.span (.unknownType ty.value)
  | none => reject ty.span (.unknownType ty.value)

def operatorDefined (op : BinaryOp) (t : Ty) : Bool :=
  if op.isLogical then t.isPlain "bool"
  else if op.isComparison then t.isNumeric || t.isPlain "bool"
  else if t.isFloating then op.isFloatingArithmetic
  else t.isInteger && op.isIntegerArithmetic

def binaryResult (op : Located BinaryOp) (rhsSpan : Span) (lhs rhs : Ty) : Result :=
  if !lhs.agrees rhs then reject rhsSpan (.typeMismatch lhs rhs)
  else if !operatorDefined op.value lhs then reject op.span (.binaryUndefined op.value lhs)
  else if op.value.isLogical || op.value.isComparison then .ok Ty.bool
  else .ok lhs

def unaryResult (op : UnaryOp) (span : Span) (t : Ty) : Result :=
  match op with
  | .not_ =>
    if t.isPlain "int" || t.isPlain "bool" then .ok t else reject span (.unaryUndefined op t)
  | .negate => if t.isNumeric then .ok t else reject span (.unaryUndefined op t)
  | .release => if t.isPointer || t.isArray then .ok t else reject span (.notPointerType t)

/-- The type of a member of an unmodified record. -/
def memberType (env : Env) (t : Ty) (member : String) : Option Ty :=
  match t with
  | .base name => ((env.layouts.get? name).bind (·.member? member)).map LayoutMember.ty
  | _ => none

def expectTy (span : Span) (expected : Ty) (actual : Result) : Except Diagnostic Unit := do
  let actual ← actual
  if actual.agrees expected then return ()
  else reject span (.typeMismatch expected actual)

def isNamed (a : Argument) (name : String) : Bool :=
  match a.name with
  | some n => n.value == name
  | none => false

/-- The member that the argument at a position initializes. -/
def memberFor (members : List LayoutMember) (position : Nat) (name : Option (Located String)) :
    Option LayoutMember :=
  match name with
  | some n => members.find? (·.name == n.value)
  | none => members[position]?

/-- Checks the names and the number of the arguments of a record expression. -/
def checkArguments (span : Span) (ty : Ty) (layout : Layout) (arguments : List Argument) :
    Except Diagnostic Unit :=
  let count : Problem := .constructorCount ty layout.members.length arguments.length
  let named := (arguments.filter (·.name.isSome)).length
  if named ≠ 0 ∧ named ≠ arguments.length then reject span .constructorFormat
  else
    let unknown := arguments.findSome? fun a =>
      a.name.bind fun n => if (layout.member? n.value).isNone then some n else none
    match unknown with
    | some n => reject n.span (.constructorUnknownMember ty n.value)
    | none =>
      let covered := layout.members.all fun m => (arguments.filter (isNamed · m.name)).length = 1
      if (named ≠ 0 ∧ !covered) ∨ arguments.length ≠ layout.members.length then reject span count
      else .ok ()

/-- An argument before and after inference, its place among the members and its problem. -/
structure CheckedArgument where
  before : Argument
  after : Argument
  position : Nat
  outcome : Except Diagnostic Unit

/-- Arguments in the order of the members. Those after one with a problem stay as they were. -/
def settleArguments : List CheckedArgument → List Argument × Except Diagnostic Unit
  | [] => ([], .ok ())
  | a :: rest =>
    match a.outcome with
    | .ok () =>
      let (others, outcome) := settleArguments rest
      (a.after :: others, outcome)
    | .error d => (a.after :: rest.map CheckedArgument.before, .error d)

def memberPosition (members : List LayoutMember) (position : Nat)
    (name : Option (Located String)) : Nat :=
  match name with
  | some n => members.findIdx (·.name == n.value)
  | none => position

/-- The symbol that a reference starts with, recorded in it. -/
def bindHead (env : Env) (scope : ScopePath) (head : Head) : Head × Result :=
  match env.symbols.resolve scope head.name.value with
  | none =>
    ({ head with ty := some .invalid },
      reject head.name.span (.variableDoesntExist head.name.value))
  | some symbol =>
    ({ head with ty := some symbol.ty, binding := some ⟨symbol.mangled, symbol.kind⟩ },
      .ok symbol.ty)

/-- A function can be used only by calling it. -/
def checkCalled (head : Head) (t : Ty) (accessors : List Accessor) : Except Diagnostic Unit :=
  if t.isFunction && !(accessors.head?.map Accessor.isCall).getD false then
    reject head.name.span (.functionNotCalled head.name.value)
  else .ok ()

def checkCount (span : Span) (name : String) (expected actual : Nat) (variadic : Bool) :
    Except Diagnostic Unit :=
  if (if variadic then expected ≤ actual else actual = expected) then .ok ()
  else reject span (.argumentCount name expected actual variadic)

def placeAlong (env : Env) (scope : ScopePath) (head : Head) (accessors : List Accessor)
    (along : Ty → List Accessor × Result) : Head × List Accessor × Result :=
  let (bound, base) := bindHead env scope head
  match base with
  | .error d => (bound, accessors, .error d)
  | .ok t =>
    match checkCalled head t accessors with
    | .error d => (bound, accessors, .error d)
    | .ok () => (bound, along t)

mutual
def infer (env : Env) (scope : ScopePath) (hint : Ty) : Expr → Expr × Result
  | .integer node literal =>
    let t := literalType literal hint
    (.integer { node with ty := some t } literal, .ok t)
  | .float node bits =>
    let t := if hint.isFloating then hint else Ty.double
    (.float { node with ty := some t } bits, .ok t)
  | .boolean node value => (.boolean { node with ty := some Ty.bool } value, .ok Ty.bool)
  | .string node value => (.string { node with ty := some Ty.bytes } value, .ok Ty.bytes)
  | .null node =>
    let result :=
      if hint.isPointer || hint.isArray then .ok hint else reject node.span .nullWithoutPointerHint
    (.null { node with ty := some (recorded result) }, result)
  | .variable node head accessors =>
    let (head, accessors, result) := placeAlong env scope head accessors fun t =>
      inferAccessors env scope head.name.value t accessors
    (.variable { node with ty := some (recorded result) } head accessors, result)
  | .parenthesized node inner =>
    let (inner, result) := infer env scope hint inner
    (.parenthesized { node with ty := some (recorded result) } inner, result)
  | .array node [] =>
    let result :=
      if hint.isArray then .ok hint
      else if hint.isValid then .ok (.array hint .dynamic)
      else reject node.span .emptyArrayWithoutHint
    (.array { node with ty := some (recorded result) } [], result)
  | .array node (first :: rest) =>
    let elementHint := if hint.isArray then hint.withoutModifier else .invalid
    let (first, element) := infer env scope elementHint first
    let (rest, result) : List Expr × Result := match element with
      | .error d => (rest, .error d)
      | .ok t =>
        let (others, outcome) := inferElements env scope t rest
        (others, outcome.map fun () => .array t (.fixed (rest.length + 1)))
    (.array { node with ty := some (recorded result) } (first :: rest), result)
  | .allocation node size =>
    let (size, result) : Expr × Result := match hint with
      | .array _ .dynamic =>
        let (checked, actual) := infer env scope Ty.int size
        (checked, (expectTy size.span Ty.int actual).map fun () => hint)
      | .array _ (.fixed _) => (size, reject node.span (.dynamicToFixedArray hint))
      | _ => (size, reject node.span .allocationWithoutHint)
    (.allocation { node with ty := some (recorded result) } size, result)
  | .addressOf node target head accessors =>
    if Place.containsCall accessors then
      (.addressOf { node with ty := some .invalid } target head accessors,
        reject node.span .invalidPointerTarget)
    else
      let (head, accessors, result) := placeAlong env scope head accessors fun t =>
        inferAccessors env scope head.name.value t accessors
      let result := result.map Ty.pointer
      (.addressOf { node with ty := some (recorded result) } target head accessors, result)
  | .unary node op operand =>
    let (checked, inner) := infer env scope hint operand
    let result := inner.bind (unaryResult op.value operand.span)
    (.unary { node with ty := some (recorded result) } op checked, result)
  | .binary node op lhs rhs =>
    let hint := if hint.isPlain "bool" then .invalid else hint
    let (left, leftTy) := infer env scope hint lhs
    let (right, result) : Expr × Result := match leftTy with
      | .error d => (rhs, .error d)
      | .ok t =>
        let (right, rightTy) := infer env scope t rhs
        (right, rightTy.bind (binaryResult op rhs.span t))
    (.binary { node with ty := some (recorded result) } op left right, result)
  | .conversion node inner target =>
    match checkTypeExists env target with
    | .error d => (.conversion { node with ty := some .invalid } inner target, .error d)
    | .ok () =>
      let (checked, source) := infer env scope .invalid inner
      let result : Result := source.bind fun t =>
        if !t.agrees target.value && !isValidConversion t target.value then
          reject node.span (.invalidConversion t target.value)
        else .ok target.value
      (.conversion { node with ty := some (recorded result) } checked target, result)
  | .construct node record arguments =>
    let ty := Ty.base record.value
    let (arguments, result) : List Argument × Result := match env.layouts.get? record.value with
      | none => (arguments, reject record.span (.unknownType ty))
      | some layout =>
        match checkArguments node.span ty layout arguments with
        | .error d => (arguments, .error d)
        | .ok () =>
          let checked := inferArguments env scope layout.members 0 arguments
          let (settled, outcome) :=
            settleArguments (checked.mergeSort fun a b => a.position ≤ b.position)
          (settled, outcome.map fun () => ty)
    (.construct { node with ty := some (recorded result) } record arguments, result)

/-- Accessors of a value of the given type; `name` is that of the reference. -/
def inferAccessors (env : Env) (scope : ScopePath) (name : String) (running : Ty) :
    List Accessor → List Accessor × Result
  | [] => ([], .ok running)
  | .call node arguments :: rest =>
    match running with
    | .function result parameters variadic _ =>
      match checkCount node.span name parameters.length arguments.length variadic with
      | .error d => (.call node arguments :: rest, .error d)
      | .ok () =>
        let (checked, outcome) := inferCall env scope parameters 1 arguments
        match outcome with
        | .error d => (.call node checked :: rest, .error d)
        | .ok () =>
          let (others, last) := inferAccessors env scope name result rest
          (.call { node with ty := some result } checked :: others, last)
    | _ => (.call node arguments :: rest, reject node.span (.cantAccess running "call"))
  | .index node position :: rest =>
    match running with
    | .array element _ =>
      let (checked, actual) := infer env scope Ty.int position
      match expectTy position.span Ty.int actual with
      | .error d => (.index node checked :: rest, .error d)
      | .ok () =>
        let (others, last) := inferAccessors env scope name element rest
        (.index { node with ty := some element } checked :: others, last)
    | _ => (.index node position :: rest, reject node.span (.cantAccess running "index"))
  | .dereference node :: rest =>
    match running with
    | .pointer target =>
      let (others, last) := inferAccessors env scope name target rest
      (.dereference { node with ty := some target } :: others, last)
    | _ => (.dereference node :: rest, reject node.span (.cantAccess running "dereference"))
  | .member node member :: rest =>
    match memberType env running member.value with
    | some t =>
      let (others, last) := inferAccessors env scope name t rest
      (.member { node with ty := some t } member :: others, last)
    | none =>
      (.member node member :: rest,
        reject node.span (.cantAccess running ("access member `" ++ member.value ++ "` of")))

/-- Arguments of a call from the given position on. Those without a parameter may be of any
type. -/
def inferCall (env : Env) (scope : ScopePath) (parameters : List Ty) (position : Nat) :
    List Expr → List Expr × Except Diagnostic Unit
  | [] => ([], .ok ())
  | argument :: rest =>
    let (checked, result) := infer env scope (parameters.headD .invalid) argument
    let outcome : Except Diagnostic Unit := result.bind fun actual =>
      match parameters with
      | [] => .ok ()
      | expected :: _ =>
        if actual.agrees expected then .ok ()
        else reject argument.span (.argumentType position expected actual)
    match outcome with
    | .error d => (checked :: rest, .error d)
    | .ok () =>
      let (others, last) := inferCall env scope parameters.tail (position + 1) rest
      (checked :: others, last)

/-- Array elements after the first one, which gives their type. -/
def inferElements (env : Env) (scope : ScopePath) (expected : Ty) :
    List Expr → List Expr × Except Diagnostic Unit
  | [] => ([], .ok ())
  | element :: rest =>
    let (checked, result) := infer env scope expected element
    let outcome : Except Diagnostic Unit := result.bind fun actual =>
      if actual.agrees expected then .ok ()
      else reject element.span (.typeMismatchMany expected actual)
    match outcome with
    | .error d => (checked :: rest, .error d)
    | .ok () =>
      let (others, last) := inferElements env scope expected rest
      (checked :: others, last)

/-- The arguments of a record expression, each against the member that it initializes. -/
def inferArguments (env : Env) (scope : ScopePath) (members : List LayoutMember)
    (position : Nat) : List Argument → List CheckedArgument
  | [] => []
  | .mk name value :: rest =>
    let expected := ((memberFor members position name).map LayoutMember.ty).getD .invalid
    let (checked, actual) := infer env scope expected value
    { before := .mk name value
      after := .mk name checked
      position := memberPosition members position name
      outcome := expectTy value.span expected actual }
      :: inferArguments env scope members (position + 1) rest
end

def inferPlace (env : Env) (scope : ScopePath) (place : Place) : Place × Result :=
  let (head, accessors, result) := placeAlong env scope place.head place.accessors fun t =>
    inferAccessors env scope place.head.name.value t place.accessors
  (⟨head, accessors⟩, result)

end RegionCompiler.Typing
