import RegionCompiler.Proofs.Scope.Lookup
import RegionCompiler.Proofs.Typing.Infer

/-! Inference in place. The tree at hand is annotated while it is walked, each problem is reported
where it is met, and all that comes back is a type. An annotation can be set only once: a run that
sets one again gives nothing. On a tree without annotations the run does what `infer` says. -/
namespace RegionCompiler

/-- Something stands under all the modifiers of the type. -/
def Ty.IsNamed (t : Ty) : Prop := t.name?.isSome

theorem Ty.IsNamed.isValid {t : Ty} (h : t.IsNamed) : t.isValid := by
  cases t <;> first | rfl | cases h

theorem Ty.IsData.isNamed : ∀ {t : Ty}, t.IsData → t.IsNamed
  | .base _, _ => rfl
  | .pointer t, h | .array t _, h => IsData.isNamed (t := t) h

mutual
/-- No node of the expression has a type. -/
def Expr.Fresh : Expr → Prop
  | .integer n _ | .float n _ | .boolean n _ | .string n _ | .null n => n.ty = none
  | .variable n head accessors | .addressOf n _ head accessors =>
    n.ty = none ∧ head.ty = none ∧ Accessor.AllFresh accessors
  | .parenthesized n inner | .conversion n inner _ => n.ty = none ∧ inner.Fresh
  | .array n elements => n.ty = none ∧ Expr.AllFresh elements
  | .allocation n size => n.ty = none ∧ size.Fresh
  | .unary n _ operand => n.ty = none ∧ operand.Fresh
  | .binary n _ lhs rhs => n.ty = none ∧ lhs.Fresh ∧ rhs.Fresh
  | .construct n _ arguments => n.ty = none ∧ Argument.AllFresh arguments

def Expr.AllFresh : List Expr → Prop
  | [] => True
  | e :: rest => e.Fresh ∧ Expr.AllFresh rest

def Accessor.Fresh : Accessor → Prop
  | .call n arguments => n.ty = none ∧ Expr.AllFresh arguments
  | .index n position => n.ty = none ∧ position.Fresh
  | .dereference n | .member n _ => n.ty = none

def Accessor.AllFresh : List Accessor → Prop
  | [] => True
  | a :: rest => a.Fresh ∧ Accessor.AllFresh rest

def Argument.Fresh : Argument → Prop
  | .mk _ value => value.Fresh

def Argument.AllFresh : List Argument → Prop
  | [] => True
  | a :: rest => a.Fresh ∧ Argument.AllFresh rest
end

theorem Expr.Fresh.node_ty {e : Expr} (h : e.Fresh) : e.node.ty = none := by
  cases e <;> simp only [Expr.Fresh] at h <;> first | exact h | exact h.1

namespace Typing

/-! ### Runs -/

/-- Runs that know the declarations and add to the diagnostics. -/
abbrev Marking := StateT Knowledge Option

namespace Marking

def known : Marking Env := do
  return (← get).env

/-- Reports the problem, if there is one. -/
def raise {α : Type} : Except Diagnostic α → Marking (Option α)
  | .ok a => return some a
  | .error d => do
    modify fun k => { k with diagnostics := k.diagnostics ++ [d] }
    return none

/-- Writes an annotation that is not there yet. -/
def setOnce (slot : Option Ty) (t : Ty) : Marking (Option Ty) :=
  match slot with
  | none => return some t
  | some _ => failure

def mark (node : Node) (t : Ty) : Marking Node := do
  return { node with ty := ← setOnce node.ty t }

/-- Annotates the root of an expression whose parts were walked. -/
def finish (node : Node) (found : Option Ty) (build : Node → Expr) : Marking (Expr × Ty) := do
  let t := found.getD .invalid
  return (build (← mark node t), t)

/-- Annotates an accessor and goes on to the next one. -/
def advance (node : Node) (t : Ty) (build : Node → Accessor)
    (others : Marking (List Accessor × Option Ty)) : Marking (List Accessor × Option Ty) := do
  let node ← mark node t
  let (rest, found) ← others
  return (build node :: rest, found)

/-- Checks the type of an expression, unless it has none. -/
def checked {α : Type} (run : Marking (Expr × Ty)) (check : Ty → Except Diagnostic α) :
    Marking (Expr × Option α) := do
  let (e, t) ← run
  if t.isValid then return (e, ← raise (check t)) else return (e, none)

/-- Goes on with the rest of a list, unless there was a problem. -/
def andThen {α : Type} (first : Marking (α × Option Unit)) (rest : List α)
    (others : Marking (List α × Option Unit)) : Marking (List α × Option Unit) := do
  let (a, outcome) ← first
  match outcome with
  | none => return (a :: rest, none)
  | some () =>
    let (others, outcome) ← others
    return (a :: others, outcome)

end Marking

open Marking

/-- An argument that is still to be walked, and its place among the members. -/
structure PendingArgument where
  argument : Argument
  position : Nat
  run : Marking (Argument × Option Unit)

/-- Walks arguments up to the first problem. -/
def runArguments : List PendingArgument → Marking (List Argument × Option Unit)
  | [] => return ([], some ())
  | a :: rest => andThen a.run (rest.map PendingArgument.argument) (runArguments rest)

/-- Checks an argument of a call against the first of the parameters, if there is one. -/
def checkPassed (span : Span) (position : Nat) (parameters : List Ty) (actual : Ty) :
    Except Diagnostic Unit :=
  match parameters with
  | [] => .ok ()
  | expected :: _ =>
    if actual.agrees expected then .ok () else reject span (.argumentType position expected actual)

/-- A reference, from its name along its accessors. -/
def followPlace (scope : ScopePath) (head : Head) (accessors : List Accessor)
    (along : Ty → Marking (List Accessor × Option Ty)) :
    Marking (Head × List Accessor × Option Ty) := do
  match (← known).symbols.resolve scope head.name.value with
  | none =>
    let ty ← setOnce head.ty .invalid
    let found ← raise (reject head.name.span (.variableDoesntExist head.name.value))
    return ({ head with ty }, accessors, found)
  | some symbol =>
    let ty ← setOnce head.ty symbol.ty
    let bound := { head with ty, binding := some ⟨symbol.mangled, symbol.kind⟩ }
    match ← raise (checkCalled head symbol.ty accessors) with
    | none => return (bound, accessors, none)
    | some () =>
      let (accessors, found) ← along symbol.ty
      return (bound, accessors, found)

mutual
/-- Annotates the expression, and gives the type that its root gets. -/
def inferType (scope : ScopePath) (hint : Ty) : Expr → Marking (Expr × Ty)
  | .integer node literal => finish node (some (literalType literal hint)) (.integer · literal)
  | .float node bits =>
    finish node (some (if hint.isFloating then hint else Ty.double)) (.float · bits)
  | .boolean node value => finish node (some Ty.bool) (.boolean · value)
  | .string node value => finish node (some Ty.bytes) (.string · value)
  | .null node => do
    let found ← raise (
      if hint.isPointer || hint.isArray then .ok hint else reject node.span .nullWithoutPointerHint)
    finish node found .null
  | .variable node head accessors => do
    let (head, accessors, found) ← followPlace scope head accessors fun t =>
      inferAlong scope head.name.value t accessors
    finish node found (.variable · head accessors)
  | .parenthesized node inner => do
    let (inner, t) ← inferType scope hint inner
    finish node (some t) (.parenthesized · inner)
  | .array node [] => do
    let found ← raise (
      if hint.isArray then .ok hint
      else if hint.isValid then .ok (.array hint .dynamic)
      else reject node.span .emptyArrayWithoutHint)
    finish node found (.array · [])
  | .array node (first :: rest) => do
    let (first, t) ← inferType scope (if hint.isArray then hint.withoutModifier else .invalid) first
    if t.isValid then
      let (others, outcome) ← inferRest scope t rest
      finish node (outcome.map fun () => .array t (.fixed (rest.length + 1)))
        (.array · (first :: others))
    else finish node none (.array · (first :: rest))
  | .allocation node size =>
    match hint with
    | .array _ .dynamic => do
      let (size, outcome) ←
        checked (inferType scope Ty.int size) fun t => expectTy size.span Ty.int (.ok t)
      finish node (outcome.map fun () => hint) (.allocation · size)
    | .array _ (.fixed _) => do
      let found ← raise (reject node.span (.dynamicToFixedArray hint))
      finish node found (.allocation · size)
    | _ => do
      let found ← raise (reject node.span .allocationWithoutHint)
      finish node found (.allocation · size)
  | .addressOf node target head accessors => do
    if Place.containsCall accessors then
      let found ← raise (reject node.span .invalidPointerTarget)
      finish node found (.addressOf · target head accessors)
    else
      let (head, accessors, found) ← followPlace scope head accessors fun t =>
        inferAlong scope head.name.value t accessors
      finish node (some ((found.getD .invalid).withModifier .pointer))
        (.addressOf · target head accessors)
  | .unary node op operand => do
    let (inner, found) ←
      checked (inferType scope hint operand) (unaryResult op.value operand.span)
    finish node found (.unary · op inner)
  | .binary node op lhs rhs => do
    let (left, t) ← inferType scope (if hint.isPlain "bool" then .invalid else hint) lhs
    if t.isValid then
      let (right, found) ← checked (inferType scope t rhs) (binaryResult op rhs.span t)
      finish node found (.binary · op left right)
    else finish node none (.binary · op left rhs)
  | .conversion node inner target => do
    match ← raise (checkTypeExists (← known) target) with
    | none => finish node none (.conversion · inner target)
    | some () =>
      let (inner, found) ← checked (inferType scope .invalid inner) fun t =>
        if !t.agrees target.value && !isValidConversion t target.value then
          reject node.span (.invalidConversion t target.value)
        else .ok target.value
      finish node found (.conversion · inner target)
  | .construct node record arguments => do
    let ty := Ty.base record.value
    match (← known).layouts.get? record.value with
    | none =>
      let found ← raise (reject record.span (.unknownType ty))
      finish node found (.construct · record arguments)
    | some layout =>
      match ← raise (checkArguments node.span ty layout arguments) with
      | none => finish node none (.construct · record arguments)
      | some () =>
        let pending := pendingArguments scope layout.members 0 arguments
        let (arguments, outcome) ←
          runArguments (pending.mergeSort fun a b => a.position ≤ b.position)
        finish node (outcome.map fun () => ty) (.construct · record arguments)

/-- Accessors of a value of the given type; `name` is that of the reference. -/
def inferAlong (scope : ScopePath) (name : String) (running : Ty) :
    List Accessor → Marking (List Accessor × Option Ty)
  | [] => return ([], some running)
  | .call node arguments :: rest =>
    match running with
    | .function result parameters variadic _ => do
      match ← raise (checkCount node.span name parameters.length arguments.length variadic) with
      | none => return (.call node arguments :: rest, none)
      | some () =>
        let (arguments, outcome) ← inferPassed scope parameters 1 arguments
        match outcome with
        | none => return (.call node arguments :: rest, none)
        | some () => advance node result (.call · arguments) (inferAlong scope name result rest)
    | _ => do
      let found ← raise (reject node.span (.cantAccess running "call"))
      return (.call node arguments :: rest, found)
  | .index node position :: rest =>
    match running with
    | .array element _ => do
      let (position, outcome) ←
        checked (inferType scope Ty.int position) fun t => expectTy position.span Ty.int (.ok t)
      match outcome with
      | none => return (.index node position :: rest, none)
      | some () => advance node element (.index · position) (inferAlong scope name element rest)
    | _ => do
      let found ← raise (reject node.span (.cantAccess running "index"))
      return (.index node position :: rest, found)
  | .dereference node :: rest =>
    match running with
    | .pointer target => advance node target .dereference (inferAlong scope name target rest)
    | _ => do
      let found ← raise (reject node.span (.cantAccess running "dereference"))
      return (.dereference node :: rest, found)
  | .member node member :: rest => do
    match memberType (← known) running member.value with
    | some t => advance node t (.member · member) (inferAlong scope name t rest)
    | none =>
      let found ← raise
        (reject node.span (.cantAccess running ("access member `" ++ member.value ++ "` of")))
      return (.member node member :: rest, found)

/-- Arguments of a call from the given position on. Those without a parameter may be of any
type. -/
def inferPassed (scope : ScopePath) (parameters : List Ty) (position : Nat) :
    List Expr → Marking (List Expr × Option Unit)
  | [] => return ([], some ())
  | argument :: rest =>
    let first := checked (inferType scope (parameters.headD .invalid) argument)
      (checkPassed argument.span position parameters)
    andThen first rest (inferPassed scope parameters.tail (position + 1) rest)

/-- Array elements after the first one, which gives their type. -/
def inferRest (scope : ScopePath) (expected : Ty) :
    List Expr → Marking (List Expr × Option Unit)
  | [] => return ([], some ())
  | element :: rest =>
    let first := checked (inferType scope expected element) fun actual =>
      if actual.agrees expected then .ok ()
      else reject element.span (.typeMismatchMany expected actual)
    andThen first rest (inferRest scope expected rest)

/-- The arguments of a record expression, each with the walk against its member. -/
def pendingArguments (scope : ScopePath) (members : List LayoutMember) (position : Nat) :
    List Argument → List PendingArgument
  | [] => []
  | .mk name value :: rest =>
    let expected := ((memberFor members position name).map LayoutMember.ty).getD .invalid
    { argument := .mk name value
      position := memberPosition members position name
      run := do
        let (value, outcome) ← checked (inferType scope expected value) fun t =>
          expectTy value.span expected (.ok t)
        return (.mk name value, outcome) }
      :: pendingArguments scope members (position + 1) rest
end

/-! ### What runs leave -/

namespace Marking

variable {α β : Type} {env : Env}

/-- From every state with these declarations the run gives the value. It adds the problems to the
diagnostics and changes nothing else. -/
def Ends (env : Env) (m : Marking α) (a : α) (ds : List Diagnostic) : Prop :=
  ∀ k : Knowledge, k.env = env → m k = some (a, { k with diagnostics := k.diagnostics ++ ds })

theorem ends_pure (a : α) : Ends env (pure a) a [] := by
  intro k _
  rw [List.append_nil]
  rfl

theorem Ends.bind {m : Marking α} {f : α → Marking β} {a : α} {b : β} {ds es : List Diagnostic}
    (hm : Ends env m a ds) (hf : Ends env (f a) b es) : Ends env (m >>= f) b (ds ++ es) := by
  intro k hk
  have hbind : (m >>= f) k = (m k).bind fun r => f r.1 r.2 := rfl
  rw [hbind, hm k hk, Option.bind_some, ← List.append_assoc]
  exact hf _ hk

theorem Ends.then {m : Marking α} {f : α → Marking β} {a : α} {b : β} {ds : List Diagnostic}
    (hm : Ends env m a []) (hf : Ends env (f a) b ds) : Ends env (m >>= f) b ds :=
  hm.bind hf

theorem Ends.last {m : Marking α} {f : α → Marking β} {a : α} {b : β} {ds : List Diagnostic}
    (hm : Ends env m a ds) (hf : Ends env (f a) b []) : Ends env (m >>= f) b ds := by
  simpa using hm.bind hf

theorem ends_known : Ends env known env [] := by
  rintro k rfl
  rw [List.append_nil]
  rfl

theorem ends_raise (outcome : Except Diagnostic α) :
    Ends env (raise outcome) outcome.toOption (problemsOf outcome) := by
  intro k _
  cases outcome with
  | ok a =>
    rw [problemsOf, List.append_nil]
    rfl
  | error d => rfl

theorem ends_raise_ok {outcome : Except Diagnostic α} {a : α} (h : outcome = .ok a) :
    Ends env (raise outcome) (some a) [] := by
  rw [h]
  exact ends_raise (.ok a)

theorem ends_raise_error {outcome : Except Diagnostic α} {d : Diagnostic} (h : outcome = .error d) :
    Ends env (raise outcome) none [d] := by
  rw [h]
  exact ends_raise (.error d)

theorem ends_setOnce {slot : Option Ty} (h : slot = none) (t : Ty) :
    Ends env (setOnce slot t) (some t) [] := by
  rw [h]
  exact ends_pure _

theorem ends_mark {node : Node} (h : node.ty = none) (t : Ty) :
    Ends env (mark node t) { node with ty := some t } [] :=
  (ends_setOnce h t).then (ends_pure _)

theorem ends_finish {node : Node} (h : node.ty = none) (found : Option Ty) (build : Node → Expr) :
    Ends env (finish node found build)
      (build { node with ty := some (found.getD .invalid) }, found.getD .invalid) [] :=
  (ends_mark h _).then (ends_pure _)

theorem ends_advance {node : Node} (h : node.ty = none) {t : Ty} {build : Node → Accessor}
    {others : Marking (List Accessor × Option Ty)} {rest : List Accessor} {found : Option Ty}
    {ds : List Diagnostic} (hothers : Ends env others (rest, found) ds) :
    Ends env (advance node t build others) (build { node with ty := some t } :: rest, found) ds :=
  (ends_mark h t).then (hothers.last (ends_pure _))

theorem ends_result {node : Node} (h : node.ty = none) (result : Result) (build : Node → Expr) :
    Ends env (finish node result.toOption build)
      (build { node with ty := some (recorded result) }, recorded result) [] := by
  cases result <;> exact ends_finish h _ build

theorem ends_outcome {node : Node} (h : node.ty = none) (outcome : Except Diagnostic Unit) (t : Ty)
    (build : Node → Expr) :
    Ends env (finish node (outcome.toOption.map fun () => t) build)
      (build { node with ty := some (recorded (outcome.map fun () => t)) },
        recorded (outcome.map fun () => t)) [] := by
  cases outcome <;> exact ends_finish h _ build

/-- The run of an expression does what was inferred for it, and a type is valid. -/
structure EndsTyped (env : Env) (run : Marking (Expr × Ty)) (e : Expr) (result : Result) :
    Prop where
  ends : Ends env run (e, recorded result) (problemsOf result)
  valid : ∀ t, result = .ok t → t.isValid

theorem EndsTyped.checked {run : Marking (Expr × Ty)} {e : Expr} {result : Result}
    (h : EndsTyped env run e result) (check : Ty → Except Diagnostic α) :
    Ends env (checked run check) (e, (result.bind check).toOption)
      (problemsOf (result.bind check)) := by
  cases result with
  | error d =>
    refine h.ends.last ?_
    exact ends_pure _
  | ok t =>
    refine h.ends.then ?_
    dsimp only [recorded]
    rw [if_pos (h.valid t rfl)]
    exact (ends_raise (check t)).last (ends_pure _)

theorem ends_andThen {first : Marking (α × Option Unit)} {rest others' : List α} {a : α}
    {others : Marking (List α × Option Unit)} {outcome outcome' : Except Diagnostic Unit}
    (hfirst : Ends env first (a, outcome.toOption) (problemsOf outcome))
    (hothers : Ends env others (others', outcome'.toOption) (problemsOf outcome'))
    {result : List α × Except Diagnostic Unit}
    (hstop : ∀ d, outcome = .error d → result = (a :: rest, .error d))
    (hgo : outcome = .ok () → result = (a :: others', outcome')) :
    Ends env (andThen first rest others) (result.1, result.2.toOption) (problemsOf result.2) := by
  cases outcome with
  | error d =>
    rw [hstop d rfl]
    exact hfirst.last (ends_pure _)
  | ok _ =>
    rw [hgo rfl]
    exact hfirst.then (hothers.last (ends_pure _))

theorem EndsTyped.of_raise {node : Node} (h : node.ty = none) {result : Result}
    (hvalid : ∀ t, result = .ok t → t.isValid) (build : Node → Expr) :
    EndsTyped env (do finish node (← raise result) build)
      (build { node with ty := some (recorded result) }) result :=
  ⟨(ends_raise result).last (ends_result h result build), hvalid⟩

theorem EndsTyped.of_reject {node : Node} (h : node.ty = none) (span : Span) (problem : Problem)
    (build : Node → Expr) :
    EndsTyped env (do finish node (← raise (reject span problem)) build)
      (build { node with ty := some .invalid }) (reject span problem) :=
  .of_raise h (fun _ ht => by cases ht) build

theorem EndsTyped.of_found {node : Node} (h : node.ty = none) {run : Marking (α × Option Ty)}
    {a : α} {result : Result} (hrun : Ends env run (a, result.toOption) (problemsOf result))
    (hvalid : ∀ t, result = .ok t → t.isValid) (build : α → Node → Expr) :
    EndsTyped env (do
        let (a, found) ← run
        finish node found (build a))
      (build a { node with ty := some (recorded result) }) result :=
  ⟨hrun.last (ends_result h result (build a)), hvalid⟩

theorem EndsTyped.of_outcome {node : Node} (h : node.ty = none) {run : Marking (α × Option Unit)}
    {a : α} {outcome : Except Diagnostic Unit}
    (hrun : Ends env run (a, outcome.toOption) (problemsOf outcome)) {t : Ty} (hvalid : t.isValid)
    (build : α → Node → Expr) :
    EndsTyped env (do
        let (a, outcome) ← run
        finish node (outcome.map fun () => t) (build a))
      (build a { node with ty := some (recorded (outcome.map fun () => t)) })
      (outcome.map fun () => t) := by
  refine ⟨?_, fun u hu => ?_⟩
  · rw [problemsOf_map]
    exact hrun.last (ends_outcome h outcome t (build a))
  · cases outcome <;> cases hu
    exact hvalid

theorem EndsTyped.of_type {node : Node} (h : node.ty = none) {t : Ty} (hvalid : t.isValid)
    (build : Node → Expr) :
    EndsTyped env (finish node (some t) build) (build { node with ty := some t }) (.ok t) :=
  ⟨ends_finish h _ build, fun _ ht => by cases ht; exact hvalid⟩

end Marking

/-! ### Agreement with inference -/

/-- Symbols and members have types with something under all modifiers. -/
structure Env.Named (env : Env) : Prop where
  symbols : ∀ x ∈ env.symbols.symbols, x.ty.IsNamed
  members : ∀ name l, env.layouts.get? name = some l → ∀ m ∈ l.members, m.ty.IsNamed

variable {env : Env} {scope : ScopePath}

theorem Env.Named.memberType (h : env.Named) {t u : Ty} {member : String}
    (hu : memberType env t member = some u) : u.IsNamed := by
  obtain ⟨name, l, m, -, hl, hm, rfl⟩ := memberType_some hu
  exact h.members name l hl m (List.mem_of_find?_eq_some hm)

/-- The walk along accessors does what was inferred for them, and ends at a type with something
under all modifiers. -/
structure EndsNamed (env : Env) (run : Marking (List Accessor × Option Ty))
    (accessors : List Accessor) (result : Result) : Prop where
  ends : Ends env run (accessors, result.toOption) (problemsOf result)
  named : ∀ t, result = .ok t → t.IsNamed

theorem EndsNamed.of_reject (span : Span) (problem : Problem) (accessors : List Accessor) :
    EndsNamed env (do return (accessors, ← raise (reject span problem))) accessors
      (reject span problem) :=
  ⟨(ends_raise _).last (ends_pure _), fun _ ht => by cases ht⟩

theorem EndsNamed.advance {node : Node} (hnode : node.ty = none) {t : Ty}
    {build : Node → Accessor} {others : Marking (List Accessor × Option Ty)}
    {rest : List Accessor} {result : Result} (h : EndsNamed env others rest result) :
    EndsNamed env (advance node t build others) (build { node with ty := some t } :: rest)
      result :=
  ⟨ends_advance hnode h.ends, h.named⟩

/-- The same of a reference. -/
structure EndsPlace (env : Env) (run : Marking (Head × List Accessor × Option Ty))
    (inferred : Head × List Accessor × Result) : Prop where
  ends : Ends env run (inferred.1, inferred.2.1, inferred.2.2.toOption) (problemsOf inferred.2.2)
  named : ∀ t, inferred.2.2 = .ok t → t.IsNamed

theorem followPlace_ends (henv : env.Named) (scope : ScopePath) {head : Head}
    (hhead : head.ty = none) (accessors : List Accessor)
    {run : Ty → Marking (List Accessor × Option Ty)}
    {along : Ty → List Accessor × Result}
    (halong : ∀ t, t.IsNamed → EndsNamed env (run t) (along t).1 (along t).2) :
    EndsPlace env (followPlace scope head accessors run)
      (placeAlong env scope head accessors along) := by
  unfold followPlace placeAlong bindHead
  cases hresolve : env.symbols.resolve scope head.name.value with
  | none =>
    refine ⟨ends_known.then ?_, nofun⟩
    rw [hresolve]
    exact (ends_setOnce hhead _).then ((ends_raise _).last (ends_pure _))
  | some symbol =>
    have hsymbol : symbol.ty.IsNamed :=
      henv.symbols symbol (SymbolTable.resolve_some hresolve).1
    dsimp only
    cases hcalled : checkCalled head symbol.ty accessors with
    | error d =>
      refine ⟨ends_known.then ?_, nofun⟩
      rw [hresolve]
      exact (ends_setOnce hhead _).then ((ends_raise_error hcalled).last (ends_pure _))
    | ok _ =>
      have hrest := halong symbol.ty hsymbol
      refine ⟨ends_known.then ?_, hrest.named⟩
      rw [hresolve]
      exact (ends_setOnce hhead _).then
        ((ends_raise_ok hcalled).then (hrest.ends.last (ends_pure _)))

/-- The walk of an argument does what was inferred for it. -/
structure PendingArgument.Runs (env : Env) (pending : PendingArgument) (c : CheckedArgument) :
    Prop where
  argument : pending.argument = c.before
  position : pending.position = c.position
  ends : Ends env pending.run (c.after, c.outcome.toOption) (problemsOf c.outcome)

theorem runArguments_ends {pending : List PendingArgument} {checked : List CheckedArgument}
    (h : List.Forall₂ (PendingArgument.Runs env) pending checked) :
    Ends env (runArguments pending)
      ((settleArguments checked).1, (settleArguments checked).2.toOption)
      (problemsOf (settleArguments checked).2) := by
  induction h with
  | nil => exact ends_pure _
  | @cons p c ps cs hp hrest ih =>
    have hbefore : ps.map PendingArgument.argument = cs.map CheckedArgument.before := by
      clear ih
      induction hrest with
      | nil => rfl
      | cons hq _ ih => rw [List.map_cons, List.map_cons, hq.argument, ih]
    rw [runArguments, hbefore]
    refine ends_andThen hp.ends ih (fun d hd => ?_) fun hok => ?_
    · simp only [settleArguments, hd]
    · simp only [settleArguments, hok]

theorem forall₂_mergeSort {pending : List PendingArgument} {checked : List CheckedArgument}
    (h : List.Forall₂ (PendingArgument.Runs env) pending checked) :
    List.Forall₂ (PendingArgument.Runs env)
      (pending.mergeSort fun a b => a.position ≤ b.position)
      (checked.mergeSort fun a b => a.position ≤ b.position) := by
  obtain ⟨hlength, hruns⟩ := List.forall₂_iff_zip.1 h
  let le (x y : PendingArgument × CheckedArgument) : Bool := x.1.position ≤ y.1.position
  have hfst : (pending.zip checked).map Prod.fst = pending := List.map_fst_zip
    (Nat.le_of_eq hlength)
  have hsnd : (pending.zip checked).map Prod.snd = checked := List.map_snd_zip
    (Nat.le_of_eq hlength.symm)
  have hleft : ((pending.zip checked).mergeSort le).map Prod.fst =
      pending.mergeSort fun a b => a.position ≤ b.position := by
    rw [List.map_mergeSort (s := fun a b => decide (a.position ≤ b.position)), hfst]
    exact fun _ _ _ _ => rfl
  have hright : ((pending.zip checked).mergeSort le).map Prod.snd =
      checked.mergeSort fun a b => a.position ≤ b.position := by
    rw [List.map_mergeSort (s := fun a b => decide (a.position ≤ b.position)), hsnd]
    intro x hx y hy
    rw [← (hruns hx).position, ← (hruns hy).position]
  rw [← hleft, ← hright, List.forall₂_map_left_iff, List.forall₂_map_right_iff, List.forall₂_same]
  exact fun x hx => hruns (List.mem_mergeSort.1 hx)

theorem literalType_isValid (literal : IntegerLiteral) (hint : Ty) :
    (literalType literal hint).isValid := by
  have h := literalType_isNumeric literal hint
  cases hlit : literalType literal hint with
  | invalid =>
    rw [hlit] at h
    cases h
  | _ => rfl

theorem checkTypeExists_isValid {ty : Located Ty} (h : checkTypeExists env ty = .ok ()) :
    ty.value.isValid := by
  unfold checkTypeExists at h
  cases ht : ty.value with
  | invalid =>
    rw [ht] at h
    cases h
  | _ => rfl

theorem bind_expectTy (span : Span) (expected : Ty) (result : Result) :
    (result.bind fun t => expectTy span expected (.ok t)) = expectTy span expected result := by
  cases result <;> rfl

theorem ok_of_bind {α : Type} {result : Result} {f : Ty → Except Diagnostic α} {a : α}
    (h : result.bind f = .ok a) : ∃ t, result = .ok t ∧ f t = .ok a := by
  cases result with
  | error d => cases h
  | ok t => exact ⟨t, rfl, h⟩

theorem inferCall_cons (argument : Expr) (rest : List Expr) (parameters : List Ty)
    (position : Nat) :
    inferCall env scope parameters position (argument :: rest) =
      match (infer env scope (parameters.headD .invalid) argument).2.bind
          (checkPassed argument.span position parameters) with
      | .error d => ((infer env scope (parameters.headD .invalid) argument).1 :: rest, .error d)
      | .ok () => ((infer env scope (parameters.headD .invalid) argument).1 ::
          (inferCall env scope parameters.tail (position + 1) rest).1,
          (inferCall env scope parameters.tail (position + 1) rest).2) := by
  rw [inferCall]
  cases parameters <;> rfl

mutual
theorem inferType_ends (henv : env.Named) : (e : Expr) → (hint : Ty) → e.Fresh →
    EndsTyped env (inferType scope hint e) (infer env scope hint e).1 (infer env scope hint e).2
  | .integer node literal, hint, h => by
    rw [inferType, infer]
    exact .of_type h (literalType_isValid literal hint) _
  | .float node bits, hint, h => by
    rw [inferType, infer]
    refine .of_type h ?_ _
    split
    · cases hint <;> first | rfl | contradiction
    · rfl
  | .boolean node value, hint, h => by
    rw [inferType, infer]
    exact .of_type h rfl _
  | .string node value, hint, h => by
    rw [inferType, infer]
    exact .of_type h rfl _
  | .null node, hint, h => by
    rw [inferType, infer]
    refine .of_raise h (fun t ht => ?_) _
    split at ht
    · cases ht
      cases hint <;> first | rfl | contradiction
    · cases ht
  | .variable node head accessors, hint, h => by
    rw [inferType, infer]
    have hplace := followPlace_ends henv scope h.2.1 accessors fun t ht =>
      inferAlong_ends henv accessors head.name.value ht h.2.2
    exact ⟨hplace.ends.last (ends_result h.1 _ _), fun t ht => (hplace.named t ht).isValid⟩
  | .parenthesized node inner, hint, h => by
    rw [inferType, infer]
    have hinner := inferType_ends henv inner hint h.2
    exact ⟨hinner.ends.last (ends_finish h.1 _ _), hinner.valid⟩
  | .array node [], hint, h => by
    rw [inferType, infer]
    refine .of_raise h.1 (fun t ht => ?_) _
    split at ht
    · cases ht
      cases hint <;> first | rfl | contradiction
    · split at ht
      · cases ht
        rfl
      · cases ht
  | .array node (first :: rest), hint, h => by
    rw [inferType, infer]
    generalize (if hint.isArray then hint.withoutModifier else .invalid) = elementHint
    have hfirst := inferType_ends henv first elementHint h.2.1
    dsimp only
    cases hr : (infer env scope elementHint first).2 with
    | error d =>
      rw [hr] at hfirst
      exact ⟨hfirst.ends.last (ends_finish h.1 none _), nofun⟩
    | ok t =>
      rw [hr] at hfirst
      have hrest := inferRest_ends henv rest t h.2.2
      have hdone := EndsTyped.of_outcome h.1 hrest (t := .array t (.fixed (rest.length + 1))) rfl
        fun others n => .array n ((infer env scope elementHint first).1 :: others)
      refine ⟨hfirst.ends.then ?_, hdone.valid⟩
      dsimp only [recorded]
      rw [if_pos (hfirst.valid t rfl)]
      exact hdone.ends
  | .allocation node size, hint, h => by
    rw [inferType.eq_def, infer.eq_def]
    cases hint with
    | array element length =>
      cases length with
      | dynamic =>
        have hsize := (inferType_ends henv size Ty.int h.2).checked
          fun t => expectTy size.span Ty.int (.ok t)
        rw [bind_expectTy] at hsize
        exact .of_outcome h.1 hsize (t := .array element .dynamic) rfl
          fun size n => .allocation n size
      | fixed length => exact .of_reject h.1 _ _ (.allocation · size)
    | _ => exact .of_reject h.1 _ _ (.allocation · size)
  | .addressOf node target head accessors, hint, h => by
    rw [inferType, infer]
    split
    · exact .of_reject h.1 _ _ (.addressOf · target head accessors)
    · have hplace := followPlace_ends henv scope h.2.1 accessors fun t ht =>
        inferAlong_ends henv accessors head.name.value ht h.2.2
      generalize placeAlong env scope head accessors (fun t =>
        inferAccessors env scope head.name.value t accessors) = place at hplace ⊢
      obtain ⟨head', accessors', result⟩ := place
      cases result with
      | error d =>
        exact ⟨hplace.ends.last (ends_finish h.1 (some .invalid)
          (.addressOf · target head' accessors')), fun _ ht => by cases ht⟩
      | ok t =>
        have hpointer : t.withModifier .pointer = .pointer t := by
          have hvalid := (hplace.named t rfl).isValid
          cases t <;> first | rfl | cases hvalid
        have hdone := @ends_finish env node h.1 (some (t.withModifier .pointer))
          (.addressOf · target head' accessors')
        rw [Option.getD_some] at hdone
        refine ⟨hplace.ends.then ?_, fun _ ht => by cases ht; rfl⟩
        rw [hpointer] at hdone
        dsimp only [Except.toOption, Option.getD_some]
        rw [hpointer]
        exact hdone
  | .unary node op operand, hint, h => by
    rw [inferType, infer]
    have hinner := inferType_ends henv operand hint h.2
    refine .of_found h.1 (hinner.checked _) (fun t ht => ?_) fun inner n => .unary n op inner
    obtain ⟨u, hu, hresult⟩ := ok_of_bind ht
    rw [(unaryResult_ok hresult).1]
    exact hinner.valid u hu
  | .binary node op lhs rhs, hint, h => by
    rw [inferType, infer]
    generalize (if hint.isPlain "bool" then .invalid else hint) = leftHint
    have hleft := inferType_ends henv lhs leftHint h.2.1
    dsimp only
    cases hr : (infer env scope leftHint lhs).2 with
    | error d =>
      rw [hr] at hleft
      exact ⟨hleft.ends.last (ends_finish h.1 none _), nofun⟩
    | ok t =>
      rw [hr] at hleft
      have hright := inferType_ends henv rhs t h.2.2
      have hdone := EndsTyped.of_found h.1 (hright.checked (binaryResult op rhs.span t))
        (fun u hu => ?_) fun right n => .binary n op (infer env scope leftHint lhs).1 right
      · refine ⟨hleft.ends.then ?_, hdone.valid⟩
        dsimp only [recorded]
        rw [if_pos (hleft.valid t rfl)]
        exact hdone.ends
      · obtain ⟨v, -, hresult⟩ := ok_of_bind hu
        rw [(binaryResult_ok hresult).2.2, binaryType]
        split
        · rfl
        · exact hleft.valid t rfl
  | .conversion node inner target, hint, h => by
    rw [inferType, infer]
    cases htarget : checkTypeExists env target with
    | error d =>
      exact ⟨ends_known.then ((ends_raise_error htarget).last (ends_finish h.1 none _)), nofun⟩
    | ok _ =>
      have hinner := inferType_ends henv inner .invalid h.2
      have hdone := EndsTyped.of_found h.1 (hinner.checked fun t =>
          if !t.agrees target.value && !isValidConversion t target.value then
            reject node.span (.invalidConversion t target.value)
          else .ok target.value)
        (fun u hu => ?_) fun inner n => .conversion n inner target
      · exact ⟨ends_known.then ((ends_raise_ok htarget).then hdone.ends), hdone.valid⟩
      · obtain ⟨t, -, hresult⟩ := ok_of_bind hu
        split at hresult
        · cases hresult
        · cases hresult
          exact checkTypeExists_isValid htarget
  | .construct node record arguments, hint, h => by
    rw [inferType, infer]
    dsimp only
    cases hlayout : env.layouts.get? record.value with
    | none =>
      refine ⟨ends_known.then ?_, nofun⟩
      rw [hlayout]
      exact (ends_raise _).last (ends_finish h.1 none _)
    | some layout =>
      dsimp only
      cases hcheck : checkArguments node.span (.base record.value) layout arguments with
      | error d =>
        refine ⟨ends_known.then ?_, nofun⟩
        rw [hlayout]
        exact (ends_raise_error hcheck).last
          (ends_finish h.1 none (.construct · record arguments))
      | ok _ =>
        have hpending := pendingArguments_runs henv arguments layout.members 0 h.2
        have hdone := EndsTyped.of_outcome h.1 (runArguments_ends (forall₂_mergeSort hpending))
          (t := .base record.value) rfl fun arguments n => .construct n record arguments
        refine ⟨ends_known.then ?_, hdone.valid⟩
        rw [hlayout]
        exact (ends_raise_ok hcheck).then hdone.ends

theorem inferAlong_ends (henv : env.Named) : (accessors : List Accessor) →
    (name : String) → ∀ {running : Ty}, running.IsNamed → Accessor.AllFresh accessors →
      EndsNamed env (inferAlong scope name running accessors)
        (inferAccessors env scope name running accessors).1
        (inferAccessors env scope name running accessors).2
  | [], name, running, hrunning, h => by
    rw [inferAlong, inferAccessors]
    refine ⟨ends_pure _, fun t ht => ?_⟩
    cases ht
    exact hrunning
  | .call node arguments :: rest, name, running, hrunning, h => by
    rw [inferAlong.eq_def, inferAccessors.eq_def]
    cases running with
    | function result parameters variadic foreign =>
      dsimp only
      cases hcount : checkCount node.span name parameters.length arguments.length variadic with
      | error d => exact ⟨(ends_raise_error rfl).last (ends_pure (_, none)), nofun⟩
      | ok _ =>
        have harguments := inferPassed_ends henv arguments parameters 1 h.1.2
        dsimp only
        cases ho : (inferCall env scope parameters 1 arguments).2 with
        | error d =>
          rw [ho] at harguments
          exact ⟨(ends_raise_ok rfl).then (harguments.last (ends_pure (_, none))), nofun⟩
        | ok _ =>
          rw [ho] at harguments
          have hresult : result.IsNamed := hrunning
          have hrest := inferAlong_ends henv rest name hresult h.2
          exact ⟨(ends_raise_ok rfl).then (harguments.then (hrest.advance h.1.1).ends),
            hrest.named⟩
    | _ => exact .of_reject _ _ _
  | .index node position :: rest, name, running, hrunning, h => by
    rw [inferAlong.eq_def, inferAccessors.eq_def]
    cases running with
    | array element length =>
      have hposition := (inferType_ends henv position Ty.int h.1.2).checked
        fun t => expectTy position.span Ty.int (.ok t)
      rw [bind_expectTy] at hposition
      dsimp only
      cases ho : expectTy position.span Ty.int (infer env scope Ty.int position).2 with
      | error d =>
        rw [ho] at hposition
        exact ⟨hposition.last (ends_pure (_, none)), nofun⟩
      | ok _ =>
        rw [ho] at hposition
        have helement : element.IsNamed := hrunning
        have hrest := inferAlong_ends henv rest name helement h.2
        exact ⟨hposition.then (hrest.advance h.1.1).ends, hrest.named⟩
    | _ => exact .of_reject _ _ _
  | .dereference node :: rest, name, running, hrunning, h => by
    rw [inferAlong.eq_def, inferAccessors.eq_def]
    cases running with
    | pointer target =>
      have htarget : target.IsNamed := hrunning
      exact (inferAlong_ends henv rest name htarget h.2).advance h.1
    | _ => exact .of_reject _ _ _
  | .member node member :: rest, name, running, hrunning, h => by
    rw [inferAlong, inferAccessors]
    cases hmember : memberType env running member.value with
    | none =>
      refine ⟨ends_known.then ?_, fun _ ht => by cases ht⟩
      rw [hmember]
      exact (ends_raise _).last (ends_pure _)
    | some t =>
      have hrest := inferAlong_ends henv rest name (henv.memberType hmember) h.2
      refine ⟨ends_known.then ?_, hrest.named⟩
      rw [hmember]
      exact (hrest.advance h.1).ends

theorem inferPassed_ends (henv : env.Named) : (arguments : List Expr) →
    (parameters : List Ty) → (position : Nat) → Expr.AllFresh arguments →
      Ends env (inferPassed scope parameters position arguments)
        ((inferCall env scope parameters position arguments).1,
          (inferCall env scope parameters position arguments).2.toOption)
        (problemsOf (inferCall env scope parameters position arguments).2)
  | [], parameters, position, h => by
    rw [inferPassed, inferCall]
    exact ends_pure _
  | argument :: rest, parameters, position, h => by
    rw [inferPassed, inferCall_cons]
    have hargument := inferType_ends henv argument (parameters.headD .invalid) h.1
    refine ends_andThen (hargument.checked _) (inferPassed_ends henv rest _ _ h.2) (fun d hd => ?_)
      fun hok => ?_
    · rw [hd]
    · rw [hok]

theorem inferRest_ends (henv : env.Named) : (elements : List Expr) → (expected : Ty) →
    Expr.AllFresh elements →
      Ends env (inferRest scope expected elements)
        ((inferElements env scope expected elements).1,
          (inferElements env scope expected elements).2.toOption)
        (problemsOf (inferElements env scope expected elements).2)
  | [], expected, h => by
    rw [inferRest, inferElements]
    exact ends_pure _
  | element :: rest, expected, h => by
    rw [inferRest, inferElements]
    have helement := inferType_ends henv element expected h.1
    refine ends_andThen (helement.checked _) (inferRest_ends henv rest _ h.2) (fun d hd => ?_)
      fun hok => ?_
    · dsimp only
      rw [hd]
    · dsimp only
      rw [hok]

theorem pendingArguments_runs (henv : env.Named) : (arguments : List Argument) →
    (members : List LayoutMember) → (position : Nat) → Argument.AllFresh arguments →
      List.Forall₂ (PendingArgument.Runs env) (pendingArguments scope members position arguments)
        (inferArguments env scope members position arguments)
  | [], members, position, h => by
    rw [pendingArguments, inferArguments]
    exact .nil
  | .mk name value :: rest, members, position, h => by
    rw [pendingArguments, inferArguments]
    refine .cons ⟨rfl, rfl, ?_⟩ (pendingArguments_runs henv rest _ _ h.2)
    dsimp only
    generalize ((memberFor members position name).map LayoutMember.ty).getD .invalid = expected
    have hvalue := (inferType_ends henv value expected h.1).checked
      fun t => expectTy value.span expected (.ok t)
    rw [bind_expectTy] at hvalue
    exact hvalue.last (ends_pure _)
end

end Typing

end RegionCompiler
