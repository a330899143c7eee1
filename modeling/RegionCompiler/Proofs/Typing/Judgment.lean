import RegionCompiler.Proofs.Layout.Known
import RegionCompiler.Typing.Check

/-! The rules of typing, said of programs in which every node carries its type and every name its
declaration. They do not mention what type was expected where. -/
namespace RegionCompiler.Typing

/-- What the code of a function can refer to. -/
structure Decls where
  layouts : Registry
  declares : Binding → Ty → Prop

/-- Declared types have layouts; functions are declared under the type of a call. -/
structure Decls.Sound (D : Decls) : Prop where
  builtin : Registry.initial.Le D.layouts
  value : ∀ {b t}, D.declares b t → t.isFunction = false → t.Known D.layouts
  result : ∀ {b t ps v f}, D.declares b (.function t ps v f) → t.Known D.layouts
  parameters : ∀ {b t ps v f}, D.declares b (.function t ps v f) → ∀ p ∈ ps, p.Known D.layouts
  members : ∀ {name l}, D.layouts.get? name = some l → ∀ m ∈ l.members, m.ty.Known D.layouts

def UnaryDefined : UnaryOp → Ty → Prop
  | .not_, t => t.isPlain "int" ∨ t.isPlain "bool"
  | .negate, t => t.isNumeric
  | .release, t => t.isPointer ∨ t.isArray

/-- Comparisons and connectives give truth values, whatever they are applied to. -/
def binaryType (op : BinaryOp) (t : Ty) : Ty :=
  if op.isLogical || op.isComparison then Ty.bool else t

mutual
/-- The expression is annotated throughout and has the type. -/
inductive HasType (D : Decls) : Expr → Ty → Prop
  | integer {span literal t} : t.isNumeric → HasType D (.integer ⟨span, some t⟩ literal) t
  | float {span bits t} : t.isFloating → HasType D (.float ⟨span, some t⟩ bits) t
  | boolean {span value} : HasType D (.boolean ⟨span, some Ty.bool⟩ value) Ty.bool
  | string {span value} : HasType D (.string ⟨span, some Ty.bytes⟩ value) Ty.bytes
  | null {span t} : t.isPointer ∨ t.isArray → t.Known D.layouts →
      HasType D (.null ⟨span, some t⟩) t
  | reference {span head accessors t} : Refers D head accessors t →
      HasType D (.variable ⟨span, some t⟩ head accessors) t
  | parenthesized {span inner t} : HasType D inner t →
      HasType D (.parenthesized ⟨span, some t⟩ inner) t
  | emptyArray {span t n} : t.Known D.layouts →
      HasType D (.array ⟨span, some (.array t n)⟩ []) (.array t n)
  | array {span first rest t} : HasType D first t → Elements D t rest →
      HasType D (.array ⟨span, some (.array t (.fixed (rest.length + 1)))⟩ (first :: rest))
        (.array t (.fixed (rest.length + 1)))
  | allocation {span size t} : HasType D size Ty.int → t.Known D.layouts →
      HasType D (.allocation ⟨span, some (.array t .dynamic)⟩ size) (.array t .dynamic)
  | addressOf {span target head accessors t} : Refers D head accessors t →
      Place.containsCall accessors = false →
      HasType D (.addressOf ⟨span, some (.pointer t)⟩ target head accessors) (.pointer t)
  | unary {span op operand t} : HasType D operand t → UnaryDefined op.value t →
      HasType D (.unary ⟨span, some t⟩ op operand) t
  | binary {span op lhs rhs t u} : HasType D lhs t → HasType D rhs u → t.agrees u →
      operatorDefined op.value t →
      HasType D (.binary ⟨span, some (binaryType op.value t)⟩ op lhs rhs) (binaryType op.value t)
  | conversion {span inner target t} : HasType D inner t →
      t.agrees target.value ∨ isValidConversion t target.value → target.value.Known D.layouts →
      HasType D (.conversion ⟨span, some target.value⟩ inner target) target.value
  | construct {span record arguments l} : D.layouts.get? record.value = some l →
      Initializes D l.members arguments →
      HasType D (.construct ⟨span, some (.base record.value)⟩ record arguments)
        (.base record.value)

/-- A reference leads to a value of the type. A function is called at once. -/
inductive Refers (D : Decls) : Head → List Accessor → Ty → Prop
  | value {name base binding accessors t} : D.declares binding base → base.isFunction = false →
      Leads D base accessors t → Refers D ⟨name, some base, some binding⟩ accessors t
  | call {name result parameters variadic foreign binding span arguments rest t} :
      D.declares binding (.function result parameters variadic foreign) →
      Takes D parameters variadic arguments → Leads D result rest t →
      Refers D ⟨name, some (.function result parameters variadic foreign), some binding⟩
        (.call ⟨span, some result⟩ arguments :: rest) t

/-- Accessors lead from a value of the first type to one of the last. -/
inductive Leads (D : Decls) : Ty → List Accessor → Ty → Prop
  | nil {t} : Leads D t [] t
  | index {element length span position rest t} : HasType D position Ty.int →
      Leads D element rest t →
      Leads D (.array element length) (.index ⟨span, some element⟩ position :: rest) t
  | dereference {target span rest t} : Leads D target rest t →
      Leads D (.pointer target) (.dereference ⟨span, some target⟩ :: rest) t
  | member {record l m span name rest t} : D.layouts.get? record = some l →
      l.member? name.value = some m → Leads D m.ty rest t →
      Leads D (.base record) (.member ⟨span, some m.ty⟩ name :: rest) t

/-- The arguments fit the parameters; only a variadic function takes more. -/
inductive Takes (D : Decls) : List Ty → Bool → List Expr → Prop
  | nil {variadic} : Takes D [] variadic []
  | more {e t rest} : HasType D e t → Takes D [] true rest → Takes D [] true (e :: rest)
  | cons {parameter parameters variadic e t rest} : HasType D e t → t.agrees parameter →
      Takes D parameters variadic rest →
      Takes D (parameter :: parameters) variadic (e :: rest)

inductive Elements (D : Decls) : Ty → List Expr → Prop
  | nil {t} : Elements D t []
  | cons {t e u rest} : HasType D e u → u.agrees t → Elements D t rest →
      Elements D t (e :: rest)

/-- The arguments stand in the order of the members. -/
inductive Initializes (D : Decls) : List LayoutMember → List Argument → Prop
  | nil : Initializes D [] []
  | cons {m members name e t rest} : HasType D e t → t.agrees m.ty →
      Initializes D members rest → Initializes D (m :: members) (.mk name e :: rest)
end

theorem HasType.ty_eq {D : Decls} {e : Expr} {t : Ty} (h : HasType D e t) : e.ty = some t := by
  cases h <;> rfl

theorem Takes.uncons {D : Decls} {parameters : List Ty} {variadic : Bool} {e : Expr}
    {rest : List Expr} (h : Takes D parameters variadic (e :: rest)) :
    ∃ t parameters', HasType D e t ∧ Takes D parameters' variadic rest := by
  cases h with
  | more h hrest => exact ⟨_, _, h, hrest⟩
  | cons h _ hrest => exact ⟨_, _, h, hrest⟩

mutual
/-- Statements of a function with the given result, inside a loop or not. -/
inductive StmtOk (D : Decls) (result : Ty) : Bool → Stmt → Prop
  | let_ {inLoop span allocate ty name value mangled t} : ty.value.Known D.layouts →
      HasType D value t → t.agrees ty.value →
      D.declares ⟨mangled, .local_⟩
        (if allocate then ty.value.withModifier .pointer else ty.value) →
      StmtOk D result inLoop (.let_ span allocate ty name value (some mangled))
  | mut_ {inLoop span target value t u} : Refers D target.value.head target.value.accessors t →
      Place.endsInCall target.value.accessors = false → HasType D value u → u.agrees t →
      StmtOk D result inLoop (.mut_ span target value)
  | call {inLoop span value t} : value.isCall → HasType D value t →
      StmtOk D result inLoop (.call span value)
  | collect {inLoop span value t} : HasType D value t → t.isPointer ∨ t.isArray →
      StmtOk D result inLoop (.collect span value)
  | returnNothing {inLoop span} : result.isVoid →
      StmtOk D result inLoop (.return_ span none)
  | return_ {inLoop span value t} : result.isVoid = false → HasType D value t →
      t.agrees result → StmtOk D result inLoop (.return_ span (some value))
  | break_ {span} : StmtOk D result true (.break_ span)
  | continue_ {span} : StmtOk D result true (.continue_ span)
  | if_ {inLoop span condition yes} : HasType D condition Ty.bool →
      BlockOk D result inLoop yes → StmtOk D result inLoop (.if_ span condition yes)
  | ifElse {inLoop span condition yes no} : HasType D condition Ty.bool →
      BlockOk D result inLoop yes → BlockOk D result inLoop no →
      StmtOk D result inLoop (.ifElse span condition yes no)
  | while_ {inLoop span condition body} : HasType D condition Ty.bool →
      BlockOk D result true body → StmtOk D result inLoop (.while_ span condition body)
  | doWhile {inLoop span condition body} : BlockOk D result true body →
      HasType D condition Ty.bool → StmtOk D result inLoop (.doWhile span body condition)
  | for_ {inLoop span iterator start stop body mangled} : HasType D start Ty.int →
      HasType D stop Ty.int → D.declares ⟨mangled, .iterator⟩ Ty.int →
      BlockOk D result true body →
      StmtOk D result inLoop (.for_ span iterator start stop body (some mangled))
  | block {inLoop span body} : BlockOk D result inLoop body →
      StmtOk D result inLoop (.block span body)

inductive StmtsOk (D : Decls) (result : Ty) : Bool → List Stmt → Prop
  | nil {inLoop} : StmtsOk D result inLoop []
  | cons {inLoop s rest} : StmtOk D result inLoop s → StmtsOk D result inLoop rest →
      StmtsOk D result inLoop (s :: rest)

inductive BlockOk (D : Decls) (result : Ty) : Bool → Block → Prop
  | mk {inLoop span manual statements} : StmtsOk D result inLoop statements →
      BlockOk D result inLoop (.mk span manual statements)
end

/-- What a function refers to in its program: its own variables, all functions and all embedded
files. -/
def declsOf (layouts : Registry) (p : Program) (stack : StackVariables) : Decls where
  layouts := layouts
  declares b t :=
    match b.kind with
    | .parameter | .local_ | .iterator =>
      ∃ v ∈ stack.parameters ++ stack.locals, v.mangled = b.mangled ∧ v.ty = t
    | .function => ∃ g ∈ p.functions, g.name.value = b.mangled ∧ g.signature = t
    | .foreignFunction => ∃ g ∈ p.foreign, g.name.value = b.mangled ∧ g.signature = t
    | .embed => (∃ e ∈ p.embeds, e.name.value = b.mangled) ∧ t = Ty.bytes

/-- A checked function of a program. -/
structure FunctionOk (layouts : Registry) (p : Program) (f : Function) : Prop where
  name : IsName f.name.value
  parameters : f.stack.parameters.map (·.ty) = f.parameters.map (·.ty.value)
  known : ∀ v ∈ f.stack.parameters ++ f.stack.locals, v.ty.Known layouts
  result : f.result.value.Known layouts
  distinct : ((f.stack.parameters ++ f.stack.locals).map (·.mangled)).Nodup
  body : BlockOk (declsOf layouts p f.stack) f.result.value false f.body

structure ForeignOk (layouts : Registry) (f : ForeignFunction) : Prop where
  link : IsName f.linkName
  parameters : ∀ q ∈ f.parameters, ∀ t, q.ty? = some t → t.Known layouts
  result : f.result.value.Known layouts

/-- A checked program, under the layouts of its records. -/
structure ProgramOk (layouts : Registry) (p : Program) : Prop where
  builtin : Registry.initial.Le layouts
  members : ∀ {name l}, layouts.get? name = some l → ∀ m ∈ l.members, m.ty.Known layouts
  classes : ∀ {name l}, layouts.get? name = some l → l.classes.length ≤ 2
  functions : ∀ f ∈ p.functions, FunctionOk layouts p f
  distinct : (p.functions.map (·.name.value)).Nodup
  foreign : ∀ f ∈ p.foreign, ForeignOk layouts f
  distinctForeign : (p.foreign.map (·.name.value)).Nodup
  embeds : ∀ e ∈ p.embeds, e.resolved.isSome
  main : ∃ f ∈ p.functions, f.name.value = "main" ∧ f.parameters = [] ∧
    (f.result.value.isVoid ∨ f.result.value.isInteger)

end RegionCompiler.Typing
