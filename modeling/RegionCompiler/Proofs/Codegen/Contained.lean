import RegionCompiler.Proofs.Codegen.AssembledProgram

/-! A program that is generated has code for every part of it: for all statements, all expressions
in them and all calls, each of which has a plan that can be counted. So the code of a part can be
generated on its own as well, from any supply. -/
namespace RegionCompiler.Codegen

open Machine Machine.Instr Typing

section Statements

variable {env : Env} {exit : Label} {loop : Option Loop} {st : Stmt} {depth : Nat} {s : Supply}

/-- Code that is generated for a statement of a function with this exit. -/
def Generates (env : Env) (exit : Label) (depth : Nat) (st : Stmt) (part : Code) : Prop :=
  ∃ loop, ∃ s s' : Supply, stmtCode env exit depth loop st s = .ok (part, s')

theorem stmtsCode_mem {statements : List Stmt} (hst : st ∈ statements) (s : Supply) :
    Yields (stmtsCode env exit depth loop statements) s fun code _ =>
      ∃ part, ∃ s₁ s₂ : Supply, stmtCode env exit depth loop st s₁ = .ok (part, s₂) ∧
        part <:+: code := by
  induction statements generalizing s with
  | nil => cases hst
  | cons first rest ih =>
    rw [stmtsCode]
    refine .bind fun code s₁ hfirst => .bind fun others s₂ hothers => .pure ?_
    rcases List.mem_cons.1 hst with rfl | hst
    · exact ⟨code, s, s₁, hfirst, [], others, rfl⟩
    · obtain ⟨part, s₃, s₄, hpart, hinfix⟩ := ih hst s₁ others s₂ hothers
      exact ⟨part, s₃, s₄, hpart, hinfix.trans (List.suffix_append code others).isInfix⟩

theorem blockCode_statements (b : Block) (s : Supply) :
    Yields (blockCode env exit depth loop b) s fun code _ =>
      ∃ part, ∃ s₁ s₂ : Supply,
        stmtsCode env exit (depth + b.frames) loop b.statements s₁ = .ok (part, s₂) ∧
        part <:+: code := by
  obtain ⟨span, manual, statements⟩ := b
  cases manual with
  | true =>
    rw [blockCode]
    exact fun code s' hrun => ⟨code, s, s', hrun, List.infix_refl code⟩
  | false =>
    rw [blockCode]
    exact .bind fun body s' hbody => .pure ⟨body, s, s', hbody, _, _, rfl⟩

theorem stmtCode_block {inLoop inside : Bool} {b : Block} (hb : (b, inside) ∈ st.blocks inLoop)
    (s : Supply) :
    Yields (stmtCode env exit depth loop st) s fun code _ =>
      ∃ part loop', ∃ s₁ s₂ : Supply, blockCode env exit depth loop' b s₁ = .ok (part, s₂) ∧
        part <:+: code := by
  cases st with
  | let_ | mut_ | call | collect | return_ | break_ | continue_ => cases hb
  | if_ span condition yes =>
    cases List.mem_singleton.1 hb
    rw [stmtCode]
    refine .bind fun otherwise s₁ _ => .bind fun stop s₂ _ => .bind fun check s₃ _ =>
      .bind fun code s₄ hcode => .pure ⟨code, _, s₃, s₄, hcode, ?_⟩
    exact ⟨check ++ [jumpIf .equal otherwise], [jump stop, .label otherwise, .label stop], by simp⟩
  | ifElse span condition yes no =>
    rw [stmtCode]
    refine .bind fun otherwise s₁ _ => .bind fun stop s₂ _ => .bind fun check s₃ _ =>
      .bind fun code s₄ hcode => .bind fun code' s₅ hcode' => .pure ?_
    simp only [Stmt.blocks, List.mem_cons, Prod.mk.injEq, List.not_mem_nil, or_false] at hb
    rcases hb with ⟨rfl, -⟩ | ⟨rfl, -⟩
    · exact ⟨code, _, s₃, s₄, hcode, check ++ [jumpIf .equal otherwise],
        [jump stop, .label otherwise] ++ code' ++ [.label stop], by simp⟩
    · exact ⟨code', _, s₄, s₅, hcode', check ++ [jumpIf .equal otherwise] ++ code ++
        [jump stop, .label otherwise], [.label stop], by simp⟩
  | while_ span condition body =>
    cases List.mem_singleton.1 hb
    rw [stmtCode]
    refine .bind fun start s₁ _ => .bind fun stop s₂ _ => .bind fun check s₃ _ =>
      .bind fun code s₄ hcode => .pure ⟨code, _, s₃, s₄, hcode, ?_⟩
    exact ⟨[.label start] ++ check ++ [jumpIf .equal stop], [jump start, .label stop], by simp⟩
  | doWhile span body condition =>
    cases List.mem_singleton.1 hb
    rw [stmtCode]
    refine .bind fun start s₁ _ => .bind fun again s₂ _ => .bind fun stop s₃ _ =>
      .bind fun code s₄ hcode => .bind fun check s₅ _ => .pure ⟨code, _, s₃, s₄, hcode, ?_⟩
    exact ⟨[.label start], [.label again] ++ check ++ [jumpIf .notEqual start, .label stop],
      by simp⟩
  | for_ span iterator start stop body mangled =>
    cases List.mem_singleton.1 hb
    cases mangled with
    | none =>
      rw [stmtCode]
      intro code s' hrun
      cases hrun
    | some mangled =>
      rw [stmtCode]
      refine .lift fun home _ => .bind fun check s₁ _ => .bind fun step s₂ _ =>
        .bind fun done s₃ _ => .bind fun first s₄ _ => .bind fun last s₅ _ =>
        .bind fun code s₆ hcode => .pure ⟨code, _, s₅, s₆, hcode, ?_⟩
      exact ⟨first ++ popRax ++ [mov home Register.rax, .label check] ++ last ++
        boundCheck home done, [.label step, .unary .inc home, jump check, .label done], by simp⟩
  | block span body =>
    cases List.mem_singleton.1 hb
    rw [stmtCode]
    exact fun code s' hrun => ⟨code, _, s, s', hrun, List.infix_refl code⟩

/-- Whatever occurs among statements has its code in theirs. -/
theorem stmtsCode_occurs {inLoop l : Bool} {d : Nat} {statements : List Stmt}
    (hocc : st.Occurs depth inLoop statements d l) :
    ∀ (loop : Option Loop) (s : Supply), Yields (stmtsCode env exit d loop statements) s
      fun code _ => ∃ part, Generates env exit depth st part ∧ part <:+: code := by
  induction hocc with
  | here hst =>
    intro loop s code s' hrun
    obtain ⟨part, s₁, s₂, hpart, hinfix⟩ := stmtsCode_mem hst s code s' hrun
    exact ⟨part, ⟨loop, s₁, s₂, hpart⟩, hinfix⟩
  | inside hother hblock _ ih =>
    intro loop s code s' hrun
    obtain ⟨other, s₁, s₂, hother, hinfix⟩ := stmtsCode_mem hother s code s' hrun
    obtain ⟨block, loop', s₃, s₄, hblock, hinfix'⟩ := stmtCode_block hblock s₁ other s₂ hother
    obtain ⟨body, s₅, s₆, hbody, hinfix''⟩ := blockCode_statements _ s₃ block s₄ hblock
    obtain ⟨part, hpart, hlast⟩ := ih loop' s₅ body s₆ hbody
    exact ⟨part, hpart, hlast.trans (hinfix''.trans (hinfix'.trans hinfix))⟩

end Statements

section Functions

/-- The end of the code of a function. -/
def departure (r : Routine) (exit : Label) : Code :=
  [.label exit] ++ List.replicate (bodyDepth r.function) (.call Collector.exitSymbol)
    ++ Collector.epilogue

/-- Code that sets up the frame of a function. -/
def arrival (r : Routine) : Code :=
  .symbol (functionSymbol r.name) :: Collector.prologue ++ lower r.frame.locals

/-- Code of statements in the frame of the collector that a function opens. -/
def inner (r : Routine) (exit : Label) (body : Code) : Code :=
  List.replicate (bodyDepth r.function) (.call Collector.enterSymbol) ++ body ++ departure r exit

theorem functionCode_surrounds (env : Env) (s : Supply) :
    Yields (functionCode env) s fun code _ => ∃ exit body, ∃ s₁ s₂ : Supply,
      stmtsCode env exit (bodyDepth env.current.function) none
        env.current.function.body.statements s₁ = .ok (body, s₂) ∧
      arrival env.current ++ inner env.current exit body <:+: code := by
  unfold functionCode
  refine .bind fun exit s₁ _ => .bind fun body s₂ hbody => .pure ⟨exit, body, s₁, s₂, hbody, ?_⟩
  refine ⟨[.comment ("fn " ++ env.current.name ++ ": " ++ env.current.function.signature.display)],
    [], ?_⟩
  unfold arrival inner departure bodyDepth
  cases env.current.function.body.manual <;> simp

theorem routinesCode_mem {env : Routine → Env} {rs : List Routine} {r : Routine} (hr : r ∈ rs)
    (s : Supply) :
    Yields (routinesCode env rs) s fun code _ =>
      ∃ part, ∃ s₁ s₂ : Supply, functionCode (env r) s₁ = .ok (part, s₂) ∧ part <:+: code := by
  induction rs generalizing s with
  | nil => cases hr
  | cons first rest ih =>
    rw [routinesCode]
    refine .bind fun code s₁ hfirst => .bind fun others s₂ hothers => .pure ?_
    rcases List.mem_cons.1 hr with rfl | hr
    · exact ⟨code, s, s₁, hfirst, [], others, rfl⟩
    · obtain ⟨part, s₃, s₄, hpart, hinfix⟩ := ih hr s₁ others s₂ hothers
      exact ⟨part, s₃, s₄, hpart, hinfix.trans (List.suffix_append code others).isInfix⟩

end Functions

section Expressions

variable {env : Env} {D : Decls} {Q : Expr → Prop} {s : Supply}

def Made (env : Env) (e : Expr) : Prop := ∃ s r, exprCode env e s = .ok r

/-- If an expression is a call of a C function, its arguments take no more room than can be
counted. -/
def Env.Plans (env : Env) (e : Expr) : Prop :=
  ∀ f passed result, env.Sends (· = e) f passed result →
    env.platform.convention.plan? (passed.map Passed.argument) result ≠ .error .overflow

theorem Env.Exceeds.not_plans (h : env.Exceeds Q) : ∃ e, Q e ∧ ¬ env.Plans e := by
  obtain ⟨f, passed, result, ⟨_, _, _, _, _, _, _, _, _, hQ, hrest⟩, hover⟩ := h
  exact ⟨_, hQ, fun hplans => hplans f passed result ⟨_, _, _, _, _, _, _, _, _, rfl, hrest⟩ hover⟩

theorem Env.Exceeds.not_planned (h : env.Exceeds env.Plans) : False := by
  obtain ⟨e, hplans, hnot⟩ := h.not_plans
  exact hnot hplans

theorem Passes.unique {layouts : Registry} {fixed : Nat} {arguments : List Expr}
    {passed passed' : List Passed} (h : Passes layouts fixed arguments passed)
    (h' : Passes layouts fixed arguments passed') : passed = passed' := by
  induction h generalizing passed' with
  | nil =>
    cases h'
    rfl
  | cons hty hl _ ih =>
    cases h' with | cons hty' hl' hrest =>
    cases hty.symm.trans hty'
    cases hl.symm.trans hl'
    rw [ih hrest]

theorem resolved_eq_ok {ty : Option Ty} {t : Ty} : resolved ty = .ok t ↔ ty = some t := by
  cases ty <;> simp [resolved]

theorem accessorsCode_made (accessors : List Accessor) : ∀ (name : String) (base : Ty) (s : Supply),
    Yields (accessorsCode env name base accessors) s fun _ _ =>
      ∀ e ∈ accessors.flatMap Accessor.expressions, Made env e := by
  induction accessors with
  | nil => exact fun _ _ _ _ _ _ => by simp
  | cons a rest ih =>
    intro name base s
    cases a with
    | index node position =>
      rw [accessorsCode]
      refine .lift fun size _ => .bind fun index s₁ hindex => .lift fun t _ =>
        .seq (ih name t s₁) fun steps s₂ hrest => .pure ?_
      exact List.forall_mem_append.2 ⟨List.forall_mem_singleton.2 ⟨s, _, hindex⟩, hrest⟩
    | dereference node =>
      rw [accessorsCode]
      exact .lift fun t _ => .seq (ih name t s) fun steps s₁ hrest => .pure hrest
    | member node member =>
      rw [accessorsCode]
      refine .lift fun l _ => ?_
      split
      · exact .throw
      · exact .lift fun t _ => .seq (ih name t s) fun steps s₁ hrest => .pure hrest
    | call node arguments =>
      rw [accessorsCode]
      exact .throw

theorem argumentsCode_made {arguments : List Expr} : ∀ {parameters : List Ty},
    Takes D parameters false arguments → ∀ {vs : List StackVariable},
    vs.length = parameters.length → ∀ s : Supply,
    Yields (argumentsCode env vs arguments) s fun _ _ => ∀ e ∈ arguments, Made env e := by
  induction arguments with
  | nil => exact fun _ _ _ _ _ _ _ => by simp
  | cons argument rest ih =>
    intro parameters htakes vs hlength s
    cases htakes with | cons _ _ hrest =>
    cases vs with
    | nil => cases hlength
    | cons v vs =>
      rw [argumentsCode]
      exact .lift fun size _ => .bind fun value s₁ hvalue => .lift fun offset _ =>
        .seq (ih hrest (by simpa using hlength) s₁) fun stores s₂ hothers =>
          .pure (List.forall_mem_cons.2 ⟨⟨s, _, hvalue⟩, hothers⟩)

theorem foreignArgumentsCode_made (arguments : List Expr) : ∀ (fixed : Nat) (s : Supply),
    Yields (foreignArgumentsCode env fixed arguments) s fun r _ =>
      Passes env.layouts fixed arguments r.2 ∧ ∀ e ∈ arguments, Made env e := by
  induction arguments with
  | nil =>
    intro fixed s
    rw [foreignArgumentsCode]
    exact .pure ⟨.nil, by simp⟩
  | cons argument rest ih =>
    intro fixed s
    rw [foreignArgumentsCode]
    exact .lift fun t ht => .bind fun value s₁ hvalue => .lift fun l hl =>
      .seq (ih (fixed - 1) s₁) fun r s₂ hr => .pure
        ⟨.cons (resolved_eq_ok.1 ht) (Env.layouts_layoutOf hl) hr.1,
          List.forall_mem_cons.2 ⟨⟨s, _, hvalue⟩, hr.2⟩⟩

theorem elementsCode_made (elements : List Expr) (size : Nat) : ∀ (index : Nat) (s : Supply),
    Yields (elementsCode env size index elements) s fun _ _ => ∀ e ∈ elements, Made env e := by
  induction elements with
  | nil => exact fun _ _ _ _ _ => by simp
  | cons element rest ih =>
    intro index s
    rw [elementsCode]
    exact .bind fun value s₁ hvalue => .seq (ih (index + 1) s₁) fun stores s₂ hothers =>
      .pure (List.forall_mem_cons.2 ⟨⟨s, _, hvalue⟩, hothers⟩)

theorem membersCode_made {arguments : List Argument} : ∀ {members : List LayoutMember},
    Initializes D members arguments → ∀ s : Supply,
    Yields (membersCode env members arguments) s fun _ _ =>
      ∀ e ∈ arguments.map Argument.value, Made env e := by
  induction arguments with
  | nil => exact fun _ _ _ _ _ => by simp
  | cons argument rest ih =>
    intro members hinit s
    cases hinit with | cons _ _ hrest =>
    rw [membersCode]
    exact .lift fun size _ => .bind fun code s₁ hcode => .seq (ih hrest s₁) fun stores s₂ hothers =>
      .pure (List.forall_mem_cons.2 ⟨⟨s, _, hcode⟩, hothers⟩)

theorem Env.plans_of_not_call {e : Expr}
    (h : ∀ node head call arguments rest, e ≠ .variable node head (.call call arguments :: rest)) :
    env.Plans e := by
  rintro f passed result ⟨_, _, _, _, _, _, _, _, _, heq, -⟩
  exact absurd heq.symm (h _ _ _ _ _)

theorem callWith_made (hE : env.Fits D) {binding : Binding} {result : Ty} {parameters : List Ty}
    {variadic foreign : Bool}
    (hdecl : D.declares binding (.function result parameters variadic foreign))
    {arguments : List Expr} (htakes : Takes D parameters variadic arguments) (node : Node)
    (name : Located String) (ty : Option Ty) (span : Span) (rest : List Accessor) (s : Supply) :
    Yields (callWith env binding result (fun vs => argumentsCode env vs arguments)
        fun fixed => foreignArgumentsCode env fixed arguments) s fun _ _ =>
      env.Plans (.variable node ⟨name, ty, some binding⟩
        (.call ⟨span, some result⟩ arguments :: rest)) ∧ ∀ e ∈ arguments, Made env e := by
  obtain ⟨mangled, kind⟩ := binding
  unfold callWith
  cases kind with
  | function =>
    obtain ⟨callee, _, _, hcallee, heq, hfits⟩ := hE.functions hdecl
    cases heq
    refine .known hcallee (.seq (argumentsCode_made htakes hfits.parameters.length_eq s)
      fun stored s₁ hmade => .pure ⟨?_, hmade⟩)
    rintro f passed shape ⟨_, _, _, _, _, _, _, _, _, heq, -⟩
    cases heq
  | foreignFunction =>
    refine .lift fun callee hcallee => .lift fun l hl =>
      .seq (foreignArgumentsCode_made arguments _ s) fun r s₁ ⟨hpasses, hmade⟩ => ?_
    dsimp only
    split
    · exact .throw
    · exact .throw
    · rename_i plan hplan
      refine .pure ⟨?_, hmade⟩
      rintro f passed shape ⟨_, _, _, _, _, _, _, _, _, heq, hf, hpassed, hlayout, rfl⟩
      cases heq
      cases hf.symm.trans hcallee
      cases hlayout.symm.trans hl
      rw [hpassed.unique hpasses, hplan]
      exact nofun
  | parameter | local_ | iterator | embed => exact .throw

theorem placeWith_made (hE : env.Fits D) {head : Head} {accessors : List Accessor} {t : Ty}
    (h : Refers D head accessors t) (node : Node) (s : Supply) :
    Yields (placeWith env head (fun t => accessorsCode env head.name.value t accessors)
        fun binding => calledCode env head.name.value binding accessors) s fun _ _ =>
      env.Plans (.variable node head accessors) ∧
        ∀ e ∈ accessors.flatMap Accessor.expressions, Made env e := by
  cases h with
  | @value name base binding _ _ hdecl hbase hleads =>
    have hplans : env.Plans (.variable node ⟨name, some base, some binding⟩ accessors) := by
      refine Env.plans_of_not_call fun _ _ call arguments rest heq => ?_
      cases heq
      exact Leads.call_notMem hleads _ _ List.mem_cons_self
    obtain ⟨mangled, kind⟩ := binding
    refine .known rfl (.known rfl ?_)
    cases kind with
    | parameter | local_ | iterator =>
      exact .lift fun address _ => .seq (accessorsCode_made accessors _ _ s) fun steps s₁ hmade =>
        .pure ⟨hplans, hmade⟩
    | embed =>
      exact .seq (accessorsCode_made accessors _ _ s) fun steps s₁ hmade => .pure ⟨hplans, hmade⟩
    | function =>
      obtain ⟨_, _, _, -, rfl, -⟩ := hE.functions hdecl
      cases hbase
    | foreignFunction =>
      obtain ⟨_, _, _, _, -, rfl, -⟩ := hE.foreign hdecl
      cases hbase
  | call hdecl htakes hleads =>
    rw [placeWith_called hE hdecl]
    simp only [calledCode]
    exact .known rfl (.seq (callWith_made hE hdecl htakes _ _ _ _ _ s) fun call s₁ hcall =>
      .lift fun size _ => .seq (accessorsCode_made _ _ _ s₁) fun steps s₂ hsteps =>
      .pure ⟨hcall.1, List.forall_mem_append.2 ⟨hcall.2, hsteps⟩⟩)

theorem exprCode_made (hE : env.Fits D) {e : Expr} {t : Ty} (h : HasType D e t) (s : Supply) :
    Yields (exprCode env e) s fun _ _ => env.Plans e ∧ ∀ child ∈ e.children, Made env child := by
  cases h with
  | @reference span head accessors _ h =>
    by_cases hcall : ∃ node arguments, accessors = [.call node arguments]
    · obtain ⟨node, arguments, rfl⟩ := hcall
      cases h with
      | value _ _ hleads => exact absurd List.mem_cons_self (Leads.call_notMem hleads _ _)
      | call hdecl htakes _ =>
        rw [exprCode]
        refine .known rfl (.known rfl (.known rfl ((callWith_made hE hdecl htakes _ _ _ _ _ s).mono
          fun _ _ hmade => ⟨hmade.1, ?_⟩)))
        simpa [Expr.children, Accessor.expressions] using hmade.2
    · rw [exprCode_reference fun node arguments heq => hcall ⟨node, arguments, heq⟩]
      exact .known rfl (.lift fun _ _ => .lift fun _ _ => .seq (placeWith_made hE h _ s)
        fun place s₁ hmade => .pure hmade)
  | integer _ | float _ | boolean | string | null _ _ | emptyArray _ =>
    exact fun _ _ _ => ⟨Env.plans_of_not_call (by simp), by simp [Expr.children]⟩
  | parenthesized h =>
    rw [exprCode]
    exact .known rfl fun code s₁ hrun =>
      ⟨Env.plans_of_not_call (by simp), List.forall_mem_singleton.2 ⟨s, _, hrun⟩⟩
  | array h hrest =>
    rw [exprCode]
    exact .known rfl (.lift fun _ _ => .seq (elementsCode_made _ _ _ s) fun stores s₁ hmade =>
      .pure ⟨Env.plans_of_not_call (by simp), hmade⟩)
  | addressOf h hnone =>
    rw [exprCode]
    refine .known rfl (.seq (placeWith_made hE h ⟨Span.origin, none⟩ s) fun place s₁ hmade => ?_)
    dsimp only
    split
    · exact .pure ⟨Env.plans_of_not_call (by simp), hmade.2⟩
    · exact .throw
  | @construct _ record arguments l hl hinit =>
    have hlayout : env.layoutOf (.base record.value) = .ok l := by
      simp [Env.layoutOf, Registry.layoutOf, hE.layouts, hl]
    rw [exprCode]
    exact .known rfl (.known hlayout (.seq (membersCode_made hinit s) fun stores s₁ hmade =>
      .pure ⟨Env.plans_of_not_call (by simp), hmade⟩))
  | allocation h _ =>
    rw [exprCode]
    exact .known rfl (.lift fun _ _ => .bind fun count s₁ hcount =>
      .pure ⟨Env.plans_of_not_call (by simp), List.forall_mem_singleton.2 ⟨s, _, hcount⟩⟩)
  | unary h _ =>
    rw [exprCode]
    exact .known rfl (.lift fun _ _ => .bind fun value s₁ hvalue =>
      .pure ⟨Env.plans_of_not_call (by simp), List.forall_mem_singleton.2 ⟨s, _, hvalue⟩⟩)
  | conversion h _ _ =>
    rw [exprCode]
    exact .known rfl (.bind fun value s₁ hvalue => .lift fun _ _ => .lift fun _ _ =>
      .pure ⟨Env.plans_of_not_call (by simp), List.forall_mem_singleton.2 ⟨s, _, hvalue⟩⟩)
  | @binary _ _ lhs rhs _ _ hl hr _ _ =>
    rw [exprCode]
    refine .known rfl (.lift fun _ _ => .lift fun _ _ => .bind fun left s₁ hleft =>
      .bind fun right s₂ hright => ?_)
    have hmade : ∀ child ∈ [lhs, rhs], Made env child :=
      List.forall_mem_cons.2 ⟨⟨s, _, hleft⟩, List.forall_mem_singleton.2 ⟨s₁, _, hright⟩⟩
    split
    · exact .bind fun _ _ _ => .pure ⟨Env.plans_of_not_call (by simp), hmade⟩
    · exact .lift fun _ _ => .lift fun _ _ => .bind fun _ _ _ =>
        .pure ⟨Env.plans_of_not_call (by simp), hmade⟩

theorem plans_of_made (hE : env.Fits D) {e other : Expr} (hocc : e.Occurs other) {t : Ty}
    (h : HasType D other t) (hmade : Made env other) : env.Plans e := by
  induction hocc generalizing t with
  | here =>
    obtain ⟨s, r, hrun⟩ := hmade
    exact (exprCode_made hE h s r.1 r.2 hrun).1
  | inside hchild _ ih =>
    obtain ⟨s, r, hrun⟩ := hmade
    obtain ⟨u, hu⟩ := h.children _ hchild
    exact ih hu ((exprCode_made hE h s r.1 r.2 hrun).2 _ hchild)

end Expressions

section Statements

variable {env : Env} {D : Decls} {result : Ty} {s : Supply} {exit : Label} {depth : Nat}
  {loop : Option Loop}

theorem stmtCode_plans (hE : env.Fits D) {st : Stmt} {inLoop : Bool} (h : StmtOk D result inLoop st)
    (s : Supply) : Yields (stmtCode env exit depth loop st) s fun _ _ =>
      ∀ part ∈ st.parts, ∀ e, Expr.Occurs e part → env.Plans e := by
  have hplans : ∀ {value : Expr} {t : Ty} {s s' : Supply} {code : Code}, HasType D value t →
      exprCode env value s = .ok (code, s') → ∀ e, Expr.Occurs e value → env.Plans e :=
    fun ht hrun e hocc => plans_of_made hE hocc ht ⟨_, _, hrun⟩
  have hcheck : ∀ {condition : Expr} (s : Supply), HasType D condition Ty.bool →
      Yields (conditionCode env condition) s fun _ _ =>
        ∀ e, Expr.Occurs e condition → env.Plans e :=
    fun s ht => .bind fun code s' hrun => .pure (hplans ht hrun)
  cases h with
  | let_ hty hvalue hagrees hdecl =>
    rw [stmtCode]
    refine .lift fun _ _ => .lift fun _ _ => .bind fun code s₁ hrun => .pure ?_
    exact List.forall_mem_singleton.2 (hplans hvalue hrun)
  | @mut_ _ span target value t u htarget hcall hvalue hagrees =>
    rw [stmtCode]
    refine .lift fun _ _ => .lift fun _ _ => .seq (placeWith_made hE htarget ⟨target.span, none⟩ s)
      fun place s₁ hmade => .bind fun code s₂ hrun => .pure ?_
    refine List.forall_mem_cons.2 ⟨fun e hocc => ?_, List.forall_mem_singleton.2
      (hplans hvalue hrun)⟩
    cases hocc with
    | here => exact hmade.1
    | inside hchild hocc =>
      obtain ⟨v, hv⟩ := htarget.expressions _ hchild
      exact plans_of_made hE hocc hv (hmade.2 _ hchild)
  | call _ hvalue =>
    rw [stmtCode]
    refine .lift fun _ _ => .lift fun _ _ => .bind fun code s₁ hrun => .pure ?_
    exact List.forall_mem_singleton.2 (hplans hvalue hrun)
  | collect hvalue _ =>
    rw [stmtCode]
    exact .bind fun code s₁ hrun => .pure (List.forall_mem_singleton.2 (hplans hvalue hrun))
  | return_ _ hvalue _ =>
    rw [stmtCode]
    refine .seq (P := fun _ _ => ∀ e, Expr.Occurs e _ → env.Plans e) ?_ fun stored s₁ hmade =>
      .lift fun _ _ => .pure (List.forall_mem_singleton.2 hmade)
    exact .lift fun _ _ => .lift fun _ _ => .bind fun code s₁ hrun => .pure (hplans hvalue hrun)
  | returnNothing | break_ | continue_ | block _ =>
    exact fun _ _ _ => by simp [Stmt.parts, Stmt.expressions]
  | if_ hcondition _ =>
    rw [stmtCode]
    exact .freshLabel (.freshLabel (.seq (hcheck _ hcondition) fun check s₁ hmade =>
      .bind fun _ _ _ => .pure (List.forall_mem_singleton.2 hmade)))
  | ifElse hcondition _ _ =>
    rw [stmtCode]
    exact .freshLabel (.freshLabel (.seq (hcheck _ hcondition) fun check s₁ hmade =>
      .bind fun _ _ _ => .bind fun _ _ _ => .pure (List.forall_mem_singleton.2 hmade)))
  | while_ hcondition _ =>
    rw [stmtCode]
    exact .freshLabel (.freshLabel (.seq (hcheck _ hcondition) fun check s₁ hmade =>
      .bind fun _ _ _ => .pure (List.forall_mem_singleton.2 hmade)))
  | doWhile _ hcondition =>
    rw [stmtCode]
    exact .freshLabel (.freshLabel (.freshLabel (.bind fun _ s₁ _ => .seq (hcheck s₁ hcondition)
      fun check s₂ hmade => .pure (List.forall_mem_singleton.2 hmade))))
  | for_ hstart hstop _ _ =>
    rw [stmtCode]
    exact .lift fun _ _ => .freshLabel (.freshLabel (.freshLabel (.bind fun start s₁ hrun =>
      .bind fun stop s₂ hrun' => .bind fun _ _ _ => .pure (List.forall_mem_cons.2
        ⟨hplans hstart hrun, List.forall_mem_singleton.2 (hplans hstop hrun')⟩))))

end Statements

end RegionCompiler.Codegen

namespace RegionCompiler

open Machine Codegen Typing

variable {isFile : String → Bool} {platform : Platform} {path text : String} {layouts : Registry}
  {p : Program} {out : Codegen.Output} {r : Routine}

theorem Accepted.surrounds (h : Accepted isFile platform path text layouts p out)
    (hr : r ∈ out.routines) : ∃ exit body, ∃ s₁ s₂ : Supply,
      stmtsCode (envOf platform layouts p out.routines r) exit (bodyDepth r.function) none
        r.function.body.statements s₁ = .ok (body, s₂) ∧
      arrival r ++ inner r exit body <:+: out.assembly.code := by
  obtain ⟨files, arrays, all, s', -, -, hall, hout⟩ := generate_eq h.generated
  have hinfix : all <:+: out.assembly.code := by
    rw [hout]
    exact (List.suffix_append _ _).isInfix
  obtain ⟨code, s₁, s₂, hcode, hinfix'⟩ := routinesCode_mem hr _ all s' hall
  obtain ⟨exit, body, s₃, s₄, hbody, hinfix''⟩ := functionCode_surrounds _ s₁ code s₂ hcode
  exact ⟨exit, body, s₃, s₄, hbody, hinfix''.trans (hinfix'.trans hinfix)⟩

/-- Every statement of a function has its code in the program, and so has the end of the
function. -/
theorem Accepted.departs (h : Accepted isFile platform path text layouts p out)
    (hr : r ∈ out.routines) : ∃ exit, departure r exit <:+: out.assembly.code ∧
      ∀ st depth inLoop,
        Stmt.Occurs st depth inLoop r.function.body.statements (bodyDepth r.function) false →
        ∃ part, Generates (envOf platform layouts p out.routines r) exit depth st part ∧
          part <:+: out.assembly.code := by
  obtain ⟨exit, body, s₁, s₂, hbody, hinfix⟩ := h.surrounds hr
  have hinner : inner r exit body <:+: out.assembly.code :=
    (List.suffix_append _ _).isInfix.trans hinfix
  refine ⟨exit, (List.suffix_append _ _).isInfix.trans hinner, fun st depth inLoop hocc => ?_⟩
  obtain ⟨part, hpart, hinfix'⟩ := stmtsCode_occurs hocc none s₁ body s₂ hbody
  have hbody : body <:+: inner r exit body := ⟨_, departure r exit, rfl⟩
  exact ⟨part, hpart, hinfix'.trans (hbody.trans hinner)⟩

/-- A statement refers to something by a head and accessors, with code for it. -/
inductive Stmt.Refers (head : Head) (accessors : List Accessor) :
    Stmt → (Codegen.Env → Gen Code) → Prop
  | value {st other node} : other ∈ st.expressions →
      Expr.Occurs (.variable node head accessors) other →
      Refers head accessors st fun env => exprCode env (.variable node head accessors)
  | address {st other node target} : other ∈ st.expressions →
      Expr.Occurs (.addressOf node target head accessors) other →
      Refers head accessors st fun env => exprCode env (.addressOf node target head accessors)
  | target {span target value} : target.value = ⟨head, accessors⟩ →
      Refers head accessors (.mut_ span target value)
        fun env => Prod.fst <$> placeCode env ⟨head, accessors⟩

section Accepted

theorem Accepted.source (h : Accepted isFile platform path text layouts p out) {r : Routine}
    (hr : r ∈ out.routines) : ∃ f ∈ p.functions, Routine.Frames layouts f r ∧
      (envOf platform layouts p out.routines r).Fits (declsOf layouts p f.stack) ∧
      StmtsOk (declsOf layouts p f.stack) f.result.value false r.function.body.statements := by
  obtain ⟨f, hf, hfr⟩ := exists_of_forall₂ h.generates.frames.flip hr
  refine ⟨f, hf, hfr, env_fits h.programOk h.generates.frames hf hfr platform, ?_⟩
  rw [hfr.function]
  exact (h.programOk.functions f hf).body.statements

theorem Accepted.plans (h : Accepted isFile platform path text layouts p out)
    (hr : r ∈ out.routines) : Throughout (envOf platform layouts p out.routines r).Plans
      r.function.body.statements (bodyDepth r.function) false := by
  obtain ⟨f, -, -, hE, hbody⟩ := h.source hr
  obtain ⟨exit, -, hparts⟩ := h.departs hr
  intro st depth inLoop hocc
  obtain ⟨code, ⟨loop, s, s', hrun⟩, -⟩ := hparts st depth inLoop hocc
  exact stmtCode_plans hE (StmtsOk.occurs hocc hbody).1 s code s' hrun

variable {st : Stmt} {depth : Nat} {inLoop : Bool}

/-- So the code of each of its statements can be generated from any supply, -/
theorem Accepted.stmtCode_counts (h : Accepted isFile platform path text layouts p out)
    (hr : r ∈ out.routines)
    (hocc : st.Occurs depth inLoop r.function.body.statements (bodyDepth r.function) false)
    (exit : Label) (loop : Option Loop) (s : Supply) :
    stmtCode (envOf platform layouts p out.routines r) exit depth loop st s ≠ .error .overflow := by
  obtain ⟨f, -, hfr, hE, hbody⟩ := h.source hr
  have hleaves : Leaves (fun _ => True) exit loop := ⟨trivial, fun _ _ => ⟨trivial, trivial⟩⟩
  exact fun hover => ((stmtCode_makes hE (result_of_frames hfr) st (StmtsOk.occurs hocc hbody).1
    ((h.plans hr).occurs hocc) hleaves s).overflows hover).not_planned

theorem Accepted.exprCode_counts (h : Accepted isFile platform path text layouts p out)
    (hr : r ∈ out.routines)
    (hocc : st.Occurs depth inLoop r.function.body.statements (bodyDepth r.function) false)
    {e other : Expr} (hother : other ∈ st.expressions) (he : e.Occurs other) (s : Supply) :
    exprCode (envOf platform layouts p out.routines r) e s ≠ .error .overflow := by
  obtain ⟨f, -, hfr, hE, hbody⟩ := h.source hr
  obtain ⟨u, hu⟩ := (StmtsOk.occurs hocc hbody).1.expressions other hother
  obtain ⟨t, ht⟩ := HasType.occurs he hu
  obtain ⟨part, hpart, hinside⟩ := st.occurs_of_mem_expressions hother
  have hmakes : Forms _ (exprCode (envOf platform layouts p out.routines r) e) s fun code s' =>
      Makes _ _ _ (fun _ => False) e.literals s code s' :=
    exprCode_makes hE e ht (fun x hx =>
      h.plans hr st depth inLoop hocc part hpart x ((hx.trans he).trans hinside)) s
  exact fun hover => (hmakes.overflows hover).not_planned

theorem Accepted.refers_counts (h : Accepted isFile platform path text layouts p out)
    (hr : r ∈ out.routines)
    (hocc : st.Occurs depth inLoop r.function.body.statements (bodyDepth r.function) false)
    {head : Head} {accessors : List Accessor} {g : Codegen.Env → Gen Code}
    (hrefers : st.Refers head accessors g) (s : Supply) :
    g (envOf platform layouts p out.routines r) s ≠ .error .overflow := by
  cases hrefers with
  | value hother he => exact h.exprCode_counts hr hocc hother he s
  | address hother he => exact h.exprCode_counts hr hocc hother he s
  | @target span target value heq =>
    obtain ⟨f, -, hfr, hE, hbody⟩ := h.source hr
    cases (StmtsOk.occurs hocc hbody).1 with | mut_ htarget _ _ _ =>
    have hplans := h.plans hr _ depth inLoop hocc (.variable ⟨target.span, none⟩ _ _)
      List.mem_cons_self
    rw [heq] at htarget hplans
    have hmakes : Forms _ (placeCode (envOf platform layouts p out.routines r) ⟨head, accessors⟩) s
        fun place s' => Makes _ _ _ (fun _ => False) _ s place.1 s' ∧ _ :=
      placeCode_makes hE htarget hplans s
    have hfirst : Forms _ (Prod.fst <$> placeCode (envOf platform layouts p out.routines r)
        ⟨head, accessors⟩) s fun _ _ => True := .seq hmakes fun place s₁ _ => .pure trivial
    exact fun hover => (hfirst.overflows hover).not_planned

end Accepted

end RegionCompiler
