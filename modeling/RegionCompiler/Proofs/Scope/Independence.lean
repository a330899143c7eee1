import RegionCompiler.Proofs.Scope.Resolution
import RegionCompiler.Proofs.Typing.Located

/-! The bodies of functions are checked independently. All of them share one growing table, but the
names that one function can look up or clash with are global or start with its own name; tables that
answer alike for these cannot be told apart by its body. -/
namespace RegionCompiler

/-- What a reference takes over from the symbol that it means. -/
def Symbol.meaning (s : Symbol) : Ty × Binding := (s.ty, ⟨s.mangled, s.kind⟩)

/-- Two tables answer alike for one function. Globals may have been declared at other places. -/
structure SymbolTable.Alike (function : String) (t u : SymbolTable) : Prop where
  globals : ∀ x, IsName x → (t.get? x).map Symbol.meaning = (u.get? x).map Symbol.meaning
  own : ∀ m, Owned function m → t.get? m = u.get? m

namespace SymbolTable.Alike

variable {f : String} {t u : SymbolTable}

theorem resolve_eq (h : Alike f t u) {scope : ScopePath} (hscope : scope.function = f) {x : String}
    (hx : IsName x) :
    (t.resolve scope x).map Symbol.meaning = (u.resolve scope x).map Symbol.meaning := by
  have hown : ∀ m ∈ scope.candidates x, t.get? m = u.get? m := fun m hm =>
    h.own m (hscope ▸ owned_candidates hm)
  unfold SymbolTable.resolve
  generalize scope.candidates x = candidates at hown
  induction candidates with
  | nil => simpa using h.globals x hx
  | cons m rest ih =>
    obtain ⟨hm, hrest⟩ := List.forall_mem_cons.1 hown
    rw [List.cons_append, List.findSome?_cons, List.findSome?_cons, hm]
    cases u.get? m with
    | none => exact ih hrest
    | some s => rfl

theorem declare (h : Alike f t u) {s : Symbol} (hs : Owned f s.mangled) :
    Alike f ⟨t.symbols ++ [s]⟩ ⟨u.symbols ++ [s]⟩ := by
  constructor
  · intro x hx
    have hne : ∀ y ∈ [s], y.mangled ≠ x := by
      intro y hy heq
      rw [List.mem_singleton.1 hy] at heq
      exact hx (heq ▸ hs.dollar_mem)
    rw [get?_append_of_ne rfl hne, get?_append_of_ne rfl hne]
    exact h.globals x hx
  · intro m hm
    rw [get?_append (t := t) rfl, get?_append (t := u) rfl, h.own m hm]

end SymbolTable.Alike

/-- The spans of a program without those of the body of a function. -/
def Program.spansBeside (p : Program) (f : Function) : List Span :=
  p.declarationSpans ++
    (p.functions.filter (·.name.value != f.name.value)).flatMap (·.body.spans)

namespace Typing

/-- Environments that give a scope the same answers. -/
structure Env.Agrees (scope : ScopePath) (env env' : Env) : Prop where
  layouts : env'.layouts = env.layouts
  types : env'.types = env.types
  binds : ∀ head : Head, IsName head.name.value →
    bindHead env' scope head = bindHead env scope head

section Inference

variable {env env' : Env} {scope : ScopePath}

theorem placeAlong_congr (h : env.Agrees scope env') {head : Head} (hhead : IsName head.name.value)
    {accessors : List Accessor} {along along' : Ty → List Accessor × Result}
    (halong : ∀ t, along' t = along t) :
    placeAlong env' scope head accessors along' = placeAlong env scope head accessors along := by
  rw [placeAlong, placeAlong, h.binds head hhead, funext halong]

theorem checkTypeExists_congr (h : env.Agrees scope env') (ty : Located Ty) :
    checkTypeExists env' ty = checkTypeExists env ty := by
  rw [checkTypeExists, checkTypeExists, h.types]

mutual
theorem infer_congr (h : env.Agrees scope env') (hint : Ty) :
    (e : Expr) → e.Tidy → infer env' scope hint e = infer env scope hint e
  | .integer _ _, _ | .float _ _, _ | .boolean _ _, _ | .string _ _, _ | .null _, _ => by
    simp only [infer]
  | .variable _ head accessors, htidy => by
    rw [infer, infer, placeAlong_congr h htidy.1.name fun t =>
      inferAccessors_congr h head.name.value t accessors htidy.2]
  | .parenthesized _ inner, htidy => by
    rw [infer, infer, infer_congr h hint inner htidy]
  | .array _ [], _ => by simp only [infer]
  | .array _ (first :: rest), htidy => by
    simp only [infer, infer_congr h _ first htidy.1, inferElements_congr h _ rest htidy.2]
  | .allocation _ size, htidy => by
    simp only [infer, infer_congr h _ size htidy]
  | .addressOf _ _ head accessors, htidy => by
    rw [infer, infer, placeAlong_congr h htidy.1.name fun t =>
      inferAccessors_congr h head.name.value t accessors htidy.2]
  | .unary _ _ operand, htidy => by
    rw [infer, infer, infer_congr h hint operand htidy]
  | .binary _ _ lhs rhs, htidy => by
    simp only [infer, infer_congr h _ lhs htidy.1, infer_congr h _ rhs htidy.2]
  | .conversion _ inner target, htidy => by
    simp only [infer, checkTypeExists_congr h target, infer_congr h _ inner htidy.1]
  | .construct _ _ arguments, htidy => by
    simp only [infer, h.layouts, inferArguments_congr h _ _ arguments htidy]

theorem inferAccessors_congr (h : env.Agrees scope env') (name : String) (running : Ty) :
    (accessors : List Accessor) → Accessor.AllTidy accessors →
      inferAccessors env' scope name running accessors =
        inferAccessors env scope name running accessors
  | [], _ => by simp only [inferAccessors]
  | .call _ arguments :: rest, htidy => by
    simp only [inferAccessors, inferCall_congr h _ _ arguments htidy.1,
      inferAccessors_congr h name _ rest htidy.2]
  | .index _ position :: rest, htidy => by
    simp only [inferAccessors, infer_congr h _ position htidy.1,
      inferAccessors_congr h name _ rest htidy.2]
  | .dereference _ :: rest, htidy => by
    simp only [inferAccessors, inferAccessors_congr h name _ rest htidy.2]
  | .member _ _ :: rest, htidy => by
    simp only [inferAccessors, memberType, h.layouts, inferAccessors_congr h name _ rest htidy.2]

theorem inferCall_congr (h : env.Agrees scope env') (parameters : List Ty) (position : Nat) :
    (arguments : List Expr) → Expr.AllTidy arguments →
      inferCall env' scope parameters position arguments =
        inferCall env scope parameters position arguments
  | [], _ => by simp only [inferCall]
  | argument :: rest, htidy => by
    simp only [inferCall, infer_congr h _ argument htidy.1, inferCall_congr h _ _ rest htidy.2]

theorem inferElements_congr (h : env.Agrees scope env') (expected : Ty) :
    (elements : List Expr) → Expr.AllTidy elements →
      inferElements env' scope expected elements = inferElements env scope expected elements
  | [], _ => by simp only [inferElements]
  | element :: rest, htidy => by
    simp only [inferElements, infer_congr h _ element htidy.1,
      inferElements_congr h expected rest htidy.2]

theorem inferArguments_congr (h : env.Agrees scope env') (members : List LayoutMember)
    (position : Nat) : (arguments : List Argument) → Argument.AllTidy arguments →
      inferArguments env' scope members position arguments =
        inferArguments env scope members position arguments
  | [], _ => by simp only [inferArguments]
  | .mk _ value :: rest, htidy => by
    simp only [inferArguments, infer_congr h _ value htidy.1,
      inferArguments_congr h members _ rest htidy.2]
end

end Inference

/-- Two runs stand at the same point of the same function. -/
structure Matched (f : String) (s t : Progress) : Prop where
  symbols : s.symbols.Alike f t.symbols
  locals : s.locals = t.locals

/-- A check in the body of a function that gives the same, and reports the same, wherever two runs
of it start alike. -/
def Steady {α : Type} (f : String) (m : Check α) : Prop :=
  ∀ s t, Matched f s t → (m s).1 = (m t).1 ∧ Matched f (m s).2 (m t).2 ∧
    ∃ ds, (m s).2.diagnostics = s.diagnostics ++ ds ∧ (m t).2.diagnostics = t.diagnostics ++ ds

namespace Steady

variable {α β : Type} {f : String} {m n : Check α} {ctx : Context} {scope : ScopePath}

theorem pure (a : α) : Steady f (pure a : Check α) :=
  fun _ _ h => ⟨rfl, h, [], (List.append_nil _).symm, (List.append_nil _).symm⟩

theorem bind {k : α → Check β} (hm : Steady f m) (hk : ∀ a, Steady f (k a)) :
    Steady f (m >>= k) := by
  intro s t h
  obtain ⟨heq, hmatched, ds, hs, ht⟩ := hm s t h
  obtain ⟨heq', hmatched', ds', hs', ht'⟩ := hk (m s).1 (m s).2 (m t).2 hmatched
  change (k (m s).1 (m s).2).1 = (k (m t).1 (m t).2).1 ∧ Matched f (k (m s).1 (m s).2).2
    (k (m t).1 (m t).2).2 ∧ ∃ ds, (k (m s).1 (m s).2).2.diagnostics = s.diagnostics ++ ds ∧
      (k (m t).1 (m t).2).2.diagnostics = t.diagnostics ++ ds
  rw [← heq]
  refine ⟨heq', hmatched', ds ++ ds', ?_, ?_⟩
  · rw [hs', hs, List.append_assoc]
  · rw [ht', ht, List.append_assoc]

theorem ite {c : Prop} [Decidable c] (hm : Steady f m) (hn : Steady f n) :
    Steady f (if c then m else n) := by
  split
  · exact hm
  · exact hn

theorem report (d : Diagnostic) : Steady f (report d) :=
  fun _ _ h => ⟨rfl, ⟨h.symbols, h.locals⟩, [d], rfl, rfl⟩

theorem settle (outcome : Except Diagnostic α) : Steady f (settle outcome) := by
  cases outcome with
  | ok a => exact .pure (some a)
  | error d => exact .bind (.report d) fun _ => .pure none

theorem addLocal (v : StackVariable) : Steady f (addLocal v) :=
  fun _ _ h => ⟨rfl, ⟨h.symbols, congrArg (· ++ [v]) h.locals⟩, [], (List.append_nil _).symm,
    (List.append_nil _).symm⟩

theorem declare {symbol : Symbol} (h : Owned f symbol.mangled) : Steady f (declare symbol) := by
  intro s t hmatched
  have hget := hmatched.symbols.own _ h
  rcases s.symbols.declare_cases symbol with ⟨hnone, hok⟩ | ⟨existing, hsome, herror⟩
  · have hok' : t.symbols.declare symbol = .ok ⟨t.symbols.symbols ++ [symbol]⟩ := by
      rw [SymbolTable.declare, ← hget, hnone]
    rw [declare_of_ok hok, declare_of_ok hok']
    exact ⟨rfl, ⟨hmatched.symbols.declare h, hmatched.locals⟩, [], (List.append_nil _).symm,
      (List.append_nil _).symm⟩
  · have herror' : t.symbols.declare symbol = .error existing := by
      rw [SymbolTable.declare, ← hget, hsome]
    rw [declare_of_error herror, declare_of_error herror']
    exact ⟨rfl, ⟨hmatched.symbols, hmatched.locals⟩, [_], rfl, rfl⟩

theorem env {k : Env → Check α} (hscope : scope.function = f)
    (hagree : ∀ env env' : Env, env.Agrees scope env' → k env' = k env)
    (hk : ∀ e, Steady f (k e)) : Steady f (Typing.env ctx >>= k) := by
  intro s t h
  have hagrees : Env.Agrees scope ⟨ctx.layouts, s.symbols, ctx.types⟩
      ⟨ctx.layouts, t.symbols, ctx.types⟩ := by
    refine ⟨rfl, rfl, fun head hhead => ?_⟩
    have hresolve := h.symbols.resolve_eq hscope hhead
    unfold bindHead
    dsimp only
    cases hs : s.symbols.resolve scope head.name.value with
    | none =>
      rw [hs, Option.map_none, eq_comm, Option.map_eq_none_iff] at hresolve
      rw [hresolve]
    | some a =>
      rw [hs, Option.map_some, eq_comm, Option.map_eq_some_iff] at hresolve
      obtain ⟨b, hb, hmeaning⟩ := hresolve
      obtain ⟨hty, hbinding⟩ := Prod.mk.inj hmeaning
      rw [hb]
      simp only [hty]
      rw [show Binding.mk b.mangled b.kind = ⟨a.mangled, a.kind⟩ from hbinding]
  have hrun : ∀ r : Progress, (Typing.env ctx >>= k) r =
      k ⟨ctx.layouts, r.symbols, ctx.types⟩ r := fun _ => rfl
  rw [hrun s, hrun t, hagree _ _ hagrees]
  exact hk _ s t h

theorem mapM {g : α → Check β} {l : List α} (h : ∀ x ∈ l, Steady f (g x)) :
    Steady f (l.mapM g) := by
  induction l with
  | nil => exact .pure []
  | cons x rest ih =>
    obtain ⟨hx, hrest⟩ := List.forall_mem_cons.1 h
    rw [List.mapM_cons]
    exact .bind hx fun _ => .bind (ih hrest) fun _ => .pure _

end Steady

section Bodies

variable {f : String} {ctx : Context} {scope : ScopePath}

theorem steady_checkExpr (hscope : scope.function = f) (hint : Ty) {e : Expr} (he : e.Tidy) :
    Steady f (checkExpr ctx scope hint e) := by
  refine .env hscope (fun env env' h => ?_) fun _ => .bind (.settle _) fun _ => .pure _
  simp only [infer_congr h hint e he]

theorem steady_checkExact (hscope : scope.function = f) (expected : Ty) {e : Expr} (he : e.Tidy) :
    Steady f (checkExact ctx scope expected e) := by
  refine .env hscope (fun env env' h => ?_) fun _ => .bind (.settle _) fun _ => .pure _
  simp only [infer_congr h expected e he]

theorem steady_declareType (hscope : scope.function = f) (ty : Located Ty) :
    Steady f (declareType ctx ty) :=
  .env hscope (fun _ _ h => congrArg settle (checkTypeExists_congr h ty)) fun _ => .settle _

theorem steady_checkLet (hscope : scope.function = f) (span : Span) (allocate : Bool)
    (ty : Located Ty) (name : Located String) {value : Expr} (hvalue : value.Tidy)
    (mangled : Option String) :
    Steady f (checkLet ctx scope span allocate ty name value mangled) := by
  refine .bind (steady_declareType hscope ty) fun declared => ?_
  cases declared with
  | none => exact .pure _
  | some _ =>
    refine .bind (steady_checkExpr hscope ty.value hvalue) fun (checked, actual) => ?_
    refine .bind (.declare (hscope ▸ owned_mangle scope name.value)) fun ok => .ite ?_ (.pure _)
    refine .bind (.addLocal _) fun _ => ?_
    cases actual with
    | none => exact .pure _
    | some t => exact .ite (.bind (.report _) fun _ => .pure _) (.pure _)

theorem steady_checkMut (hscope : scope.function = f) (span : Span) {target : Located Place}
    (htarget : target.value.Tidy) {value : Expr} (hvalue : value.Tidy) :
    Steady f (checkMut ctx scope span target value) := by
  refine .ite (.bind (.report _) fun _ => .pure _) (.env hscope (fun env env' h => ?_) fun _ => ?_)
  · have hplace : inferPlace env' scope target.value = inferPlace env scope target.value := by
      rw [inferPlace, inferPlace, placeAlong_congr h htarget.1.name fun t =>
        inferAccessors_congr h _ t _ htarget.2]
    simp only [hplace]
  · refine .bind (.settle _) fun expected => ?_
    cases expected with
    | none => exact .pure _
    | some t => exact .bind (steady_checkExact hscope t hvalue) fun _ => .pure _

theorem steady_checkCall (hscope : scope.function = f) (span : Span) {value : Expr}
    (hvalue : value.Tidy) : Steady f (checkCall ctx scope span value) :=
  .ite (.bind (steady_checkExpr hscope .invalid hvalue) fun _ => .pure _)
    (.bind (.report _) fun _ => .pure _)

theorem steady_checkCollect (hscope : scope.function = f) (span : Span) {value : Expr}
    (hvalue : value.Tidy) : Steady f (checkCollect ctx scope span value) := by
  refine .bind (steady_checkExpr hscope .invalid hvalue) fun (checked, result) => ?_
  cases result with
  | none => exact .pure _
  | some t => exact .ite (.bind (.report _) fun _ => .pure _) (.pure _)

theorem steady_checkReturn (hscope : scope.function = f) (result : Located Ty) (span : Span)
    {value : Option Expr} (hvalue : ∀ e, value = some e → e.Tidy) :
    Steady f (checkReturn ctx scope result span value) := by
  cases value with
  | none => exact .ite (.bind (.report _) fun _ => .pure _) (.pure _)
  | some value =>
    refine .ite (.bind (.report _) fun _ => .pure _) ?_
    refine .bind (steady_checkExpr hscope result.value (hvalue value rfl))
      fun (checked, actual) => ?_
    cases actual with
    | none => exact .pure _
    | some t => exact .ite (.bind (.report _) fun _ => .pure _) (.pure _)

theorem steady_checkInLoop (inLoop : Bool) (span : Span) (keyword : String) :
    Steady f (checkInLoop inLoop span keyword) :=
  .ite (.report _) (.pure ())

theorem steady_declareIterator (hscope : scope.function = f) (iterator : Located String) :
    Steady f (declareIterator scope iterator) :=
  .bind (.declare (hscope ▸ owned_mangle scope iterator.value)) fun _ =>
    .bind (.addLocal _) fun _ => .pure _

mutual
theorem steady_checkStmt (result : Located Ty) {scope : ScopePath} (hscope : scope.function = f)
    (inLoop : Bool) (counters : SegmentCounters) :
    (st : Stmt) → st.Tidy → Steady f (checkStmt ctx result scope inLoop counters st)
  | .let_ span allocate ty name value mangled, htidy => by
    unfold checkStmt
    exact .bind (steady_checkLet hscope span allocate ty name htidy.2.2 mangled) fun _ => .pure _
  | .mut_ span target value, htidy => by
    unfold checkStmt
    exact .bind (steady_checkMut hscope span htidy.1 htidy.2) fun _ => .pure _
  | .call span value, htidy => by
    unfold checkStmt
    exact .bind (steady_checkCall hscope span htidy) fun _ => .pure _
  | .collect span value, htidy => by
    unfold checkStmt
    exact .bind (steady_checkCollect hscope span htidy) fun _ => .pure _
  | .return_ span value, htidy => by
    unfold checkStmt
    refine .bind (steady_checkReturn hscope result span ?_) fun _ => .pure _
    rintro e rfl
    exact htidy
  | .break_ span, _ | .continue_ span, _ => by
    unfold checkStmt
    exact .bind (steady_checkInLoop inLoop span _) fun _ => .pure _
  | .if_ span condition yes, htidy => by
    unfold checkStmt
    exact .bind (steady_checkExact hscope Ty.bool htidy.1) fun _ =>
      .bind (steady_checkBlock result (function_child hscope) inLoop yes htidy.2) fun _ => .pure _
  | .ifElse span condition yes no, htidy => by
    unfold checkStmt
    exact .bind (steady_checkExact hscope Ty.bool htidy.1) fun _ =>
      .bind (steady_checkBlock result (function_child hscope) inLoop yes htidy.2.1) fun _ =>
      .bind (steady_checkBlock result (function_child hscope) inLoop no htidy.2.2) fun _ => .pure _
  | .while_ span condition body, htidy => by
    unfold checkStmt
    exact .bind (steady_checkExact hscope Ty.bool htidy.1) fun _ =>
      .bind (steady_checkBlock result (function_child hscope) true body htidy.2) fun _ => .pure _
  | .doWhile span body condition, htidy => by
    unfold checkStmt
    exact .bind (steady_checkBlock result (function_child hscope) true body htidy.2) fun _ =>
      .bind (steady_checkExact hscope Ty.bool htidy.1) fun _ => .pure _
  | .for_ span iterator start stop body _, htidy => by
    unfold checkStmt
    exact .bind (steady_checkExact hscope Ty.int htidy.2.1) fun _ =>
      .bind (steady_checkExact hscope Ty.int htidy.2.2.1) fun _ =>
      .bind (steady_declareIterator (function_child hscope) iterator) fun _ =>
      .bind (steady_checkBlock result (function_child hscope) true body htidy.2.2.2)
        fun _ => .pure _
  | .block span body, htidy => by
    unfold checkStmt
    exact .bind (steady_checkBlock result (function_child hscope) inLoop body htidy)
      fun _ => .pure _

theorem steady_checkStmts (result : Located Ty) {scope : ScopePath} (hscope : scope.function = f)
    (inLoop : Bool) (counters : SegmentCounters) : (statements : List Stmt) →
      Stmt.AllTidy statements →
      Steady f (checkStmts ctx result scope inLoop counters statements)
  | [], _ => by
    unfold checkStmts
    exact .pure []
  | first :: rest, htidy => by
    unfold checkStmts
    exact .bind (steady_checkStmt result hscope inLoop counters first htidy.1) fun r =>
      .bind (steady_checkStmts result hscope inLoop r.2 rest htidy.2) fun _ => .pure _

theorem steady_checkBlock (result : Located Ty) {scope : ScopePath} (hscope : scope.function = f)
    (inLoop : Bool) :
    (b : Block) → b.Tidy → Steady f (checkBlock ctx result scope inLoop b)
  | .mk _ _ statements, htidy => by
    unfold checkBlock
    exact .bind (steady_checkStmts result hscope inLoop .zero statements htidy) fun _ => .pure _
end

theorem steady_checkParameter (hscope : scope.function = f) (p : Parameter) :
    Steady f (checkParameter scope p) :=
  .bind (.declare (hscope ▸ owned_mangle scope p.name.value)) fun _ => .pure _

/-- A function starts with no locals, so only the tables have to be alike. -/
theorem checkFunction_alike {g : Function} (hg : g.Tidy) {s t : Progress}
    (h : s.symbols.Alike g.name.value t.symbols) :
    (checkFunction ctx g s).1 = (checkFunction ctx g t).1 ∧
      ∃ ds, (checkFunction ctx g s).2.diagnostics = s.diagnostics ++ ds ∧
        (checkFunction ctx g t).2.diagnostics = t.diagnostics ++ ds := by
  have hlast (vs : List StackVariable) (body : Block) : Steady g.name.value (do
      let s ← get
      return { g with body := body, stack := ⟨vs, s.locals⟩ } : Check Function) := by
    intro s t hmatched
    refine ⟨?_, hmatched, [], (List.append_nil _).symm, (List.append_nil _).symm⟩
    change Function.mk _ _ _ _ _ ⟨vs, s.locals⟩ = Function.mk _ _ _ _ _ ⟨vs, t.locals⟩
    rw [hmatched.locals]
  have hrest : Steady g.name.value (do
      let parameters ← g.parameters.mapM (checkParameter (.ofFunction g.name.value))
      let body ← checkBlock ctx g.result (.ofFunction g.name.value) false g.body
      if !g.result.value.isVoid && !g.body.endsInReturn then
        report ⟨g.name.span, .noReturn g.name.value g.result.value,
          [⟨g.result.span, .returnTypeDeclared g.result.value⟩]⟩
      let s ← get
      return { g with body := body, stack := ⟨parameters, s.locals⟩ } : Check Function) := by
    have hscope : (ScopePath.ofFunction g.name.value).function = g.name.value := rfl
    refine .bind (.mapM fun p _ => steady_checkParameter hscope p) fun vs =>
      .bind (steady_checkBlock g.result hscope false g.body hg.body) fun body => ?_
    exact .ite (.bind (.report _) fun _ => hlast vs body) (hlast vs body)
  obtain ⟨heq, -, hreports⟩ := hrest { s with locals := [] } { t with locals := [] } ⟨h, rfl⟩
  exact ⟨heq, hreports⟩

end Bodies

/-! Whole programs. -/

section Programs

open Lexical

variable {ctx : Context}

/-- Where a function stands among those that are checked one after the other. Those before it leave
the globals and its own names alone; what they and the later ones report lies elsewhere. -/
theorem performs_checkFunctions {fs : List Function} (hfs : ∀ g ∈ fs, g.Tidy)
    (hdistinct : (fs.map (·.name.value)).Nodup) {f : Function} (hf : f ∈ fs) {spans : List Span}
    (hspans : ∀ g ∈ fs, g.name.value ≠ f.name.value →
      g.headerSpans ⊆ spans ∧ g.body.spans ⊆ spans) :
    Performs (fs.mapM (checkFunction ctx)) fun s fs' s' => ∀ globals,
      Answers s.symbols [] globals → (∀ g ∈ fs, Fresh s.symbols [g.name.value]) →
      ∃ s₁ before after, Answers s₁.symbols [] globals ∧ Fresh s₁.symbols [f.name.value] ∧
        fs'.find? (·.name.value == f.name.value) = some (checkFunction ctx f s₁).1 ∧
        s₁.diagnostics = s.diagnostics ++ before ∧
        s'.diagnostics = (checkFunction ctx f s₁).2.diagnostics ++ after ∧
        ∀ d ∈ before ++ after, d.span ∈ spans := by
  induction fs with
  | nil => cases hf
  | cons g rest ih =>
    rw [List.map_cons, List.nodup_cons] at hdistinct
    obtain ⟨hg, hrest⟩ := List.forall_mem_cons.1 hfs
    have hne : ∀ h ∈ rest, h.name.value ≠ g.name.value := fun h hh heq =>
      hdistinct.1 (heq ▸ List.mem_map_of_mem hh)
    obtain ⟨hgspans, hrestspans⟩ := List.forall_mem_cons.1 hspans
    have hname : ∀ s, (checkFunction ctx g s).1.name = g.name := fun s =>
      (checkFunction_fills g s).name
    intro s globals hglobals hfresh
    have hrun : ((g :: rest).mapM (checkFunction ctx)) s =
        ((checkFunction ctx g s).1 :: ((rest.mapM (checkFunction ctx)) (checkFunction ctx g s).2).1,
          ((rest.mapM (checkFunction ctx)) (checkFunction ctx g s).2).2) := by
      rw [List.mapM_cons]
      rfl
    rw [hrun]
    rcases List.mem_cons.1 hf with rfl | hf
    · have hlater : ReportsAt spans (rest.mapM (checkFunction ctx)) := .mapM fun h hh =>
        have ⟨hheader, hbody⟩ := hrestspans h hh (hne h hh)
        reportsAt_checkFunction hheader hbody
      obtain ⟨after, hafter, hin⟩ := hlater (checkFunction ctx f s).2
      refine ⟨s, [], after, hglobals, hfresh f List.mem_cons_self, ?_, (List.append_nil _).symm,
        hafter, by simpa using hin⟩
      rw [List.find?_cons_of_pos]
      simp [hname]
    · have hother : g.name.value ≠ f.name.value := (hne f hf).symm
      obtain ⟨hheader, hbody⟩ := hgspans hother
      have hreports : ReportsAt spans (checkFunction ctx g) := reportsAt_checkFunction hheader hbody
      obtain ⟨ds, hds, hin⟩ := hreports s
      have hvisits : Visits [g.name.value] _ s (checkFunction ctx g s).2 :=
        visits_checkFunction hg s globals hglobals (hfresh g List.mem_cons_self)
      obtain ⟨new, hsymbols, hnew⟩ := hvisits.symbols
      have hfresh' : ∀ h ∈ rest, Fresh (checkFunction ctx g s).2.symbols [h.name.value] := by
        intro h hh
        have hbefore : Fresh s.symbols ([] ++ [h.name.value]) := hfresh h
          (List.mem_cons_of_mem _ hh)
        exact hbefore.sibling hsymbols hnew (hrest h hh).name hg.name (hne h hh)
      obtain ⟨s₁, before, after, hglobals₁, hfresh₁, hfind, hbefore, hafter, hspans₁⟩ :=
        ih hrest hdistinct.2 hf hrestspans (checkFunction ctx g s).2 globals
          (hglobals.extend hsymbols hnew) hfresh'
      refine ⟨s₁, ds ++ before, after, hglobals₁, hfresh₁, ?_, ?_, hafter, ?_⟩
      · rw [List.find?_cons_of_neg, hfind]
        simpa [hname] using hother
      · rw [hbefore, hds, List.append_assoc]
      · intro d hd
        rw [List.append_assoc] at hd
        exact (List.mem_append.1 hd).elim (hin d) (hspans₁ d)

theorem adds_declareAll (isFile : String → Bool) (base : String) {p : Program} (hp : p.Tidy)
    (errors : List (Nat × LayoutError)) :
    Performs (declareAll ctx isFile base p errors) fun s _ s' =>
      AddsGlobals (Typing.globals p) s s' := by
  refine .bind (quiet_checkRecords p.records _) fun _ =>
    .bind (.forM_globals fun f hf => adds_declareFunction (hp.functions f hf).name) fun _ =>
    .bind (.forM_globals fun f hf => adds_declareForeign (hp.foreign f hf).name) fun _ =>
    .bind (.mapM_globals fun e he => adds_declareEmbed isFile base (hp.embeds e he)) fun embeds =>
    .bind (quiet_checkEntryPoint p.functions) fun _ => .pure ?_
  intro s₅ s₄ hentry s₃ hembeds s₂ hforeign s₁ hdeclared s hrecords
  have hadds := (((hrecords.addsGlobals.append hdeclared).append hforeign).append
    hembeds).append hentry.addsGlobals
  simpa [Typing.globals, List.map_eq_flatMap] using hadds

theorem analyze_function (isFile : String → Bool) (base : String) {p : Program} (hp : p.Tidy)
    (hdistinct : (p.functions.map (·.name.value)).Nodup) {f : Function} (hf : f ∈ p.functions) :
    ∃ s after, Answers s.symbols [] (Lexical.globals p) ∧ Fresh s.symbols [f.name.value] ∧
      (analyze isFile base .initial p).1.functions.find? (·.name.value == f.name.value) =
        some (checkFunction (contextOf p) f s).1 ∧
      (analyze isFile base .initial p).2.diagnostics =
        (checkFunction (contextOf p) f s).2.diagnostics ++ after ∧
      ∀ d ∈ s.diagnostics ++ after, d.span ∈ p.spansBeside f := by
  let errors := (Registry.initial.registerRecords (p.records.map recordShape)).2
  let start : Progress := ⟨.empty, [], []⟩
  let declared := (declareAll (contextOf p) isFile base p errors start).2
  let checked := (p.functions.mapM (checkFunction (contextOf p))) declared
  have hfunctions : (analyze isFile base .initial p).1.functions = checked.1 := by
    change (checkDeclarations (contextOf p) isFile base p errors start).1.functions = _
    rw [checkDeclarations_eq]
    rfl
  have hdiagnostics : (analyze isFile base .initial p).2.diagnostics = checked.2.diagnostics := by
    change (checkDeclarations (contextOf p) isFile base p errors start).2.diagnostics = _
    rw [checkDeclarations_eq]
    rfl
  obtain ⟨-, hglobals⟩ := adds_declareAll isFile base hp errors start []
    ⟨fun x _ => rfl, by simp [start, SymbolTable.empty]⟩
  obtain ⟨ds, hds, hdeclared⟩ := reportsAt_declareAll isFile base p errors start
  have hspans : ∀ g ∈ p.functions, g.name.value ≠ f.name.value →
      g.headerSpans ⊆ p.spansBeside f ∧ g.body.spans ⊆ p.spansBeside f := by
    intro g hg hne
    constructor <;> intro x hx
    · refine List.mem_append_left _ ?_
      simp only [Program.declarationSpans, List.mem_cons, List.mem_append, List.mem_flatMap]
      grind
    · refine List.mem_append_right _ (List.mem_flatMap.2 ⟨g, ?_, hx⟩)
      simpa [hg] using hne
  obtain ⟨s, before, after, hanswers, hfresh, hfind, hbefore, hafter, hothers⟩ :=
    performs_checkFunctions hp.functions hdistinct hf hspans declared _ hglobals.answers
      fun g _ x hx => not_under_of_isName (hglobals.names x hx)
  refine ⟨s, after, hanswers, hfresh, hfunctions ▸ hfind, hdiagnostics ▸ hafter, fun d hd => ?_⟩
  rw [hbefore, show declared.diagnostics = ds from hds, List.append_assoc] at hd
  rcases List.mem_append.1 hd with hd | hd
  · exact List.mem_append_left _ (hdeclared d hd)
  · exact hothers d hd

end Programs

end Typing

/-! Two programs that differ in the bodies and in the order of their functions. -/

/-- What other functions can know of those of a program. -/
def Program.signatures (p : Program) : List (String × Ty) :=
  p.functions.map fun g => (g.name.value, g.signature)

section Globals

open Lexical

theorem find?_foldl_addTo (symbols frame : List Symbol) (x : String) :
    (symbols.foldl addTo frame).find? (·.name == x) = (frame ++ symbols).find? (·.name == x) := by
  induction symbols generalizing frame with
  | nil => rw [List.foldl_nil, List.append_nil]
  | cons s rest ih =>
    rw [List.foldl_cons, ih, addTo]
    split
    case isFalse => rw [List.append_assoc, List.singleton_append]
    case isTrue hany =>
      rw [List.find?_append, List.find?_append, List.find?_cons]
      by_cases hx : s.name = x
      · obtain ⟨y, hy⟩ : ∃ y, frame.find? (·.name == x) = some y := by
          rw [← Option.isSome_iff_exists, List.find?_isSome]
          simpa [hx] using hany
        rw [hy]
        rfl
      · rw [beq_eq_false_iff_ne.2 hx]

/-- With different names, the order makes no difference for a lookup. -/
theorem find?_signatures {p p' : Program} (h : p.signatures.Perm p'.signatures)
    (hdistinct : (p.functions.map (·.name.value)).Nodup) (x : String) :
    p.signatures.find? (·.1 == x) = p'.signatures.find? (·.1 == x) := by
  refine List.find?_eq_find?_of_perm h ?_
  rintro a ⟨ha, hax⟩ b ⟨hb, hbx⟩
  have hnodup : (p.signatures.map Prod.fst).Nodup := by
    simpa [Program.signatures, Function.comp_def] using hdistinct
  refine List.inj_on_of_nodup_map hnodup ha hb ?_
  rw [beq_iff_eq.1 hax, beq_iff_eq.1 hbx]

theorem find?_functions (p : Program) (x : String) :
    ((p.functions.map Typing.Function.symbol).find? (·.name == x)).map Symbol.meaning =
      (p.signatures.find? (·.1 == x)).map fun (name, ty) => (ty, ⟨name, .function⟩) := by
  rw [Program.signatures, List.find?_map, List.find?_map, Option.map_map, Option.map_map]
  rfl

theorem globals_meaning_eq {p p' : Program} (hforeign : p'.foreign = p.foreign)
    (hembeds : p'.embeds = p.embeds) (h : p.signatures.Perm p'.signatures)
    (hdistinct : (p.functions.map (·.name.value)).Nodup) (x : String) :
    ((Lexical.globals p).find? (·.name == x)).map Symbol.meaning =
      ((Lexical.globals p').find? (·.name == x)).map Symbol.meaning := by
  have hfunctions : ((p.functions.map Typing.Function.symbol).find? (·.name == x)).map
      Symbol.meaning = ((p'.functions.map Typing.Function.symbol).find? (·.name == x)).map
        Symbol.meaning := by
    rw [find?_functions, find?_functions, find?_signatures h hdistinct]
  simp only [Lexical.globals, find?_foldl_addTo, List.nil_append, Typing.globals, hforeign, hembeds,
    List.find?_append, Option.map_or, hfunctions]

end Globals

/-- Bodies are checked independently. Two programs that agree on everything but the bodies of other
functions and the order of the functions give a function the same checked form, and the same
reports in the same order; everything else that they report lies outside of its body. -/
theorem bodies_independent (isFile : String → Bool) (base : String) {p p' : Program} (hp : p.Tidy)
    (hp' : p'.Tidy) (hdistinct : (p.functions.map (·.name.value)).Nodup)
    (hdistinct' : (p'.functions.map (·.name.value)).Nodup) (hrecords : p'.records = p.records)
    (hforeign : p'.foreign = p.foreign) (hembeds : p'.embeds = p.embeds)
    (hsignatures : p.signatures.Perm p'.signatures) {f : Function} (hf : f ∈ p.functions)
    (hf' : f ∈ p'.functions) :
    (∃ g, Function.Fills f g ∧
      (Typing.analyze isFile base .initial p).1.functions.find?
        (·.name.value == f.name.value) = some g ∧
      (Typing.analyze isFile base .initial p').1.functions.find?
        (·.name.value == f.name.value) = some g) ∧
    (∃ own before after before' after',
      (Typing.analyze isFile base .initial p).2.diagnostics = before ++ own ++ after ∧
      (Typing.analyze isFile base .initial p').2.diagnostics = before' ++ own ++ after' ∧
      (∀ d ∈ own, d.span ∈ f.headerSpans ++ f.body.spans) ∧
      (∀ d ∈ before ++ after, d.span ∈ p.spansBeside f) ∧
      ∀ d ∈ before' ++ after', d.span ∈ p'.spansBeside f) ∧
    ∀ inside : Span → Bool, (∀ s ∈ p.spansBeside f ++ p'.spansBeside f, inside s = false) →
      (Typing.analyze isFile base .initial p).2.diagnostics.filter (inside ·.span) =
        (Typing.analyze isFile base .initial p').2.diagnostics.filter (inside ·.span) := by
  obtain ⟨s, after, hanswers, hfresh, hfind, hdiagnostics, houtside⟩ :=
    Typing.analyze_function isFile base hp hdistinct hf
  obtain ⟨s', after', hanswers', hfresh', hfind', hdiagnostics', houtside'⟩ :=
    Typing.analyze_function isFile base hp' hdistinct' hf'
  have hcontext : Typing.contextOf p' = Typing.contextOf p := by
    simp only [Typing.contextOf, Typing.Knowledge.context, hrecords]
  rw [hcontext] at hfind' hdiagnostics'
  have halike : s.symbols.Alike f.name.value s'.symbols := by
    constructor
    · intro x hx
      have hs := hanswers x hx
      have hs' := hanswers' x hx
      rw [Typing.mangleIn_nil] at hs hs'
      rw [hs, hs', globals_meaning_eq hforeign hembeds hsignatures hdistinct]
    · -- No symbol of the function has been declared before its own body.
      intro m hm
      have hunder : Under [f.name.value] m := by simpa [Under, spelled, Owned] using hm
      rw [SymbolTable.get?_eq_none fun x hx heq => hfresh x hx (heq ▸ hunder),
        SymbolTable.get?_eq_none fun x hx heq => hfresh' x hx (heq ▸ hunder)]
  have hchecked := @Typing.checkFunction_alike (Typing.contextOf p) f (hp.functions f hf) _ _ halike
  obtain ⟨hsame, own, hown, hown'⟩ := hchecked
  have hreports : Typing.ReportsAt (f.headerSpans ++ f.body.spans)
      (Typing.checkFunction (Typing.contextOf p) f) :=
    Typing.reportsAt_checkFunction (List.subset_append_left _ _) (List.subset_append_right _ _)
  rw [hown] at hdiagnostics
  rw [hown'] at hdiagnostics'
  rw [← hsame] at hfind'
  refine ⟨⟨_, Typing.checkFunction_fills f s, hfind, hfind'⟩,
    ⟨own, s.diagnostics, after, s'.diagnostics, after', hdiagnostics, hdiagnostics', ?_, houtside,
      houtside'⟩, fun inside hinside => ?_⟩
  · obtain ⟨ds, hds, hspans⟩ := hreports s
    rw [hown, List.append_cancel_left_eq] at hds
    exact hds ▸ hspans
  · have hnone {ds : List Typing.Diagnostic} (h : ∀ d ∈ ds, d.span ∈ p.spansBeside f ++
        p'.spansBeside f) : ds.filter (inside ·.span) = [] := by
      simpa using fun d hd => hinside _ (h d hd)
    have hleft {d : Typing.Diagnostic} (hd : d ∈ s.diagnostics ++ after) :
        d.span ∈ p.spansBeside f ++ p'.spansBeside f := List.mem_append_left _ (houtside d hd)
    have hright {d : Typing.Diagnostic} (hd : d ∈ s'.diagnostics ++ after') :
        d.span ∈ p.spansBeside f ++ p'.spansBeside f := List.mem_append_right _ (houtside' d hd)
    rw [hdiagnostics, hdiagnostics', List.filter_append, List.filter_append, List.filter_append,
      List.filter_append, hnone fun d hd => hleft (List.mem_append_left _ hd),
      hnone fun d hd => hleft (List.mem_append_right _ hd),
      hnone fun d hd => hright (List.mem_append_left _ hd),
      hnone fun d hd => hright (List.mem_append_right _ hd)]

section TwoPrograms

/-- A function without parameters, all of whose parts stand at one place. -/
def plainFunction (place : Span) (name : String) (statements : List Stmt) : Function :=
  ⟨place, ⟨place, name⟩, [], ⟨place, Ty.void⟩, .mk place false statements, .empty⟩

/-- `let int x = y`, in which `y` has no declaration. -/
def letOfMissing (place : Span) : Stmt :=
  .let_ place false ⟨place, Ty.int⟩ ⟨place, "x"⟩
    (.variable ⟨place, none⟩ ⟨⟨place, "y"⟩, none, none⟩ []) none

def onlyFunctions (functions : List Function) : Program := ⟨"", functions, [], [], [], []⟩

theorem letOfMissing_tidy (place : Span) : (letOfMissing place).Tidy :=
  ⟨trivial, by simp [IsName], ⟨by simp [IsName], rfl, rfl⟩, trivial⟩

theorem plainFunction_tidy (place : Span) {name : String} {statements : List Stmt}
    (hname : IsName name) (h : Stmt.AllTidy statements) :
    (plainFunction place name statements).Tidy :=
  ⟨hname, by simp [plainFunction], trivial, h⟩

theorem onlyFunctions_tidy {functions : List Function} (h : ∀ f ∈ functions, f.Tidy) :
    (onlyFunctions functions).Tidy :=
  ⟨h, by simp [onlyFunctions], by simp [onlyFunctions], by simp [onlyFunctions]⟩

theorem bodies_independent_two :
    let f := plainFunction ⟨⟨1, 0, 1⟩, ⟨2, 0, 2⟩⟩ "f" [letOfMissing ⟨⟨1, 0, 1⟩, ⟨2, 0, 2⟩⟩]
    let p := onlyFunctions [f, plainFunction ⟨⟨3, 0, 3⟩, ⟨4, 0, 4⟩⟩ "main" []]
    let p' := onlyFunctions [plainFunction ⟨⟨3, 0, 3⟩, ⟨4, 0, 4⟩⟩ "main"
      [letOfMissing ⟨⟨3, 0, 3⟩, ⟨4, 0, 4⟩⟩], f]
    ∃ g, Function.Fills f g ∧
      (Typing.analyze (fun _ => false) "" .initial p).1.functions.find? (·.name.value == "f") =
        some g ∧
      (Typing.analyze (fun _ => false) "" .initial p').1.functions.find? (·.name.value == "f") =
        some g := by
  intro f p p'
  have hf : f.Tidy := plainFunction_tidy _ (by simp [IsName]) ⟨letOfMissing_tidy _, trivial⟩
  have hp : p.Tidy := onlyFunctions_tidy <| List.forall_mem_cons.2
    ⟨hf, List.forall_mem_singleton.2 (plainFunction_tidy _ (by simp [IsName]) trivial)⟩
  have hp' : p'.Tidy := onlyFunctions_tidy <| List.forall_mem_cons.2
    ⟨plainFunction_tidy _ (by simp [IsName]) ⟨letOfMissing_tidy _, trivial⟩,
      List.forall_mem_singleton.2 hf⟩
  have hsignatures : p.signatures.Perm p'.signatures := List.Perm.swap _ _ []
  exact (bodies_independent (fun _ => false) "" hp hp' (by decide)
    (by decide) rfl rfl rfl hsignatures
    (List.mem_cons_self : f ∈ p.functions) (by simp [p', onlyFunctions])).1

end TwoPrograms

end RegionCompiler
