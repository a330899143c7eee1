import RegionCompiler.Proofs.Scope.Reads

/-! Where problems are reported: each at a span of the part of the program that it was found in. -/
namespace RegionCompiler

mutual
/-- The spans of an expression and of its parts. -/
def Expr.spans : Expr → List Span
  | .integer node _ | .float node _ | .boolean node _ | .string node _ | .null node => [node.span]
  | .variable node head accessors => node.span :: head.name.span :: Accessor.allSpans accessors
  | .parenthesized node inner | .allocation node inner => node.span :: inner.spans
  | .array node elements => node.span :: Expr.allSpans elements
  | .addressOf node target head accessors =>
    node.span :: target :: head.name.span :: Accessor.allSpans accessors
  | .unary node op operand => node.span :: op.span :: operand.spans
  | .binary node op lhs rhs => node.span :: op.span :: (lhs.spans ++ rhs.spans)
  | .conversion node inner target => node.span :: target.span :: inner.spans
  | .construct node record arguments => node.span :: record.span :: Argument.allSpans arguments

def Expr.allSpans : List Expr → List Span
  | [] => []
  | e :: rest => e.spans ++ Expr.allSpans rest

def Accessor.spans : Accessor → List Span
  | .call node arguments => node.span :: Expr.allSpans arguments
  | .index node position => node.span :: position.spans
  | .dereference node => [node.span]
  | .member node name => [node.span, name.span]

def Accessor.allSpans : List Accessor → List Span
  | [] => []
  | a :: rest => a.spans ++ Accessor.allSpans rest

def Argument.spans : Argument → List Span
  | .mk name value => (name.map Located.span).toList ++ value.spans

def Argument.allSpans : List Argument → List Span
  | [] => []
  | a :: rest => a.spans ++ Argument.allSpans rest
end

def Place.spans (p : Place) : List Span :=
  p.head.name.span :: Accessor.allSpans p.accessors

mutual
def Stmt.spans : Stmt → List Span
  | .let_ span _ ty name value _ => span :: ty.span :: name.span :: value.spans
  | .mut_ span target value => span :: target.span :: (target.value.spans ++ value.spans)
  | .call span value | .collect span value => span :: value.spans
  | .return_ span value => span :: (value.map Expr.spans).getD []
  | .break_ span | .continue_ span => [span]
  | .if_ span condition yes => span :: (condition.spans ++ yes.spans)
  | .ifElse span condition yes no => span :: (condition.spans ++ (yes.spans ++ no.spans))
  | .while_ span condition body | .doWhile span body condition =>
    span :: (condition.spans ++ body.spans)
  | .for_ span iterator start stop body _ =>
    span :: iterator.span :: (start.spans ++ (stop.spans ++ body.spans))
  | .block span body => span :: body.spans

def Stmt.allSpans : List Stmt → List Span
  | [] => []
  | s :: rest => s.spans ++ Stmt.allSpans rest

def Block.spans : Block → List Span
  | .mk span _ statements => span :: Stmt.allSpans statements
end

theorem Expr.span_mem_spans (e : Expr) : e.span ∈ e.spans := by
  cases e <;> simp [Expr.spans, Expr.span, Expr.node]

theorem Argument.spans_subset {a : Argument} {as : List Argument} (h : a ∈ as) :
    a.spans ⊆ Argument.allSpans as := by
  induction as with
  | nil => cases h
  | cons first rest ih =>
    rw [Argument.allSpans]
    rcases List.mem_cons.1 h with rfl | h
    · exact List.subset_append_left _ _
    · exact List.subset_append_of_subset_right _ (ih h)

theorem Argument.name_span_mem {a : Argument} {n : Located String} (h : a.name = some n) :
    n.span ∈ a.spans := by
  obtain ⟨name, value⟩ := a
  obtain rfl : name = some n := h
  simp [Argument.spans]

namespace Typing

/-- An outcome whose problem, if it has one, is reported at one of the spans. -/
def Within {α : Type} (spans : List Span) (outcome : Except Diagnostic α) : Prop :=
  ∀ d, outcome = .error d → d.span ∈ spans

namespace Within

variable {α β : Type} {spans more : List Span} {outcome other : Except Diagnostic α}

theorem ok (a : α) : Within spans (.ok a : Except Diagnostic α) := nofun

theorem reject {span : Span} (problem : Problem) (h : span ∈ spans) :
    Within spans (Typing.reject span problem : Except Diagnostic α) := by
  rintro d ⟨⟩
  exact h

theorem mono (h : Within spans outcome) (hmore : spans ⊆ more) : Within more outcome :=
  fun d hd => hmore (h d hd)

theorem ite {c : Prop} [Decidable c] (h : c → Within spans outcome)
    (h' : ¬ c → Within spans other) :
    Within spans (if c then outcome else other) := by
  split
  · exact h ‹_›
  · exact h' ‹_›

theorem bind {f : α → Except Diagnostic β} (h : Within spans outcome)
    (hf : ∀ a, Within spans (f a)) : Within spans (outcome.bind f) := by
  cases outcome with
  | ok a => exact hf a
  | error d =>
    rintro _ ⟨⟩
    exact h d rfl

theorem map (f : α → β) (h : Within spans outcome) : Within spans (outcome.map f) := by
  cases outcome with
  | ok a => exact ok (f a)
  | error d =>
    rintro _ ⟨⟩
    exact h d rfl

theorem expectTy {span : Span} {expected : Ty} {actual : Result} (h : Within spans actual)
    (hspan : span ∈ spans) : Within spans (expectTy span expected actual) :=
  h.bind fun _ => .ite (fun _ => .ok ()) fun _ => .reject _ hspan

end Within

section Inference

variable (env : Env) (scope : ScopePath) {spans : List Span}

theorem within_checkTypeExists {ty : Located Ty} (h : ty.span ∈ spans) :
    Within spans (checkTypeExists env ty) := by
  unfold checkTypeExists
  split
  · exact .ite (fun _ => .ok ()) fun _ => .reject _ h
  · exact .reject _ h

theorem within_unaryResult {op : UnaryOp} {span : Span} (t : Ty) (h : span ∈ spans) :
    Within spans (unaryResult op span t) := by
  cases op <;> exact .ite (fun _ => .ok t) fun _ => .reject _ h

theorem within_binaryResult {op : Located BinaryOp} {span : Span} (lhs rhs : Ty)
    (hspan : span ∈ spans) (hop : op.span ∈ spans) : Within spans (binaryResult op span lhs rhs) :=
  .ite (fun _ => .reject _ hspan) fun _ => .ite (fun _ => .reject _ hop) fun _ =>
    .ite (fun _ => .ok _) fun _ => .ok _

theorem within_checkArguments {span : Span} (ty : Ty) (layout : Layout) (arguments : List Argument)
    (hspan : span ∈ spans) (harguments : Argument.allSpans arguments ⊆ spans) :
    Within spans (checkArguments span ty layout arguments) := by
  refine .ite (fun _ => .reject _ hspan) fun _ => ?_
  dsimp only
  split
  case h_1 n hunknown =>
    obtain ⟨a, ha, hname⟩ := List.exists_of_findSome?_eq_some hunknown
    obtain ⟨n', hn', hfound⟩ := Option.bind_eq_some_iff.1 hname
    obtain rfl : n' = n := by
      split at hfound
      · exact Option.some.inj hfound
      · cases hfound
    exact .reject _ (harguments (Argument.spans_subset ha (Argument.name_span_mem hn')))
  case h_2 => exact .ite (fun _ => .reject _ hspan) fun _ => .ok ()

theorem within_placeAlong {head : Head} {accessors : List Accessor}
    {along : Ty → List Accessor × Result} (hhead : head.name.span ∈ spans)
    (halong : ∀ t, Within spans (along t).2) :
    Within spans (placeAlong env scope head accessors along).2.2 := by
  have hcalled : ∀ t, Within spans (checkCalled head t accessors) := fun t =>
    .ite (fun _ => .reject _ hhead) fun _ => .ok ()
  unfold placeAlong bindHead
  cases env.symbols.resolve scope head.name.value with
  | none => exact .reject _ hhead
  | some symbol =>
    dsimp only
    split
    case h_1 heq => exact fun d hd => hcalled _ d (heq.trans (by simpa using hd))
    case h_2 => exact halong _

theorem within_settleArguments {checked : List CheckedArgument}
    (h : ∀ a ∈ checked, Within spans a.outcome) : Within spans (settleArguments checked).2 := by
  induction checked with
  | nil => exact .ok ()
  | cons a rest ih =>
    obtain ⟨ha, hrest⟩ := List.forall_mem_cons.1 h
    unfold settleArguments
    cases houtcome : a.outcome with
    | ok _ => exact ih hrest
    | error d =>
      rintro _ ⟨⟩
      exact ha d houtcome

mutual
theorem within_infer (hint : Ty) : (e : Expr) → Within e.spans (infer env scope hint e).2
  | .integer _ _ | .float _ _ | .boolean _ _ | .string _ _ => by
    simp only [infer]
    exact .ok _
  | .null _ => by
    simp only [infer, Expr.spans]
    exact .ite (fun _ => .ok _) fun _ => .reject _ (by simp)
  | .variable _ head accessors => by
    simp only [infer, Expr.spans]
    refine within_placeAlong env scope (by simp) fun t => ?_
    exact (within_inferAccessors _ t accessors).mono (by intro s hs; simp [hs])
  | .parenthesized _ inner => by
    simp only [infer, Expr.spans]
    exact (within_infer hint inner).mono (List.subset_cons_self _ _)
  | .array _ [] => by
    simp only [infer, Expr.spans]
    exact .ite (fun _ => .ok _) fun _ => .ite (fun _ => .ok _) fun _ => .reject _ (by simp)
  | .array _ (first :: rest) => by
    simp only [infer, Expr.spans, Expr.allSpans]
    have hfirst := within_infer (if hint.isArray then hint.withoutModifier else .invalid) first
    split
    case h_1 d heq =>
      rintro _ ⟨⟩
      simp [hfirst d heq]
    case h_2 t heq =>
      refine Within.map _ ((within_inferElements t rest).mono ?_)
      intro s hs
      simp [hs]
  | .allocation _ size => by
    simp only [infer, Expr.spans]
    split
    · refine Within.map _ (.expectTy ((within_infer Ty.int size).mono ?_) ?_)
      · exact List.subset_cons_self _ _
      · exact List.mem_cons_of_mem _ size.span_mem_spans
    · exact .reject _ (by simp)
    · exact .reject _ (by simp)
  | .addressOf _ _ head accessors => by
    simp only [infer, Expr.spans]
    split
    · exact .reject _ (by simp)
    · refine Within.map _ (within_placeAlong env scope (by simp) fun t => ?_)
      exact (within_inferAccessors _ t accessors).mono (by intro s hs; simp [hs])
  | .unary _ _ operand => by
    simp only [infer, Expr.spans]
    refine Within.bind ((within_infer hint operand).mono (by intro s hs; simp [hs])) fun t => ?_
    exact within_unaryResult t (by simp [operand.span_mem_spans])
  | .binary _ op lhs rhs => by
    simp only [infer, Expr.spans]
    have hlhs := within_infer (if hint.isPlain "bool" then .invalid else hint) lhs
    split
    case h_1 d heq =>
      rintro _ ⟨⟩
      simp [hlhs d heq]
    case h_2 t heq =>
      refine Within.bind ((within_infer t rhs).mono (by intro s hs; simp [hs])) fun t' => ?_
      exact within_binaryResult t t' (by simp [rhs.span_mem_spans]) (by simp)
  | .conversion _ inner target => by
    simp only [infer, Expr.spans]
    have hexists : Within (target.span :: inner.spans) (checkTypeExists env target) :=
      within_checkTypeExists env (by simp)
    split
    case h_1 d heq =>
      rintro _ ⟨⟩
      exact List.mem_cons_of_mem _ (hexists d heq)
    case h_2 =>
      refine Within.bind ((within_infer .invalid inner).mono (by intro s hs; simp [hs])) fun t => ?_
      exact .ite (fun _ => .reject _ (by simp)) fun _ => .ok _
  | .construct node record arguments => by
    simp only [infer, Expr.spans]
    split
    case h_1 => exact .reject _ (by simp)
    case h_2 layout _ =>
      have harguments : Argument.allSpans arguments ⊆
          node.span :: record.span :: Argument.allSpans arguments := by
        intro s hs
        simp [hs]
      split
      case h_1 d heq =>
        rintro _ ⟨⟩
        exact within_checkArguments _ layout arguments (by simp) harguments d heq
      case h_2 =>
        refine Within.map _ (within_settleArguments fun a ha => ?_)
        exact (within_inferArguments _ _ arguments a (List.mem_mergeSort.1 ha)).mono harguments

theorem within_inferAccessors (name : String) (running : Ty) : (accessors : List Accessor) →
    Within (Accessor.allSpans accessors) (inferAccessors env scope name running accessors).2
  | [] => by
    simp only [inferAccessors]
    exact .ok _
  | .call node arguments :: rest => by
    simp only [inferAccessors, Accessor.allSpans, Accessor.spans]
    split
    case h_1 result parameters variadic _ =>
      have hcount : Within [node.span]
          (checkCount node.span name parameters.length arguments.length variadic) :=
        .ite (fun _ => .ok ()) fun _ => .reject _ (by simp)
      split
      case h_1 d heq =>
        rintro _ ⟨⟩
        simp [List.mem_singleton.1 (hcount d heq)]
      case h_2 =>
        have harguments := within_inferCall parameters 1 arguments
        split
        case h_1 d heq =>
          rintro _ ⟨⟩
          simp [harguments d heq]
        case h_2 => exact (within_inferAccessors name _ rest).mono (by intro s hs; simp [hs])
    case h_2 => exact .reject _ (by simp)
  | .index node position :: rest => by
    simp only [inferAccessors, Accessor.allSpans, Accessor.spans]
    split
    case h_1 element _ =>
      have hposition : Within position.spans
          (expectTy position.span Ty.int (infer env scope Ty.int position).2) :=
        .expectTy (within_infer Ty.int position) position.span_mem_spans
      split
      case h_1 d heq =>
        rintro _ ⟨⟩
        simp [hposition d heq]
      case h_2 => exact (within_inferAccessors name _ rest).mono (by intro s hs; simp [hs])
    case h_2 => exact .reject _ (by simp)
  | .dereference _ :: rest => by
    simp only [inferAccessors, Accessor.allSpans, Accessor.spans]
    split
    case h_1 => exact (within_inferAccessors name _ rest).mono (by intro s hs; simp [hs])
    case h_2 => exact .reject _ (by simp)
  | .member _ _ :: rest => by
    simp only [inferAccessors, Accessor.allSpans, Accessor.spans]
    split
    case h_1 => exact (within_inferAccessors name _ rest).mono (by intro s hs; simp [hs])
    case h_2 => exact .reject _ (by simp)

theorem within_inferCall (parameters : List Ty) (position : Nat) : (arguments : List Expr) →
    Within (Expr.allSpans arguments) (inferCall env scope parameters position arguments).2
  | [] => by
    simp only [inferCall]
    exact .ok ()
  | argument :: rest => by
    simp only [inferCall, Expr.allSpans]
    have hargument := Within.bind (within_infer (parameters.headD .invalid) argument)
      (f := fun actual => match parameters with
        | [] => .ok ()
        | expected :: _ =>
          if actual.agrees expected then .ok ()
          else reject argument.span (.argumentType position expected actual)) fun actual => by
            cases parameters with
            | nil => exact .ok ()
            | cons expected _ =>
              exact .ite (fun _ => .ok ()) fun _ => .reject _ argument.span_mem_spans
    split
    case h_1 d heq =>
      rintro _ ⟨⟩
      exact List.mem_append_left _ (hargument d heq)
    case h_2 =>
      exact (within_inferCall _ _ rest).mono (List.subset_append_right _ _)

theorem within_inferElements (expected : Ty) : (elements : List Expr) →
    Within (Expr.allSpans elements) (inferElements env scope expected elements).2
  | [] => by
    simp only [inferElements]
    exact .ok ()
  | element :: rest => by
    simp only [inferElements, Expr.allSpans]
    have helement := Within.bind (within_infer expected element)
      (f := fun actual => if actual.agrees expected then .ok ()
        else reject element.span (.typeMismatchMany expected actual)) fun actual =>
          .ite (fun _ => .ok ()) fun _ => .reject _ element.span_mem_spans
    split
    case h_1 d heq =>
      rintro _ ⟨⟩
      exact List.mem_append_left _ (helement d heq)
    case h_2 => exact (within_inferElements expected rest).mono (List.subset_append_right _ _)

theorem within_inferArguments (members : List LayoutMember) (position : Nat) :
    (arguments : List Argument) → ∀ a ∈ inferArguments env scope members position arguments,
      Within (Argument.allSpans arguments) a.outcome
  | [], a, ha => by
    simp only [inferArguments] at ha
    cases ha
  | .mk name value :: rest, a, ha => by
    simp only [inferArguments] at ha
    rw [Argument.allSpans, Argument.spans]
    rcases List.mem_cons.1 ha with rfl | ha
    · refine .expectTy ((within_infer _ value).mono ?_) ?_
      · intro s hs
        simp [hs]
      · simp [value.span_mem_spans]
    · exact (within_inferArguments members _ rest a ha).mono (List.subset_append_right _ _)
end

theorem within_inferPlace (place : Place) : Within place.spans (inferPlace env scope place).2 := by
  refine within_placeAlong env scope List.mem_cons_self fun t => ?_
  exact (within_inferAccessors env scope _ t _).mono (List.subset_cons_self _ _)

end Inference

/-- A check that reports at the spans only. -/
def ReportsAt {α : Type} (spans : List Span) (m : Check α) : Prop :=
  Performs m fun s _ s' => ∃ ds, s'.diagnostics = s.diagnostics ++ ds ∧ ∀ d ∈ ds, d.span ∈ spans

namespace ReportsAt

variable {α β : Type} {spans more : List Span} {m n : Check α}

theorem pure (a : α) : ReportsAt spans (pure a : Check α) :=
  fun _ => ⟨[], (List.append_nil _).symm, by simp⟩

theorem bind {k : α → Check β} (hm : ReportsAt spans m) (hk : ∀ a, ReportsAt spans (k a)) :
    ReportsAt spans (m >>= k) := by
  intro s
  obtain ⟨ds, hds, hspans⟩ := hm s
  obtain ⟨ds', hds', hspans'⟩ := hk (m s).1 (m s).2
  refine ⟨ds ++ ds', ?_, fun d hd => (List.mem_append.1 hd).elim (hspans d) (hspans' d)⟩
  rw [← List.append_assoc, ← hds]
  exact hds'

theorem ite {c : Prop} [Decidable c] (hm : ReportsAt spans m) (hn : ReportsAt spans n) :
    ReportsAt spans (if c then m else n) := by
  split
  · exact hm
  · exact hn

theorem report {d : Diagnostic} (h : d.span ∈ spans) : ReportsAt spans (report d) :=
  fun _ => ⟨[d], rfl, by simpa using h⟩

theorem settle {outcome : Except Diagnostic α} (h : Within spans outcome) :
    ReportsAt spans (settle outcome) := by
  cases outcome with
  | ok a => exact .pure _
  | error d => exact .bind (.report (h d rfl)) fun _ => .pure _

theorem addLocal (v : StackVariable) : ReportsAt spans (addLocal v) :=
  fun s => ⟨[], (List.append_nil s.diagnostics).symm, by simp⟩

theorem declare {symbol : Symbol} (h : symbol.span ∈ spans) : ReportsAt spans (declare symbol) := by
  intro s
  cases hd : s.symbols.declare symbol with
  | ok u =>
    rw [declare_of_ok hd]
    exact ⟨[], (List.append_nil s.diagnostics).symm, by simp⟩
  | error existing =>
    rw [declare_of_error hd]
    exact ⟨[_], rfl, by simpa using h⟩

theorem env {ctx : Context} {k : Env → Check α} (hk : ∀ e, ReportsAt spans (k e)) :
    ReportsAt spans (Typing.env ctx >>= k) :=
  .bind (fun s => ⟨[], (List.append_nil s.diagnostics).symm, by simp⟩) hk

theorem mapM {g : α → Check β} {l : List α} (h : ∀ x ∈ l, ReportsAt spans (g x)) :
    ReportsAt spans (l.mapM g) := by
  induction l with
  | nil => exact .pure []
  | cons x rest ih =>
    obtain ⟨hx, hrest⟩ := List.forall_mem_cons.1 h
    rw [List.mapM_cons]
    exact .bind hx fun _ => .bind (ih hrest) fun _ => .pure _

theorem forM {g : α → Check Unit} {l : List α} (h : ∀ x ∈ l, ReportsAt spans (g x)) :
    ReportsAt spans (l.forM g) := by
  induction l with
  | nil => exact .pure ()
  | cons x rest ih =>
    obtain ⟨hx, hrest⟩ := List.forall_mem_cons.1 h
    exact .bind hx fun _ => ih hrest

end ReportsAt

section Statements

variable {ctx : Context} {scope : ScopePath} {spans : List Span}

theorem reportsAt_checkExpr (hint : Ty) {e : Expr} (he : e.spans ⊆ spans) :
    ReportsAt spans (checkExpr ctx scope hint e) :=
  .env fun env => .bind (.settle ((within_infer env scope hint e).mono he)) fun _ => .pure _

theorem reportsAt_checkExact (expected : Ty) {e : Expr} (he : e.spans ⊆ spans) :
    ReportsAt spans (checkExact ctx scope expected e) :=
  .env fun env => .bind (.settle (.expectTy ((within_infer env scope expected e).mono he)
    (he e.span_mem_spans))) fun _ => .pure _

theorem reportsAt_declareType {ty : Located Ty} (h : ty.span ∈ spans) :
    ReportsAt spans (declareType ctx ty) :=
  .env fun env => .settle (within_checkTypeExists env h)

theorem reportsAt_checkLet (span : Span) (allocate : Bool) {ty : Located Ty} {name : Located String}
    {value : Expr} (mangled : Option String) (hty : ty.span ∈ spans) (hname : name.span ∈ spans)
    (hvalue : value.spans ⊆ spans) :
    ReportsAt spans (checkLet ctx scope span allocate ty name value mangled) := by
  refine .bind (reportsAt_declareType hty) fun declared => ?_
  cases declared with
  | none => exact .pure _
  | some _ =>
    refine .bind (reportsAt_checkExpr ty.value hvalue) fun (checked, actual) => ?_
    refine .bind (.declare hname) fun ok => .ite (.bind (.addLocal _) fun _ => ?_) (.pure _)
    cases actual with
    | none => exact .pure _
    | some t =>
      exact .ite (.bind (.report (hvalue value.span_mem_spans)) fun _ => .pure _) (.pure _)

theorem reportsAt_checkMut (span : Span) {target : Located Place} {value : Expr}
    (hspan : target.span ∈ spans) (htarget : target.value.spans ⊆ spans)
    (hvalue : value.spans ⊆ spans) : ReportsAt spans (checkMut ctx scope span target value) := by
  refine .ite (.bind (.report hspan) fun _ => .pure _) (.env fun env => ?_)
  refine .bind (.settle ((within_inferPlace env scope target.value).mono htarget))
    fun expected => ?_
  cases expected with
  | none => exact .pure _
  | some t => exact .bind (reportsAt_checkExact t hvalue) fun _ => .pure _

theorem reportsAt_checkCall (span : Span) {value : Expr} (hvalue : value.spans ⊆ spans) :
    ReportsAt spans (checkCall ctx scope span value) :=
  .ite (.bind (reportsAt_checkExpr .invalid hvalue) fun _ => .pure _)
    (.bind (.report (hvalue value.span_mem_spans)) fun _ => .pure _)

theorem reportsAt_checkCollect (span : Span) {value : Expr} (hvalue : value.spans ⊆ spans) :
    ReportsAt spans (checkCollect ctx scope span value) := by
  refine .bind (reportsAt_checkExpr .invalid hvalue) fun (checked, result) => ?_
  cases result with
  | none => exact .pure _
  | some t => exact .ite (.bind (.report (hvalue value.span_mem_spans)) fun _ => .pure _) (.pure _)

theorem reportsAt_checkReturn (result : Located Ty) {span : Span} {value : Option Expr}
    (hspan : span ∈ spans) (hvalue : (value.map Expr.spans).getD [] ⊆ spans) :
    ReportsAt spans (checkReturn ctx scope result span value) := by
  cases value with
  | none => exact .ite (.bind (.report hspan) fun _ => .pure _) (.pure _)
  | some value =>
    have hat : value.span ∈ spans := hvalue value.span_mem_spans
    refine .ite (.bind (.report hat) fun _ => .pure _) ?_
    refine .bind (reportsAt_checkExpr result.value hvalue) fun (checked, actual) => ?_
    cases actual with
    | none => exact .pure _
    | some t => exact .ite (.bind (.report hat) fun _ => .pure _) (.pure _)

theorem reportsAt_checkInLoop (inLoop : Bool) {span : Span} (keyword : String)
    (hspan : span ∈ spans) : ReportsAt spans (checkInLoop inLoop span keyword) :=
  .ite (.report hspan) (.pure ())

theorem reportsAt_declareIterator {iterator : Located String} (h : iterator.span ∈ spans) :
    ReportsAt spans (declareIterator scope iterator) :=
  .bind (.declare h) fun _ => .bind (.addLocal _) fun _ => .pure _

mutual
theorem reportsAt_checkStmt (result : Located Ty) (scope : ScopePath) (inLoop : Bool)
    (counters : SegmentCounters) :
    (st : Stmt) → st.spans ⊆ spans → ReportsAt spans (checkStmt ctx result scope inLoop counters st)
  | .let_ span allocate ty name value mangled, h => by
    simp only [Stmt.spans, List.cons_subset] at h
    unfold checkStmt
    exact .bind (reportsAt_checkLet span allocate mangled h.2.1 h.2.2.1 h.2.2.2) fun _ => .pure _
  | .mut_ span target value, h => by
    simp only [Stmt.spans, List.cons_subset, List.append_subset] at h
    unfold checkStmt
    exact .bind (reportsAt_checkMut span h.2.1 h.2.2.1 h.2.2.2) fun _ => .pure _
  | .call span value, h => by
    simp only [Stmt.spans, List.cons_subset] at h
    unfold checkStmt
    exact .bind (reportsAt_checkCall span h.2) fun _ => .pure _
  | .collect span value, h => by
    simp only [Stmt.spans, List.cons_subset] at h
    unfold checkStmt
    exact .bind (reportsAt_checkCollect span h.2) fun _ => .pure _
  | .return_ span value, h => by
    simp only [Stmt.spans, List.cons_subset] at h
    unfold checkStmt
    exact .bind (reportsAt_checkReturn result h.1 h.2) fun _ => .pure _
  | .break_ span, h | .continue_ span, h => by
    simp only [Stmt.spans, List.cons_subset] at h
    unfold checkStmt
    exact .bind (reportsAt_checkInLoop inLoop _ h.1) fun _ => .pure _
  | .if_ span condition yes, h => by
    simp only [Stmt.spans, List.cons_subset, List.append_subset] at h
    unfold checkStmt
    exact .bind (reportsAt_checkExact Ty.bool h.2.1) fun _ =>
      .bind (reportsAt_checkBlock result _ inLoop yes h.2.2) fun _ => .pure _
  | .ifElse span condition yes no, h => by
    simp only [Stmt.spans, List.cons_subset, List.append_subset] at h
    unfold checkStmt
    exact .bind (reportsAt_checkExact Ty.bool h.2.1) fun _ =>
      .bind (reportsAt_checkBlock result _ inLoop yes h.2.2.1) fun _ =>
      .bind (reportsAt_checkBlock result _ inLoop no h.2.2.2) fun _ => .pure _
  | .while_ span condition body, h => by
    simp only [Stmt.spans, List.cons_subset, List.append_subset] at h
    unfold checkStmt
    exact .bind (reportsAt_checkExact Ty.bool h.2.1) fun _ =>
      .bind (reportsAt_checkBlock result _ true body h.2.2) fun _ => .pure _
  | .doWhile span body condition, h => by
    simp only [Stmt.spans, List.cons_subset, List.append_subset] at h
    unfold checkStmt
    exact .bind (reportsAt_checkBlock result _ true body h.2.2) fun _ =>
      .bind (reportsAt_checkExact Ty.bool h.2.1) fun _ => .pure _
  | .for_ span iterator start stop body _, h => by
    simp only [Stmt.spans, List.cons_subset, List.append_subset] at h
    unfold checkStmt
    exact .bind (reportsAt_checkExact Ty.int h.2.2.1) fun _ =>
      .bind (reportsAt_checkExact Ty.int h.2.2.2.1) fun _ =>
      .bind (reportsAt_declareIterator h.2.1) fun _ =>
      .bind (reportsAt_checkBlock result _ true body h.2.2.2.2) fun _ => .pure _
  | .block span body, h => by
    simp only [Stmt.spans, List.cons_subset] at h
    unfold checkStmt
    exact .bind (reportsAt_checkBlock result _ inLoop body h.2) fun _ => .pure _

theorem reportsAt_checkStmts (result : Located Ty) (scope : ScopePath) (inLoop : Bool)
    (counters : SegmentCounters) : (statements : List Stmt) → Stmt.allSpans statements ⊆ spans →
      ReportsAt spans (checkStmts ctx result scope inLoop counters statements)
  | [], _ => by
    unfold checkStmts
    exact .pure []
  | first :: rest, h => by
    simp only [Stmt.allSpans, List.append_subset] at h
    unfold checkStmts
    exact .bind (reportsAt_checkStmt result scope inLoop counters first h.1) fun r =>
      .bind (reportsAt_checkStmts result scope inLoop r.2 rest h.2) fun _ => .pure _

theorem reportsAt_checkBlock (result : Located Ty) (scope : ScopePath) (inLoop : Bool) :
    (b : Block) → b.spans ⊆ spans → ReportsAt spans (checkBlock ctx result scope inLoop b)
  | .mk _ _ statements, h => by
    simp only [Block.spans, List.cons_subset] at h
    unfold checkBlock
    exact .bind (reportsAt_checkStmts result scope inLoop .zero statements h.2) fun _ => .pure _
end

end Statements

end Typing

/-! Declarations. -/

/-- The spans of what stands before the body. -/
def Function.headerSpans (f : Function) : List Span :=
  f.name.span :: f.result.span :: f.parameters.flatMap fun p => [p.ty.span, p.name.span]

def ForeignParameter.spans : ForeignParameter → List Span
  | .typed ty _ => [ty.span]
  | .variadic span => [span]

def ForeignFunction.spans (f : ForeignFunction) : List Span :=
  f.name.span :: f.result.span :: f.parameters.flatMap ForeignParameter.spans

def Record.spans (r : Record) : List Span :=
  r.name.span :: r.members.map (·.ty.span)

def Embed.spans (e : Embed) : List Span :=
  [e.path.span, e.name.span]

/-- The spans of a program without its bodies. A missing entry point is reported at the origin. -/
def Program.declarationSpans (p : Program) : List Span :=
  Span.origin :: (p.records.flatMap Record.spans ++ p.functions.flatMap Function.headerSpans
    ++ p.foreign.flatMap ForeignFunction.spans ++ p.embeds.flatMap Embed.spans)

namespace Typing

variable {ctx : Context} {spans : List Span}

theorem reportsAt_checkFunction {f : Function} (hheader : f.headerSpans ⊆ spans)
    (hbody : f.body.spans ⊆ spans) : ReportsAt spans (checkFunction ctx f) := by
  have hname : f.name.span ∈ spans := hheader (by simp [Function.headerSpans])
  have hparameters : ∀ p ∈ f.parameters, p.name.span ∈ spans := fun p hp =>
    hheader (by simp only [Function.headerSpans, List.mem_cons, List.mem_flatMap]; grind)
  refine .bind (fun s => ⟨[], (List.append_nil s.diagnostics).symm, by simp⟩) fun _ => ?_
  refine .bind (.mapM fun p hp => .bind (.declare (hparameters p hp)) fun _ => .pure _) fun vs => ?_
  refine .bind (reportsAt_checkBlock f.result _ false f.body hbody) fun body => ?_
  have hlast : ReportsAt spans (do
      let s ← get
      return { f with body := body, stack := ⟨vs, s.locals⟩ } : Check Function) :=
    fun s => ⟨[], (List.append_nil s.diagnostics).symm, by simp⟩
  exact .ite (.bind (.report hname) fun _ => hlast) hlast

theorem reportsAt_declareType_discard {ty : Located Ty} (h : ty.span ∈ spans) :
    ReportsAt spans (do let _ ← declareType ctx ty) :=
  .bind (reportsAt_declareType h) fun _ => .pure ()

theorem reportsAt_checkRecords {records : List Record} (errors : List (Nat × LayoutError))
    (h : ∀ r ∈ records, r.spans ⊆ spans) : ReportsAt spans (checkRecords ctx records errors) := by
  refine .bind (.forM fun r hr => .forM fun m hm => reportsAt_declareType_discard ?_) fun _ =>
    .forM fun x _ => ?_
  · exact h r hr (by simp only [Record.spans, List.mem_cons, List.mem_map]; grind)
  · dsimp only
    cases hr : records[x.1]? with
    | none => exact .pure ()
    | some r =>
      have hname : r.name.span ∈ spans := h r (List.mem_of_getElem? hr) (by simp [Record.spans])
      cases hd : recordDiagnostic records x.1 r.name x.2 with
      | none =>
        simp only [hd]
        exact .pure ()
      | some d =>
        simp only [hd]
        refine .report ?_
        obtain ⟨index, e⟩ := x
        cases e <;> cases hd <;> exact hname

theorem reportsAt_declareFunction {f : Function} (h : f.headerSpans ⊆ spans) :
    ReportsAt spans (declareFunction ctx f) := by
  refine .bind (.forM fun p hp => reportsAt_declareType_discard (h ?_)) fun _ =>
    .bind (reportsAt_declareType (h (by simp [Function.headerSpans]))) fun _ =>
    .bind (.declare (h (by simp [Function.headerSpans]))) fun _ => .pure ()
  simp only [Function.headerSpans, List.mem_cons, List.mem_flatMap]
  grind

theorem reportsAt_checkForeignParameters {parameters : List ForeignParameter}
    (h : ∀ q ∈ parameters, q.spans ⊆ spans) :
    ReportsAt spans (checkForeignParameters ctx parameters) := by
  induction parameters with
  | nil => exact .pure ()
  | cons q rest ih =>
    obtain ⟨hq, hrest⟩ := List.forall_mem_cons.1 h
    cases q with
    | typed ty name =>
      exact .bind (reportsAt_declareType (hq (by simp [ForeignParameter.spans]))) fun _ => ih hrest
    | variadic span =>
      unfold checkForeignParameters
      refine .ite (.bind (.report (hq ?_)) fun _ => ih hrest) (ih hrest)
      simp [ForeignParameter.spans, problemAt]

theorem reportsAt_declareForeign {f : ForeignFunction} (h : f.spans ⊆ spans) :
    ReportsAt spans (declareForeign ctx f) := by
  refine .bind (reportsAt_checkForeignParameters fun q hq s hs => h ?_) fun _ =>
    .bind (reportsAt_declareType (h (by simp [ForeignFunction.spans]))) fun _ =>
    .bind (.declare (h (by simp [ForeignFunction.spans]))) fun _ => .pure ()
  simp only [ForeignFunction.spans, List.mem_cons, List.mem_flatMap]
  grind

theorem reportsAt_declareEmbed (isFile : String → Bool) (base : String) {e : Embed}
    (h : e.spans ⊆ spans) : ReportsAt spans (declareEmbed isFile base e) := by
  have hdeclare (e' : Embed) : ReportsAt spans
      (do let _ ← declare ⟨e.name.value, e.name.value, Ty.bytes, e.name.span, .embed⟩; return e') :=
    .bind (.declare (h (by simp [Embed.spans]))) fun _ => .pure e'
  exact .ite (.bind (.report (h (by simp [Embed.spans, problemAt]))) fun _ => hdeclare _)
    (hdeclare _)

theorem reportsAt_checkEntryPoint {functions : List Function} (horigin : Span.origin ∈ spans)
    (h : ∀ f ∈ functions, f.headerSpans ⊆ spans) :
    ReportsAt spans (checkEntryPoint functions) := by
  unfold checkEntryPoint
  cases hmain : functions.find? (·.name.value == "main") with
  | none => exact .report horigin
  | some main =>
    have hname : main.name.span ∈ spans :=
      h main (List.mem_of_find?_eq_some hmain) (by simp [Function.headerSpans])
    exact .ite (.report hname) (.pure ())

/-- What is checked before the bodies. -/
def declareAll (ctx : Context) (isFile : String → Bool) (base : String) (p : Program)
    (errors : List (Nat × LayoutError)) : Check (List Embed) := do
  checkRecords ctx p.records errors
  p.functions.forM (declareFunction ctx)
  p.foreign.forM (declareForeign ctx)
  let embeds ← p.embeds.mapM (declareEmbed isFile base)
  checkEntryPoint p.functions
  return embeds

theorem checkDeclarations_eq (isFile : String → Bool) (base : String) (p : Program)
    (errors : List (Nat × LayoutError)) : checkDeclarations ctx isFile base p errors = (do
      let embeds ← declareAll ctx isFile base p errors
      let functions ← p.functions.mapM (checkFunction ctx)
      return { p with functions, embeds }) := by
  simp only [checkDeclarations, declareAll, bind_assoc, pure_bind]

theorem reportsAt_declareAll (isFile : String → Bool) (base : String) (p : Program)
    (errors : List (Nat × LayoutError)) :
    ReportsAt p.declarationSpans (declareAll ctx isFile base p errors) := by
  have hfunctions : ∀ f ∈ p.functions, f.headerSpans ⊆ p.declarationSpans := by
    intro f hf s hs
    simp only [Program.declarationSpans, List.mem_cons, List.mem_append, List.mem_flatMap]
    grind
  refine .bind (reportsAt_checkRecords errors fun r hr s hs => ?_) fun _ =>
    .bind (.forM fun f hf => reportsAt_declareFunction (hfunctions f hf)) fun _ =>
    .bind (.forM fun f hf => reportsAt_declareForeign fun s hs => ?_) fun _ =>
    .bind (.mapM fun e he => reportsAt_declareEmbed isFile base fun s hs => ?_) fun embeds =>
    .bind (reportsAt_checkEntryPoint (by simp [Program.declarationSpans]) hfunctions) fun _ =>
    .pure embeds
  all_goals
    simp only [Program.declarationSpans, List.mem_cons, List.mem_append, List.mem_flatMap]
    grind

end Typing

end RegionCompiler
