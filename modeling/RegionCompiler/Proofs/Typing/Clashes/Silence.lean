import RegionCompiler.Proofs.Typing.Located

/-! Only declarations find names taken. Inference never says so, and no check does that declares
nothing. -/
namespace RegionCompiler.Typing

def Problem.isClash : Problem → Bool
  | .alreadyExists _ => true
  | _ => false

/-- Whether the problem is a name that is taken. -/
def Diagnostic.isClash (d : Diagnostic) : Bool := d.problem.isClash

/-- An outcome that does not say that a name is taken. -/
def Clashless {α : Type} (outcome : Except Diagnostic α) : Prop :=
  ∀ d, outcome = .error d → d.isClash = false

namespace Clashless

variable {α β : Type} {outcome other : Except Diagnostic α} {d : Diagnostic}

theorem ok (a : α) : Clashless (.ok a : Except Diagnostic α) := nofun

theorem reject (span : Span) {problem : Problem} (h : problem.isClash = false) :
    Clashless (Typing.reject span problem : Except Diagnostic α) := by
  rintro _ ⟨⟩
  exact h

theorem pass (h : Clashless outcome) (heq : outcome = .error d) :
    Clashless (.error d : Except Diagnostic β) := by
  rintro _ ⟨⟩
  exact h d heq

theorem ite {c : Prop} [Decidable c] (h : Clashless outcome) (h' : Clashless other) :
    Clashless (if c then outcome else other) := by
  split
  · exact h
  · exact h'

theorem bind {f : α → Except Diagnostic β} (h : Clashless outcome) (hf : ∀ a, Clashless (f a)) :
    Clashless (outcome.bind f) := by
  cases outcome with
  | ok a => exact hf a
  | error d => exact h.pass rfl

theorem map (h : Clashless outcome) (f : α → β) : Clashless (outcome.map f) := by
  cases outcome with
  | ok a => exact ok (f a)
  | error d => exact h.pass rfl

theorem expectTy {actual : Result} (h : Clashless actual) (span : Span) (expected : Ty) :
    Clashless (expectTy span expected actual) :=
  h.bind fun _ => .ite (.ok ()) (.reject span rfl)

end Clashless

section Inference

variable (env : Env) (scope : ScopePath)

theorem clashless_checkTypeExists (ty : Located Ty) : Clashless (checkTypeExists env ty) := by
  unfold checkTypeExists
  split
  · exact .ite (.ok ()) (.reject _ rfl)
  · exact .reject _ rfl

theorem clashless_unaryResult (op : UnaryOp) (span : Span) (t : Ty) :
    Clashless (unaryResult op span t) := by
  cases op <;> exact .ite (.ok t) (.reject span rfl)

theorem clashless_binaryResult (op : Located BinaryOp) (span : Span) (lhs rhs : Ty) :
    Clashless (binaryResult op span lhs rhs) :=
  .ite (.reject span rfl) (.ite (.reject _ rfl) (.ite (.ok _) (.ok _)))

theorem clashless_checkArguments (span : Span) (ty : Ty) (layout : Layout)
    (arguments : List Argument) : Clashless (checkArguments span ty layout arguments) := by
  refine .ite (.reject span rfl) ?_
  dsimp only
  split
  · exact .reject _ rfl
  · exact .ite (.reject span rfl) (.ok ())

theorem clashless_placeAlong (head : Head) (accessors : List Accessor)
    {along : Ty → List Accessor × Result} (halong : ∀ t, Clashless (along t).2) :
    Clashless (placeAlong env scope head accessors along).2.2 := by
  unfold placeAlong bindHead
  cases env.symbols.resolve scope head.name.value with
  | none => exact .reject _ rfl
  | some symbol =>
    have hcalled : Clashless (checkCalled head symbol.ty accessors) :=
      .ite (.reject _ rfl) (.ok ())
    dsimp only
    split
    case h_1 heq => exact hcalled.pass heq
    case h_2 => exact halong _

theorem clashless_settleArguments {checked : List CheckedArgument}
    (h : ∀ a ∈ checked, Clashless a.outcome) : Clashless (settleArguments checked).2 := by
  induction checked with
  | nil => exact .ok ()
  | cons a rest ih =>
    obtain ⟨ha, hrest⟩ := List.forall_mem_cons.1 h
    unfold settleArguments
    cases houtcome : a.outcome with
    | ok _ => exact ih hrest
    | error d => exact ha.pass houtcome

mutual
theorem clashless_infer (hint : Ty) : (e : Expr) → Clashless (infer env scope hint e).2
  | .integer _ _ | .float _ _ | .boolean _ _ | .string _ _ => by
    simp only [infer]
    exact .ok _
  | .null _ => by
    simp only [infer]
    exact .ite (.ok _) (.reject _ rfl)
  | .variable _ head accessors => by
    simp only [infer]
    exact clashless_placeAlong env scope head accessors fun t =>
      clashless_inferAccessors _ t accessors
  | .parenthesized _ inner => by
    simp only [infer]
    exact clashless_infer hint inner
  | .array _ [] => by
    simp only [infer]
    exact .ite (.ok _) (.ite (.ok _) (.reject _ rfl))
  | .array _ (first :: rest) => by
    simp only [infer]
    split
    case h_1 d heq => exact (clashless_infer _ first).pass heq
    case h_2 t _ => exact (clashless_inferElements t rest).map _
  | .allocation _ size => by
    simp only [infer]
    split
    · exact ((clashless_infer Ty.int size).expectTy _ _).map _
    · exact .reject _ rfl
    · exact .reject _ rfl
  | .addressOf _ _ head accessors => by
    simp only [infer]
    split
    · exact .reject _ rfl
    · exact (clashless_placeAlong env scope head accessors fun t =>
        clashless_inferAccessors _ t accessors).map _
  | .unary _ op operand => by
    simp only [infer]
    exact (clashless_infer hint operand).bind (clashless_unaryResult op.value _)
  | .binary _ op lhs rhs => by
    simp only [infer]
    split
    case h_1 d heq => exact (clashless_infer _ lhs).pass heq
    case h_2 t _ => exact (clashless_infer t rhs).bind (clashless_binaryResult op _ t)
  | .conversion _ inner target => by
    simp only [infer]
    split
    case h_1 d heq => exact (clashless_checkTypeExists env target).pass heq
    case h_2 => exact (clashless_infer .invalid inner).bind fun t => .ite (.reject _ rfl) (.ok _)
  | .construct node record arguments => by
    simp only [infer]
    split
    case h_1 => exact .reject _ rfl
    case h_2 layout _ =>
      split
      case h_1 d heq => exact (clashless_checkArguments _ _ layout arguments).pass heq
      case h_2 =>
        refine (clashless_settleArguments fun a ha => ?_).map _
        exact clashless_inferArguments _ _ arguments a (List.mem_mergeSort.1 ha)

theorem clashless_inferAccessors (name : String) (running : Ty) : (accessors : List Accessor) →
    Clashless (inferAccessors env scope name running accessors).2
  | [] => by
    simp only [inferAccessors]
    exact .ok _
  | .call node arguments :: rest => by
    simp only [inferAccessors]
    split
    case h_1 result parameters variadic _ =>
      have hcount : Clashless
          (checkCount node.span name parameters.length arguments.length variadic) :=
        .ite (.ok ()) (.reject _ rfl)
      split
      case h_1 d heq => exact hcount.pass heq
      case h_2 =>
        split
        case h_1 d heq => exact (clashless_inferCall parameters 1 arguments).pass heq
        case h_2 => exact clashless_inferAccessors name result rest
    case h_2 => exact .reject _ rfl
  | .index _ position :: rest => by
    simp only [inferAccessors]
    split
    case h_1 element _ =>
      split
      case h_1 d heq => exact ((clashless_infer Ty.int position).expectTy _ _).pass heq
      case h_2 => exact clashless_inferAccessors name element rest
    case h_2 => exact .reject _ rfl
  | .dereference _ :: rest => by
    simp only [inferAccessors]
    split
    case h_1 target => exact clashless_inferAccessors name target rest
    case h_2 => exact .reject _ rfl
  | .member _ _ :: rest => by
    simp only [inferAccessors]
    split
    case h_1 t _ => exact clashless_inferAccessors name t rest
    case h_2 => exact .reject _ rfl

theorem clashless_inferCall (parameters : List Ty) (position : Nat) : (arguments : List Expr) →
    Clashless (inferCall env scope parameters position arguments).2
  | [] => by
    simp only [inferCall]
    exact .ok ()
  | argument :: rest => by
    simp only [inferCall]
    split
    case h_1 d heq =>
      refine Clashless.pass ((clashless_infer _ argument).bind fun actual => ?_) heq
      split
      · exact .ok ()
      · exact .ite (.ok ()) (.reject _ rfl)
    case h_2 => exact clashless_inferCall _ _ rest

theorem clashless_inferElements (expected : Ty) : (elements : List Expr) →
    Clashless (inferElements env scope expected elements).2
  | [] => by
    simp only [inferElements]
    exact .ok ()
  | element :: rest => by
    simp only [inferElements]
    split
    case h_1 d heq =>
      exact ((clashless_infer expected element).bind fun _ =>
        .ite (.ok ()) (.reject _ rfl)).pass heq
    case h_2 => exact clashless_inferElements expected rest

theorem clashless_inferArguments (members : List LayoutMember) (position : Nat) :
    (arguments : List Argument) → ∀ a ∈ inferArguments env scope members position arguments,
      Clashless a.outcome
  | [], a, ha => by
    simp only [inferArguments] at ha
    cases ha
  | .mk name value :: rest, a, ha => by
    simp only [inferArguments] at ha
    rcases List.mem_cons.1 ha with rfl | ha
    · exact (clashless_infer _ value).expectTy _ _
    · exact clashless_inferArguments members _ rest a ha
end

theorem clashless_inferPlace (place : Place) : Clashless (inferPlace env scope place).2 :=
  clashless_placeAlong env scope _ _ fun t => clashless_inferAccessors env scope _ t _

end Inference

variable {α β : Type} {Q : Diagnostic → Prop}

/-- A check that declares nothing and says that a name is taken only as told. -/
def Inert (Q : Diagnostic → Prop) (m : Check α) : Prop :=
  Performs m fun s _ s' => s'.symbols = s.symbols ∧
    ∃ ds, s'.diagnostics = s.diagnostics ++ ds ∧ ∀ d ∈ ds, d.isClash → Q d

namespace Inert

variable {m n : Check α}

theorem pure (a : α) : Inert Q (pure a : Check α) :=
  fun _ => ⟨rfl, [], (List.append_nil _).symm, nofun⟩

theorem bind {k : α → Check β} (hm : Inert Q m) (hk : ∀ a, Inert Q (k a)) : Inert Q (m >>= k) := by
  intro s
  obtain ⟨hsymbols, ds, hds, hQ⟩ := hm s
  obtain ⟨hsymbols', ds', hds', hQ'⟩ := hk (m s).1 (m s).2
  refine ⟨hsymbols'.trans hsymbols, ds ++ ds', ?_,
    fun d hd => (List.mem_append.1 hd).elim (hQ d) (hQ' d)⟩
  rw [← List.append_assoc, ← hds]
  exact hds'

theorem ite {c : Prop} [Decidable c] (hm : Inert Q m) (hn : Inert Q n) :
    Inert Q (if c then m else n) := by
  split
  · exact hm
  · exact hn

theorem report {d : Diagnostic} (h : d.isClash → Q d) : Inert Q (report d) :=
  fun _ => ⟨rfl, [d], rfl, List.forall_mem_singleton.2 h⟩

theorem complain (span : Span) {problem : Problem} (h : problem.isClash = false)
    (related : List (Located Remark)) : Inert Q (Typing.report ⟨span, problem, related⟩) :=
  .report fun hclash => by
    change problem.isClash = true at hclash
    rw [h] at hclash
    cases hclash

theorem settle {outcome : Except Diagnostic α} (h : Clashless outcome) :
    Inert Q (settle outcome) := by
  cases outcome with
  | ok a => exact .pure _
  | error d => exact .bind (.complain d.span (h d rfl) d.related) fun _ => .pure _

theorem env (ctx : Context) : Inert Q (env ctx) :=
  fun s => ⟨rfl, [], (List.append_nil s.diagnostics).symm, nofun⟩

theorem addLocal (v : StackVariable) : Inert Q (addLocal v) :=
  fun s => ⟨rfl, [], (List.append_nil s.diagnostics).symm, nofun⟩

theorem forM {g : α → Check Unit} {l : List α} (h : ∀ a ∈ l, Inert Q (g a)) :
    Inert Q (l.forM g) := by
  induction l with
  | nil => exact .pure ()
  | cons a rest ih =>
    obtain ⟨ha, hrest⟩ := List.forall_mem_cons.1 h
    exact .bind ha fun _ => ih hrest

end Inert

section Checks

variable {ctx : Context} {scope : ScopePath}

theorem inert_checkExpr (hint : Ty) (e : Expr) : Inert Q (checkExpr ctx scope hint e) :=
  .bind (.env ctx) fun env => .bind (.settle (clashless_infer env scope hint e)) fun _ => .pure _

theorem inert_checkExact (expected : Ty) (e : Expr) : Inert Q (checkExact ctx scope expected e) :=
  .bind (.env ctx) fun env =>
    .bind (.settle ((clashless_infer env scope expected e).expectTy _ _)) fun _ => .pure _

theorem inert_declareType (ty : Located Ty) : Inert Q (declareType ctx ty) :=
  .bind (.env ctx) fun env => .settle (clashless_checkTypeExists env ty)

theorem inert_checkMut (span : Span) (target : Located Place) (value : Expr) :
    Inert Q (checkMut ctx scope span target value) := by
  refine .ite (.bind (.complain _ rfl _) fun _ => .pure _) (.bind (.env ctx) fun env => ?_)
  refine .bind (.settle (clashless_inferPlace env scope target.value)) fun expected => ?_
  cases expected with
  | none => exact .pure _
  | some t => exact .bind (inert_checkExact t value) fun _ => .pure _

theorem inert_checkCall (span : Span) (value : Expr) : Inert Q (checkCall ctx scope span value) :=
  .ite (.bind (inert_checkExpr .invalid value) fun _ => .pure _)
    (.bind (.complain _ rfl _) fun _ => .pure _)

theorem inert_checkCollect (span : Span) (value : Expr) :
    Inert Q (checkCollect ctx scope span value) := by
  refine .bind (inert_checkExpr .invalid value) fun (checked, result) => ?_
  cases result with
  | none => exact .pure _
  | some t => exact .ite (.bind (.complain _ rfl _) fun _ => .pure _) (.pure _)

theorem inert_checkReturn (result : Located Ty) (span : Span) (value : Option Expr) :
    Inert Q (checkReturn ctx scope result span value) := by
  cases value with
  | none => exact .ite (.bind (.complain _ rfl _) fun _ => .pure _) (.pure _)
  | some value =>
    refine .ite (.bind (.complain _ rfl _) fun _ => .pure _) ?_
    refine .bind (inert_checkExpr result.value value) fun (checked, actual) => ?_
    cases actual with
    | none => exact .pure _
    | some t => exact .ite (.bind (.complain _ rfl _) fun _ => .pure _) (.pure _)

theorem inert_checkInLoop (inLoop : Bool) (span : Span) (keyword : String) :
    Inert Q (checkInLoop inLoop span keyword) :=
  .ite (.complain _ rfl _) (.pure ())

theorem inert_discard (ty : Located Ty) : Inert Q (do let _ ← declareType ctx ty) :=
  .bind (inert_declareType ty) fun _ => .pure ()

theorem inert_checkForeignParameters (parameters : List ForeignParameter) :
    Inert Q (checkForeignParameters ctx parameters) := by
  induction parameters with
  | nil => exact .pure ()
  | cons q rest ih =>
    cases q with
    | typed ty name => exact .bind (inert_declareType ty) fun _ => ih
    | variadic span =>
      unfold checkForeignParameters
      exact .ite (.bind (.complain _ rfl _) fun _ => ih) ih

theorem inert_checkEntryPoint (functions : List Function) :
    Inert Q (checkEntryPoint functions) := by
  unfold checkEntryPoint
  cases functions.find? (·.name.value == "main") with
  | none => exact .complain _ rfl _
  | some main => exact .ite (.complain _ rfl _) (.pure ())

theorem inert_checkRecords (records : List Record) (errors : List (Nat × LayoutError))
    (hQ : ∀ index r name d, (index, .duplicateType name) ∈ errors → records[index]? = some r →
      recordDiagnostic records index r.name (.duplicateType name) = some d → Q d) :
    Inert Q (checkRecords ctx records errors) := by
  refine .bind (.forM fun r _ => .forM fun m _ => inert_discard m.ty) fun _ =>
    .forM fun (index, e) he => ?_
  dsimp only
  cases hr : records[index]? with
  | none => exact .pure ()
  | some r =>
    dsimp only
    split
    case h_2 => exact .pure ()
    case h_1 d hd =>
      cases e with
      | duplicateType name => exact .report fun _ => hQ index r name d he hr hd
      | unknownType => cases hd
      | notMaterializable | cycle | overflow =>
        cases hd
        exact .complain _ rfl _

end Checks

end RegionCompiler.Typing
