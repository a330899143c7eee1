import RegionCompiler.Proofs.Scope.Lexical

/-! Inference looks up the names of an expression one after the other. Those it comes to are
recorded with what they mean; it stops at the first one that means nothing. -/
namespace RegionCompiler

mutual
theorem Expr.heads_tidy : (e : Expr) → e.Tidy → ∀ h ∈ e.heads, h.Tidy
  | .integer _ _, _ | .float _ _, _ | .boolean _ _, _ | .string _ _, _ | .null _, _ => by
    simp [Expr.heads]
  | .variable _ head accessors, htidy => by
    intro h hh
    rw [Expr.heads] at hh
    rcases List.mem_cons.1 hh with rfl | hh
    · exact htidy.1
    · exact Accessor.allHeads_tidy accessors htidy.2 h hh
  | .addressOf _ _ head accessors, htidy => by
    intro h hh
    rw [Expr.heads] at hh
    rcases List.mem_cons.1 hh with rfl | hh
    · exact htidy.1
    · exact Accessor.allHeads_tidy accessors htidy.2 h hh
  | .parenthesized _ inner, htidy => by
    rw [Expr.heads]
    exact Expr.heads_tidy inner htidy
  | .array _ elements, htidy => by
    rw [Expr.heads]
    exact Expr.allHeads_tidy elements htidy
  | .allocation _ size, htidy => by
    rw [Expr.heads]
    exact Expr.heads_tidy size htidy
  | .unary _ _ operand, htidy => by
    rw [Expr.heads]
    exact Expr.heads_tidy operand htidy
  | .binary _ _ lhs rhs, htidy => by
    intro h hh
    rw [Expr.heads] at hh
    rcases List.mem_append.1 hh with hh | hh
    · exact Expr.heads_tidy lhs htidy.1 h hh
    · exact Expr.heads_tidy rhs htidy.2 h hh
  | .conversion _ inner _, htidy => by
    rw [Expr.heads]
    exact Expr.heads_tidy inner htidy.1
  | .construct _ _ arguments, htidy => by
    rw [Expr.heads]
    exact Argument.allHeads_tidy arguments htidy

theorem Expr.allHeads_tidy : (es : List Expr) → Expr.AllTidy es → ∀ h ∈ Expr.allHeads es, h.Tidy
  | [], _ => by simp [Expr.allHeads]
  | e :: rest, htidy => by
    intro h hh
    rw [Expr.allHeads] at hh
    rcases List.mem_append.1 hh with hh | hh
    · exact Expr.heads_tidy e htidy.1 h hh
    · exact Expr.allHeads_tidy rest htidy.2 h hh

theorem Accessor.heads_tidy : (a : Accessor) → a.Tidy → ∀ h ∈ a.heads, h.Tidy
  | .call _ arguments, htidy => by
    rw [Accessor.heads]
    exact Expr.allHeads_tidy arguments htidy
  | .index _ position, htidy => by
    rw [Accessor.heads]
    exact Expr.heads_tidy position htidy
  | .dereference _, _ | .member _ _, _ => by simp [Accessor.heads]

theorem Accessor.allHeads_tidy :
    (as : List Accessor) → Accessor.AllTidy as → ∀ h ∈ Accessor.allHeads as, h.Tidy
  | [], _ => by simp [Accessor.allHeads]
  | a :: rest, htidy => by
    intro h hh
    rw [Accessor.allHeads] at hh
    rcases List.mem_append.1 hh with hh | hh
    · exact Accessor.heads_tidy a htidy.1 h hh
    · exact Accessor.allHeads_tidy rest htidy.2 h hh

theorem Argument.allHeads_tidy :
    (as : List Argument) → Argument.AllTidy as → ∀ h ∈ Argument.allHeads as, h.Tidy
  | [], _ => by simp [Argument.allHeads]
  | .mk _ value :: rest, htidy => by
    intro h hh
    rw [Argument.allHeads] at hh
    rcases List.mem_append.1 hh with hh | hh
    · exact Expr.heads_tidy value htidy.1 h hh
    · exact Argument.allHeads_tidy rest htidy.2 h hh
end

theorem Argument.allHeads_cons (a : Argument) (rest : List Argument) :
    Argument.allHeads (a :: rest) = a.value.heads ++ Argument.allHeads rest := by
  cases a
  rw [Argument.allHeads]
  rfl

/-- What is recorded of a name that means the symbol, or nothing at all. -/
def Head.Means (h : Head) : Option Symbol → Prop
  | some s => h.ty = some s.ty ∧ h.binding = some ⟨s.mangled, s.kind⟩
  | none => h.ty = some .invalid ∧ h.binding = none

namespace Typing

def Problem.isMissing : Problem → Bool
  | .variableDoesntExist _ => true
  | _ => false

/-- Whether the problem is a name without a declaration. -/
def Diagnostic.isMissing (d : Diagnostic) : Bool := d.problem.isMissing

/-- The problem with a name that was looked up and means nothing. -/
def missing (h : Head) (meaning : Option Symbol) : Option Diagnostic :=
  if h.ty.isSome && meaning.isNone then
    some (problemAt h.name.span (.variableDoesntExist h.name.value))
  else none

/-- Names with their meanings, and the problems met on the way. What was looked up is recorded as
what it means, the problems name exactly those that mean nothing, and without a problem all of
them are looked up. -/
structure Resolves (uses : List (Head × Option Symbol)) (problems : List Diagnostic) : Prop where
  names : ∀ u ∈ uses, IsName u.1.name.value
  means : ∀ u ∈ uses, u.1.ty.isSome → u.1.Means u.2
  missing : problems.filter Diagnostic.isMissing = uses.filterMap fun u => missing u.1 u.2
  visited : problems = [] → ∀ u ∈ uses, u.1.ty.isSome

/-- Names that were not looked up. -/
def Untouched (uses : List (Head × Option Symbol)) : Prop :=
  ∀ u ∈ uses, IsName u.1.name.value ∧ u.1.ty = none

variable {uses others : List (Head × Option Symbol)} {problems more : List Diagnostic}
  {d : Diagnostic}

theorem Untouched.missing (h : Untouched uses) :
    (uses.filterMap fun u => Typing.missing u.1 u.2) = [] := by
  rw [List.filterMap_eq_nil_iff]
  intro u hu
  simp [Typing.missing, (h u hu).2]

namespace Resolves

theorem nil (h : ∀ d ∈ problems, d.isMissing = false) : Resolves [] problems := by
  refine ⟨by simp, by simp, ?_, by simp⟩
  rw [List.filterMap_nil, List.filter_eq_nil_iff]
  simpa using h

theorem append (h : Resolves uses problems) (h' : Resolves others more) :
    Resolves (uses ++ others) (problems ++ more) where
  names u hu := (List.mem_append.1 hu).elim (h.names u) (h'.names u)
  means u hu := (List.mem_append.1 hu).elim (h.means u) (h'.means u)
  missing := by rw [List.filter_append, List.filterMap_append, h.missing, h'.missing]
  visited hnil u hu := by
    obtain ⟨hfirst, hsecond⟩ := List.append_eq_nil_iff.1 hnil
    exact (List.mem_append.1 hu).elim (h.visited hfirst u) (h'.visited hsecond u)

theorem stop (h : Resolves uses (d :: problems)) (h' : Untouched others) :
    Resolves (uses ++ others) (d :: problems) where
  names u hu := (List.mem_append.1 hu).elim (h.names u) fun hu => (h' u hu).1
  means u hu := (List.mem_append.1 hu).elim (h.means u) fun hu hty => by
    simp [(h' u hu).2] at hty
  missing := by rw [List.filterMap_append, h'.missing, List.append_nil, h.missing]
  visited hnil := by cases hnil

theorem untouched (h : Untouched uses) (hd : d.isMissing = false) : Resolves uses [d] := by
  have hnil : Resolves [] [d] := .nil (by simpa using hd)
  exact hnil.stop h

theorem fails (h : Resolves uses []) (hd : d.isMissing = false) : Resolves uses [d] where
  names := h.names
  means := h.means
  missing := by
    rw [← h.missing]
    simp [hd]
  visited hnil := by cases hnil

end Resolves

/-- The problem of an outcome, if it has one. -/
def problemsOf {α : Type} : Except Diagnostic α → List Diagnostic
  | .ok _ => []
  | .error d => [d]

/-- An outcome that does not say that a name means nothing. -/
def Plain {α : Type} (outcome : Except Diagnostic α) : Prop :=
  ∀ d, outcome = .error d → d.isMissing = false

@[simp] theorem problemsOf_map {α β : Type} (f : α → β) (outcome : Except Diagnostic α) :
    problemsOf (outcome.map f) = problemsOf outcome := by
  cases outcome <;> rfl

theorem Resolves.bind {α β : Type} {outcome : Except Diagnostic α}
    {f : α → Except Diagnostic β} (h : Resolves uses (problemsOf outcome))
    (hf : ∀ a, Plain (f a)) : Resolves uses (problemsOf (outcome.bind f)) := by
  cases outcome with
  | error d => exact h
  | ok a =>
    change Resolves uses (problemsOf (f a))
    cases hfa : f a with
    | ok b => exact h
    | error d => exact h.fails (hf a d hfa)

theorem Resolves.of_bind {α β : Type} {outcome : Except Diagnostic α}
    {f : α → Except Diagnostic β} {result : Except Diagnostic β}
    (h : Resolves uses (problemsOf outcome)) (heq : outcome.bind f = result)
    (hf : ∀ a, Plain (f a)) : Resolves uses (problemsOf result) :=
  heq ▸ h.bind hf

theorem Plain.ok {α : Type} (a : α) : Plain (.ok a : Except Diagnostic α) := by
  intro d h
  cases h

theorem Plain.reject {α : Type} (span : Span) {problem : Problem} (h : problem.isMissing = false) :
    Plain (reject span problem : Except Diagnostic α) := by
  intro d hd
  cases hd
  exact h

theorem Plain.ite {α : Type} {c : Prop} [Decidable c] {a b : Except Diagnostic α} (ha : Plain a)
    (hb : Plain b) : Plain (if c then a else b) := by
  split
  · exact ha
  · exact hb

theorem unaryResult_plain (op : UnaryOp) (span : Span) (t : Ty) :
    Plain (unaryResult op span t) := by
  unfold unaryResult
  cases op <;> exact .ite (.ok _) (.reject _ rfl)

theorem binaryResult_plain (op : Located BinaryOp) (span : Span) (lhs rhs : Ty) :
    Plain (binaryResult op span lhs rhs) :=
  .ite (.reject _ rfl) (.ite (.reject _ rfl) (.ite (.ok _) (.ok _)))

theorem checkArguments_plain (span : Span) (ty : Ty) (layout : Layout) (arguments : List Argument) :
    Plain (checkArguments span ty layout arguments) := by
  refine .ite (.reject _ rfl) ?_
  dsimp only
  split
  · exact .reject _ rfl
  · exact .ite (.reject _ rfl) (.ok _)

theorem checkCalled_plain (head : Head) (t : Ty) (accessors : List Accessor) :
    Plain (checkCalled head t accessors) :=
  .ite (.reject _ rfl) (.ok _)

theorem checkCount_plain (span : Span) (name : String) (expected actual : Nat) (variadic : Bool) :
    Plain (checkCount span name expected actual variadic) :=
  .ite (.ok _) (.reject _ rfl)

theorem checkTypeExists_plain (env : Env) (ty : Located Ty) : Plain (checkTypeExists env ty) := by
  unfold checkTypeExists
  split
  · exact .ite (.ok _) (.reject _ rfl)
  · exact .reject _ rfl

theorem Resolves.expectTy {actual : Result} (h : Resolves uses (problemsOf actual)) (span : Span)
    (expected : Ty) : Resolves uses (problemsOf (expectTy span expected actual)) :=
  h.bind fun _ => .ite (.ok _) (.reject _ rfl)

/-- Names with what they mean in a scope. -/
def usesIn (env : Env) (scope : ScopePath) (heads : List Head) : List (Head × Option Symbol) :=
  heads.map fun h => (h, env.symbols.resolve scope h.name.value)

variable {env : Env} {scope : ScopePath}

@[simp] theorem usesIn_append (heads heads' : List Head) :
    usesIn env scope (heads ++ heads') = usesIn env scope heads ++ usesIn env scope heads' :=
  List.map_append

theorem untouched_of_tidy (env : Env) (scope : ScopePath) {heads : List Head}
    (h : ∀ x ∈ heads, x.Tidy) : Untouched (usesIn env scope heads) := by
  intro u hu
  obtain ⟨x, hx, rfl⟩ := List.mem_map.1 hu
  exact ⟨(h x hx).name, (h x hx).ty⟩

theorem bindHead_resolves (env : Env) (scope : ScopePath) {head : Head} (h : head.Tidy) :
    Resolves (usesIn env scope [(bindHead env scope head).1])
      (problemsOf (bindHead env scope head).2) := by
  unfold bindHead
  cases hs : env.symbols.resolve scope head.name.value with
  | none =>
    have hd : (problemAt head.name.span (.variableDoesntExist head.name.value)).isMissing = true :=
      rfl
    refine ⟨by simpa [usesIn] using h.name, ?_, ?_, by simp [problemsOf, reject]⟩
    · simp [usesIn, hs, Head.Means, h.binding]
    · simp [usesIn, hs, problemsOf, reject, missing, hd]
  | some symbol =>
    refine ⟨by simpa [usesIn] using h.name, ?_, ?_, by simp [usesIn]⟩
    · simp [usesIn, hs, Head.Means]
    · simp [usesIn, hs, problemsOf, missing]

theorem placeAlong_resolves (env : Env) (scope : ScopePath) {head : Head}
    {accessors : List Accessor} {along : Ty → List Accessor × Result} (hhead : head.Tidy)
    (haccessors : Accessor.AllTidy accessors)
    (h : ∀ t, Resolves (usesIn env scope (Accessor.allHeads (along t).1))
      (problemsOf (along t).2)) :
    Resolves (usesIn env scope ((placeAlong env scope head accessors along).1 ::
        Accessor.allHeads (placeAlong env scope head accessors along).2.1))
      (problemsOf (placeAlong env scope head accessors along).2.2) := by
  have hbind := bindHead_resolves env scope hhead
  have huntouched : Untouched (usesIn env scope (Accessor.allHeads accessors)) :=
    untouched_of_tidy env scope (Accessor.allHeads_tidy accessors haccessors)
  unfold placeAlong
  dsimp only
  cases hbase : (bindHead env scope head).2 with
  | error d =>
    rw [hbase] at hbind
    exact hbind.stop huntouched
  | ok t =>
    rw [hbase] at hbind
    dsimp only
    cases hcalled : checkCalled head t accessors with
    | error d => exact (hbind.fails (checkCalled_plain head t accessors d hcalled)).stop huntouched
    | ok _ => exact hbind.append (h t)

/-- An argument of a record expression before and after. -/
structure CheckedArgument.Resolves (env : Env) (scope : ScopePath)
    (a : CheckedArgument) : Prop where
  after : Typing.Resolves (usesIn env scope a.after.value.heads) (problemsOf a.outcome)
  before : ∀ h ∈ a.before.value.heads, h.Tidy

theorem before_tidy {checked : List CheckedArgument} (h : ∀ a ∈ checked, a.Resolves env scope) :
    ∀ x ∈ Argument.allHeads (checked.map CheckedArgument.before), x.Tidy := by
  induction checked with
  | nil => simp [Argument.allHeads]
  | cons a rest ih =>
    intro x hx
    rw [List.map_cons, Argument.allHeads_cons] at hx
    rcases List.mem_append.1 hx with hx | hx
    · exact (h a (by simp)).before x hx
    · exact ih (fun b hb => h b (by simp [hb])) x hx

theorem settleArguments_resolves {checked : List CheckedArgument}
    (h : ∀ a ∈ checked, a.Resolves env scope) :
    Resolves (usesIn env scope (Argument.allHeads (settleArguments checked).1))
      (problemsOf (settleArguments checked).2) := by
  induction checked with
  | nil => exact .nil (by simp [settleArguments, problemsOf])
  | cons a rest ih =>
    have ha := (h a (by simp)).after
    have hothers : ∀ b ∈ rest, b.Resolves env scope := fun b hb => h b (by simp [hb])
    unfold settleArguments
    cases ho : a.outcome with
    | error d =>
      rw [ho] at ha
      dsimp only
      rw [Argument.allHeads_cons, usesIn_append]
      exact ha.stop (untouched_of_tidy env scope (before_tidy hothers))
    | ok _ =>
      rw [ho] at ha
      dsimp only
      rw [Argument.allHeads_cons, usesIn_append]
      exact ha.append (ih hothers)

mutual
theorem infer_resolves (env : Env) (scope : ScopePath) (hint : Ty) : (e : Expr) → e.Tidy →
    Resolves (usesIn env scope (infer env scope hint e).1.heads)
      (problemsOf (infer env scope hint e).2)
  | .integer _ _, _ | .float _ _, _ | .boolean _ _, _ | .string _ _, _ => .nil (by
    simp [infer, problemsOf])
  | .null node, _ => by
    rw [infer]
    dsimp only
    split
    · exact .nil (by simp [problemsOf])
    · exact .untouched (by simp [Untouched, usesIn, Expr.heads]) rfl
  | .variable _ head accessors, htidy => by
    rw [infer]
    dsimp only
    rw [Expr.heads]
    exact placeAlong_resolves env scope htidy.1 htidy.2 fun t =>
      inferAccessors_resolves env scope head.name.value t accessors htidy.2
  | .parenthesized _ inner, htidy => by
    rw [infer]
    dsimp only
    rw [Expr.heads]
    exact infer_resolves env scope hint inner htidy
  | .array node [], _ => by
    rw [infer]
    dsimp only
    split
    · exact .nil (by simp [problemsOf])
    · split
      · exact .nil (by simp [problemsOf])
      · exact .untouched (by simp [Untouched, usesIn, Expr.heads, Expr.allHeads]) rfl
  | .array _ (first :: rest), htidy => by
    rw [infer]
    dsimp only
    rw [Expr.heads, Expr.allHeads, usesIn_append]
    generalize (if hint.isArray then hint.withoutModifier else .invalid) = elementHint
    have hfirst := infer_resolves env scope elementHint first htidy.1
    split
    · rename_i heq
      rw [heq] at hfirst
      exact hfirst.stop (untouched_of_tidy env scope (Expr.allHeads_tidy rest htidy.2))
    · rename_i t heq
      rw [heq] at hfirst
      rw [problemsOf_map]
      exact hfirst.append (inferElements_resolves env scope t rest htidy.2)
  | .allocation _ size, htidy => by
    have huntouched := untouched_of_tidy env scope (Expr.heads_tidy size htidy)
    unfold infer
    dsimp only
    rw [Expr.heads]
    split
    · rw [problemsOf_map]
      exact (infer_resolves env scope Ty.int size htidy).expectTy _ _
    · exact .untouched huntouched rfl
    · exact .untouched huntouched rfl
  | .addressOf _ _ head accessors, htidy => by
    rw [infer]
    split
    · refine .untouched (untouched_of_tidy env scope ?_) rfl
      exact Expr.heads_tidy (.addressOf _ _ head accessors) htidy
    · dsimp only
      rw [Expr.heads, problemsOf_map]
      exact placeAlong_resolves env scope htidy.1 htidy.2 fun t =>
        inferAccessors_resolves env scope head.name.value t accessors htidy.2
  | .unary _ _ operand, htidy => by
    rw [infer]
    dsimp only
    rw [Expr.heads]
    exact (infer_resolves env scope hint operand htidy).bind fun _ => unaryResult_plain _ _ _
  | .binary _ _ lhs rhs, htidy => by
    rw [infer]
    dsimp only
    rw [Expr.heads, usesIn_append]
    generalize (if hint.isPlain "bool" then .invalid else hint) = operandHint
    have hleft := infer_resolves env scope operandHint lhs htidy.1
    split
    · rename_i heq
      rw [heq] at hleft
      exact hleft.stop (untouched_of_tidy env scope (Expr.heads_tidy rhs htidy.2))
    · rename_i t heq
      rw [heq] at hleft
      refine hleft.append ((infer_resolves env scope t rhs htidy.2).bind fun _ => ?_)
      exact binaryResult_plain _ _ _ _
  | .conversion node inner target, htidy => by
    rw [infer]
    split
    · rename_i d heq
      refine .untouched (untouched_of_tidy env scope ?_) (checkTypeExists_plain env target d heq)
      exact Expr.heads_tidy (.conversion _ inner target) htidy
    · dsimp only
      rw [Expr.heads]
      exact (infer_resolves env scope .invalid inner htidy.1).bind fun _ =>
        .ite (.reject _ rfl) (.ok _)
  | .construct node record arguments, htidy => by
    have huntouched := untouched_of_tidy env scope
      (Argument.allHeads_tidy arguments htidy)
    rw [infer]
    dsimp only
    rw [Expr.heads]
    split
    · exact .untouched huntouched rfl
    · split
      · rename_i d heq
        exact .untouched huntouched (checkArguments_plain _ _ _ _ d heq)
      · rename_i layout _ _ _
        dsimp only
        rw [problemsOf_map]
        refine settleArguments_resolves fun a ha => ?_
        exact inferArguments_resolves env scope layout.members 0 arguments htidy a
          (List.mem_mergeSort.1 ha)

theorem inferAccessors_resolves (env : Env) (scope : ScopePath) (name : String) (running : Ty) :
    (accessors : List Accessor) → Accessor.AllTidy accessors →
      Resolves (usesIn env scope
        (Accessor.allHeads (inferAccessors env scope name running accessors).1))
        (problemsOf (inferAccessors env scope name running accessors).2)
  | [], _ => .nil (by simp [inferAccessors, problemsOf])
  | .call node arguments :: rest, htidy => by
    have huntouched := untouched_of_tidy env scope
      (Accessor.allHeads_tidy (.call node arguments :: rest) htidy)
    have hrest := untouched_of_tidy env scope
      (Accessor.allHeads_tidy rest htidy.2)
    unfold inferAccessors
    split
    · rename_i result parameters variadic _
      split
      · rename_i d heq
        exact .untouched huntouched (checkCount_plain _ _ _ _ _ d heq)
      · have hcall := inferCall_resolves env scope parameters 1 arguments htidy.1
        dsimp only
        split
        · rename_i heq
          rw [heq] at hcall
          rw [Accessor.allHeads, Accessor.heads, usesIn_append]
          exact hcall.stop hrest
        · rename_i heq
          rw [heq] at hcall
          rw [Accessor.allHeads, Accessor.heads, usesIn_append]
          exact hcall.append (inferAccessors_resolves env scope name result rest htidy.2)
    · exact .untouched huntouched rfl
  | .index node position :: rest, htidy => by
    have huntouched := untouched_of_tidy env scope
      (Accessor.allHeads_tidy (.index node position :: rest) htidy)
    have hrest := untouched_of_tidy env scope
      (Accessor.allHeads_tidy rest htidy.2)
    unfold inferAccessors
    split
    · rename_i element _
      have hposition := (infer_resolves env scope Ty.int position htidy.1).expectTy position.span
        Ty.int
      dsimp only
      split
      · rename_i heq
        rw [heq] at hposition
        rw [Accessor.allHeads, Accessor.heads, usesIn_append]
        exact hposition.stop hrest
      · rename_i heq
        rw [heq] at hposition
        rw [Accessor.allHeads, Accessor.heads, usesIn_append]
        exact hposition.append (inferAccessors_resolves env scope name element rest htidy.2)
    · exact .untouched huntouched rfl
  | .dereference node :: rest, htidy => by
    have huntouched := untouched_of_tidy env scope
      (Accessor.allHeads_tidy (.dereference node :: rest) htidy)
    unfold inferAccessors
    split
    · rename_i target
      rw [Accessor.allHeads, Accessor.heads, List.nil_append]
      exact inferAccessors_resolves env scope name target rest htidy.2
    · exact .untouched huntouched rfl
  | .member node member :: rest, htidy => by
    have huntouched := untouched_of_tidy env scope
      (Accessor.allHeads_tidy (.member node member :: rest) htidy)
    unfold inferAccessors
    split
    · rename_i t _
      rw [Accessor.allHeads, Accessor.heads, List.nil_append]
      exact inferAccessors_resolves env scope name t rest htidy.2
    · exact .untouched huntouched rfl

theorem inferCall_resolves (env : Env) (scope : ScopePath) (parameters : List Ty)
    (position : Nat) : (arguments : List Expr) → Expr.AllTidy arguments →
      Resolves (usesIn env scope
        (Expr.allHeads (inferCall env scope parameters position arguments).1))
        (problemsOf (inferCall env scope parameters position arguments).2)
  | [], _ => .nil (by simp [inferCall, problemsOf])
  | argument :: rest, htidy => by
    have hinner := infer_resolves env scope (parameters.headD .invalid) argument htidy.1
    rw [inferCall]
    dsimp only
    split
    · rename_i heq
      have hfirst := hinner.of_bind heq fun _ => by
        split
        · exact .ok _
        · exact .ite (.ok _) (.reject _ rfl)
      rw [Expr.allHeads, usesIn_append]
      exact hfirst.stop (untouched_of_tidy env scope (Expr.allHeads_tidy rest htidy.2))
    · rename_i heq
      have hfirst := hinner.of_bind heq fun _ => by
        split
        · exact .ok _
        · exact .ite (.ok _) (.reject _ rfl)
      rw [Expr.allHeads, usesIn_append]
      exact hfirst.append
        (inferCall_resolves env scope parameters.tail (position + 1) rest htidy.2)

theorem inferElements_resolves (env : Env) (scope : ScopePath) (expected : Ty) :
    (elements : List Expr) → Expr.AllTidy elements →
      Resolves (usesIn env scope (Expr.allHeads (inferElements env scope expected elements).1))
        (problemsOf (inferElements env scope expected elements).2)
  | [], _ => .nil (by simp [inferElements, problemsOf])
  | element :: rest, htidy => by
    have hinner := infer_resolves env scope expected element htidy.1
    rw [inferElements]
    dsimp only
    split
    · rename_i heq
      have hfirst := hinner.of_bind heq fun _ => by exact .ite (.ok _) (.reject _ rfl)
      rw [Expr.allHeads, usesIn_append]
      exact hfirst.stop (untouched_of_tidy env scope (Expr.allHeads_tidy rest htidy.2))
    · rename_i heq
      have hfirst := hinner.of_bind heq fun _ => by exact .ite (.ok _) (.reject _ rfl)
      rw [Expr.allHeads, usesIn_append]
      exact hfirst.append (inferElements_resolves env scope expected rest htidy.2)

theorem inferArguments_resolves (env : Env) (scope : ScopePath) (members : List LayoutMember)
    (position : Nat) : (arguments : List Argument) → Argument.AllTidy arguments →
      ∀ a ∈ inferArguments env scope members position arguments, a.Resolves env scope
  | [], _ => by simp [inferArguments]
  | .mk name value :: rest, htidy => by
    rw [inferArguments]
    intro a ha
    rcases List.mem_cons.1 ha with rfl | ha
    · exact ⟨(infer_resolves env scope _ value htidy.1).expectTy _ _,
        Expr.heads_tidy value htidy.1⟩
    · exact inferArguments_resolves env scope members (position + 1) rest htidy.2 a ha
end

theorem inferPlace_resolves (env : Env) (scope : ScopePath) {place : Place} (htidy : place.Tidy) :
    Resolves (usesIn env scope (inferPlace env scope place).1.heads)
      (problemsOf (inferPlace env scope place).2) :=
  placeAlong_resolves env scope htidy.1 htidy.2 fun t =>
    inferAccessors_resolves env scope place.head.name.value t place.accessors htidy.2

end Typing

end RegionCompiler
