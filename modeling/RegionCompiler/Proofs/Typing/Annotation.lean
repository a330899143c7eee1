import Mathlib.Data.List.Forall2
import RegionCompiler.Typing.Check

/-! Checking only fills in annotations. The program that comes back is the one that went in, but for
the types of its nodes, the declarations behind its names, the variables of its functions and the
paths of embedded files; the arguments of a record expression may be put in another order. -/
namespace RegionCompiler

mutual
/-- The second expression is the first one with other annotations. -/
inductive Expr.Fills : Expr → Expr → Prop
  | integer {span t t' literal} :
      Expr.Fills (.integer ⟨span, t⟩ literal) (.integer ⟨span, t'⟩ literal)
  | float {span t t' bits} : Expr.Fills (.float ⟨span, t⟩ bits) (.float ⟨span, t'⟩ bits)
  | boolean {span t t' value} : Expr.Fills (.boolean ⟨span, t⟩ value) (.boolean ⟨span, t'⟩ value)
  | string {span t t' value} : Expr.Fills (.string ⟨span, t⟩ value) (.string ⟨span, t'⟩ value)
  | null {span t t'} : Expr.Fills (.null ⟨span, t⟩) (.null ⟨span, t'⟩)
  | variable {span t t' head head' accessors accessors'} : head'.name = head.name →
      Accessor.AllFill accessors accessors' →
      Expr.Fills (.variable ⟨span, t⟩ head accessors) (.variable ⟨span, t'⟩ head' accessors')
  | parenthesized {span t t' inner inner'} : Expr.Fills inner inner' →
      Expr.Fills (.parenthesized ⟨span, t⟩ inner) (.parenthesized ⟨span, t'⟩ inner')
  | array {span t t' elements elements'} : Expr.AllFill elements elements' →
      Expr.Fills (.array ⟨span, t⟩ elements) (.array ⟨span, t'⟩ elements')
  | allocation {span t t' size size'} : Expr.Fills size size' →
      Expr.Fills (.allocation ⟨span, t⟩ size) (.allocation ⟨span, t'⟩ size')
  | addressOf {span t t' target head head' accessors accessors'} : head'.name = head.name →
      Accessor.AllFill accessors accessors' →
      Expr.Fills (.addressOf ⟨span, t⟩ target head accessors)
        (.addressOf ⟨span, t'⟩ target head' accessors')
  | unary {span t t' op operand operand'} : Expr.Fills operand operand' →
      Expr.Fills (.unary ⟨span, t⟩ op operand) (.unary ⟨span, t'⟩ op operand')
  | binary {span t t' op lhs lhs' rhs rhs'} : Expr.Fills lhs lhs' → Expr.Fills rhs rhs' →
      Expr.Fills (.binary ⟨span, t⟩ op lhs rhs) (.binary ⟨span, t'⟩ op lhs' rhs')
  | conversion {span t t' inner inner' target} : Expr.Fills inner inner' →
      Expr.Fills (.conversion ⟨span, t⟩ inner target) (.conversion ⟨span, t'⟩ inner' target)
  | construct {span t t' record arguments ordered arguments'} : arguments.Perm ordered →
      Argument.AllFill ordered arguments' →
      Expr.Fills (.construct ⟨span, t⟩ record arguments) (.construct ⟨span, t'⟩ record arguments')

inductive Expr.AllFill : List Expr → List Expr → Prop
  | nil : Expr.AllFill [] []
  | cons {e e' rest rest'} : Expr.Fills e e' → Expr.AllFill rest rest' →
      Expr.AllFill (e :: rest) (e' :: rest')

inductive Accessor.Fills : Accessor → Accessor → Prop
  | call {span t t' arguments arguments'} : Expr.AllFill arguments arguments' →
      Accessor.Fills (.call ⟨span, t⟩ arguments) (.call ⟨span, t'⟩ arguments')
  | index {span t t' position position'} : Expr.Fills position position' →
      Accessor.Fills (.index ⟨span, t⟩ position) (.index ⟨span, t'⟩ position')
  | dereference {span t t'} : Accessor.Fills (.dereference ⟨span, t⟩) (.dereference ⟨span, t'⟩)
  | member {span t t' name} : Accessor.Fills (.member ⟨span, t⟩ name) (.member ⟨span, t'⟩ name)

inductive Accessor.AllFill : List Accessor → List Accessor → Prop
  | nil : Accessor.AllFill [] []
  | cons {a a' rest rest'} : Accessor.Fills a a' → Accessor.AllFill rest rest' →
      Accessor.AllFill (a :: rest) (a' :: rest')

inductive Argument.AllFill : List Argument → List Argument → Prop
  | nil : Argument.AllFill [] []
  | cons {name e e' rest rest'} : Expr.Fills e e' → Argument.AllFill rest rest' →
      Argument.AllFill (.mk name e :: rest) (.mk name e' :: rest')
end

mutual
theorem Expr.Fills.refl : (e : Expr) → Expr.Fills e e
  | .integer _ _ => .integer
  | .float _ _ => .float
  | .boolean _ _ => .boolean
  | .string _ _ => .string
  | .null _ => .null
  | .variable _ _ accessors => .variable rfl (Accessor.AllFill.refl accessors)
  | .parenthesized _ inner => .parenthesized (Expr.Fills.refl inner)
  | .array _ elements => .array (Expr.AllFill.refl elements)
  | .allocation _ size => .allocation (Expr.Fills.refl size)
  | .addressOf _ _ _ accessors => .addressOf rfl (Accessor.AllFill.refl accessors)
  | .unary _ _ operand => .unary (Expr.Fills.refl operand)
  | .binary _ _ lhs rhs => .binary (Expr.Fills.refl lhs) (Expr.Fills.refl rhs)
  | .conversion _ inner _ => .conversion (Expr.Fills.refl inner)
  | .construct _ _ arguments => .construct (.refl _) (Argument.AllFill.refl arguments)

theorem Expr.AllFill.refl : (es : List Expr) → Expr.AllFill es es
  | [] => .nil
  | e :: rest => .cons (Expr.Fills.refl e) (Expr.AllFill.refl rest)

theorem Accessor.Fills.refl : (a : Accessor) → Accessor.Fills a a
  | .call _ arguments => .call (Expr.AllFill.refl arguments)
  | .index _ position => .index (Expr.Fills.refl position)
  | .dereference _ => .dereference
  | .member _ _ => .member

theorem Accessor.AllFill.refl : (as : List Accessor) → Accessor.AllFill as as
  | [] => .nil
  | a :: rest => .cons (Accessor.Fills.refl a) (Accessor.AllFill.refl rest)

theorem Argument.AllFill.refl : (as : List Argument) → Argument.AllFill as as
  | [] => .nil
  | .mk _ value :: rest => .cons (Expr.Fills.refl value) (Argument.AllFill.refl rest)
end

structure Place.Fills (p p' : Place) : Prop where
  name : p'.head.name = p.head.name
  accessors : Accessor.AllFill p.accessors p'.accessors

mutual
inductive Stmt.Fills : Stmt → Stmt → Prop
  | let_ {span allocate ty name value value' mangled mangled'} : Expr.Fills value value' →
      Stmt.Fills (.let_ span allocate ty name value mangled)
        (.let_ span allocate ty name value' mangled')
  | mut_ {span at_ place place' value value'} : Place.Fills place place' →
      Expr.Fills value value' →
      Stmt.Fills (.mut_ span ⟨at_, place⟩ value) (.mut_ span ⟨at_, place'⟩ value')
  | call {span value value'} : Expr.Fills value value' →
      Stmt.Fills (.call span value) (.call span value')
  | collect {span value value'} : Expr.Fills value value' →
      Stmt.Fills (.collect span value) (.collect span value')
  | returnNothing {span} : Stmt.Fills (.return_ span none) (.return_ span none)
  | return_ {span value value'} : Expr.Fills value value' →
      Stmt.Fills (.return_ span (some value)) (.return_ span (some value'))
  | break_ {span} : Stmt.Fills (.break_ span) (.break_ span)
  | continue_ {span} : Stmt.Fills (.continue_ span) (.continue_ span)
  | if_ {span condition condition' yes yes'} : Expr.Fills condition condition' →
      Block.Fills yes yes' → Stmt.Fills (.if_ span condition yes) (.if_ span condition' yes')
  | ifElse {span condition condition' yes yes' no no'} : Expr.Fills condition condition' →
      Block.Fills yes yes' → Block.Fills no no' →
      Stmt.Fills (.ifElse span condition yes no) (.ifElse span condition' yes' no')
  | while_ {span condition condition' body body'} : Expr.Fills condition condition' →
      Block.Fills body body' → Stmt.Fills (.while_ span condition body)
        (.while_ span condition' body')
  | doWhile {span condition condition' body body'} : Block.Fills body body' →
      Expr.Fills condition condition' →
      Stmt.Fills (.doWhile span body condition) (.doWhile span body' condition')
  | for_ {span iterator start start' stop stop' body body' mangled mangled'} :
      Expr.Fills start start' → Expr.Fills stop stop' → Block.Fills body body' →
      Stmt.Fills (.for_ span iterator start stop body mangled)
        (.for_ span iterator start' stop' body' mangled')
  | block {span body body'} : Block.Fills body body' → Stmt.Fills (.block span body)
    (.block span body')

inductive Stmt.AllFill : List Stmt → List Stmt → Prop
  | nil : Stmt.AllFill [] []
  | cons {s s' rest rest'} : Stmt.Fills s s' → Stmt.AllFill rest rest' →
      Stmt.AllFill (s :: rest) (s' :: rest')

inductive Block.Fills : Block → Block → Prop
  | mk {span manual statements statements'} : Stmt.AllFill statements statements' →
      Block.Fills (.mk span manual statements) (.mk span manual statements')
end

/-- The second function is the first one with other annotations and variables. -/
structure Function.Fills (f f' : Function) : Prop where
  span : f'.span = f.span
  name : f'.name = f.name
  parameters : f'.parameters = f.parameters
  result : f'.result = f.result
  body : Block.Fills f.body f'.body

structure Embed.Fills (e e' : Embed) : Prop where
  span : e'.span = e.span
  path : e'.path = e.path
  name : e'.name = e.name

/-- The second program is the first one with other annotations. -/
structure Program.Fills (p p' : Program) : Prop where
  path : p'.path = p.path
  functions : List.Forall₂ Function.Fills p.functions p'.functions
  foreign : p'.foreign = p.foreign
  records : p'.records = p.records
  links : p'.links = p.links
  embeds : List.Forall₂ Embed.Fills p.embeds p'.embeds

namespace Typing

theorem bindHead_name (env : Env) (scope : ScopePath) (head : Head) :
    (bindHead env scope head).1.name = head.name := by
  unfold bindHead
  split <;> rfl

theorem placeAlong_fills (env : Env) (scope : ScopePath) (head : Head) {accessors : List Accessor}
    {along : Ty → List Accessor × Result} (h : ∀ t, Accessor.AllFill accessors (along t).1) :
    (placeAlong env scope head accessors along).1.name = head.name ∧
      Accessor.AllFill accessors (placeAlong env scope head accessors along).2.1 := by
  unfold placeAlong
  refine ⟨?_, ?_⟩
  · have hname := bindHead_name env scope head
    dsimp only
    split
    · exact hname
    · split <;> exact hname
  · dsimp only
    split
    · exact .refl _
    · split
      · exact .refl _
      · exact h _

theorem map_before_inferArguments (env : Env) (scope : ScopePath) (members : List LayoutMember)
    (position : Nat) (arguments : List Argument) :
    (inferArguments env scope members position arguments).map CheckedArgument.before =
      arguments := by
  induction arguments generalizing position with
  | nil => simp [inferArguments]
  | cons a rest ih =>
    cases a
    simp [inferArguments, ih]

def CheckedArgument.Fills (a : CheckedArgument) : Prop :=
  a.after.name = a.before.name ∧ Expr.Fills a.before.value a.after.value

theorem settleArguments_fills {checked : List CheckedArgument} (h : ∀ a ∈ checked, a.Fills) :
    Argument.AllFill (checked.map CheckedArgument.before) (settleArguments checked).1 := by
  induction checked with
  | nil => exact .nil
  | cons a rest ih =>
    obtain ⟨hname, hvalue⟩ := h a (by simp)
    obtain ⟨⟨name, value⟩, ⟨name', value'⟩, position, outcome⟩ := a
    cases hname
    rw [settleArguments, List.map_cons]
    cases outcome with
    | ok _ => exact .cons hvalue (ih fun b hb => h b (by simp [hb]))
    | error d => exact .cons hvalue (.refl _)

mutual
theorem infer_fills (env : Env) (scope : ScopePath) (hint : Ty) :
    (e : Expr) → Expr.Fills e (infer env scope hint e).1
  | .integer _ _ => .integer
  | .float _ _ => .float
  | .boolean _ _ => .boolean
  | .string _ _ => .string
  | .null _ => .null
  | .variable _ head accessors => by
    have h := placeAlong_fills env scope head fun t =>
      inferAccessors_fills env scope head.name.value t accessors
    rw [infer]
    exact .variable h.1 h.2
  | .parenthesized _ inner => by
    rw [infer]
    exact .parenthesized (infer_fills env scope hint inner)
  | .array _ [] => by
    rw [infer]
    exact .array .nil
  | .array _ (first :: rest) => by
    have hfirst := infer_fills env scope (if hint.isArray then hint.withoutModifier else .invalid)
      first
    rw [infer]
    dsimp only
    split
    · exact .array (.cons hfirst (.refl rest))
    · exact .array (.cons hfirst (inferElements_fills env scope _ rest))
  | .allocation _ size => by
    unfold infer
    dsimp only
    split
    · exact .allocation (infer_fills env scope Ty.int size)
    · exact .allocation (.refl size)
    · exact .allocation (.refl size)
  | .addressOf _ _ head accessors => by
    have h := placeAlong_fills env scope head fun t =>
      inferAccessors_fills env scope head.name.value t accessors
    rw [infer]
    split
    · exact .addressOf rfl (.refl accessors)
    · exact .addressOf h.1 h.2
  | .unary _ _ operand => by
    rw [infer]
    exact .unary (infer_fills env scope hint operand)
  | .binary _ _ lhs rhs => by
    have hleft := infer_fills env scope (if hint.isPlain "bool" then .invalid else hint) lhs
    rw [infer]
    dsimp only
    split
    · exact .binary hleft (.refl rhs)
    · exact .binary hleft (infer_fills env scope _ rhs)
  | .conversion _ inner _ => by
    rw [infer]
    split
    · exact .conversion (.refl inner)
    · exact .conversion (infer_fills env scope .invalid inner)
  | .construct _ _ arguments => by
    rw [infer]
    dsimp only
    split
    · exact .construct (.refl _) (.refl arguments)
    · split
      · exact .construct (.refl _) (.refl arguments)
      · rename_i layout _ _ _
        -- Sorting moves the arguments about; each of them is filled where it ends up.
        have hsorted := List.mergeSort_perm (inferArguments env scope layout.members 0 arguments)
          fun a b => a.position ≤ b.position
        have hperm := (hsorted.map CheckedArgument.before).symm
        rw [map_before_inferArguments] at hperm
        refine .construct hperm (settleArguments_fills fun a ha => ?_)
        exact inferArguments_fills env scope layout.members 0 arguments a (hsorted.mem_iff.1 ha)

theorem inferAccessors_fills (env : Env) (scope : ScopePath) (name : String) (running : Ty) :
    (accessors : List Accessor) →
      Accessor.AllFill accessors (inferAccessors env scope name running accessors).1
  | [] => .nil
  | .call _ arguments :: rest => by
    unfold inferAccessors
    split
    · split
      · exact .refl _
      · dsimp only
        split
        · exact .cons (.call (inferCall_fills env scope _ 1 arguments)) (.refl rest)
        · exact .cons (.call (inferCall_fills env scope _ 1 arguments))
            (inferAccessors_fills env scope name _ rest)
    · exact .refl _
  | .index _ position :: rest => by
    have hposition := infer_fills env scope Ty.int position
    unfold inferAccessors
    split
    · dsimp only
      split
      · exact .cons (.index hposition) (.refl rest)
      · exact .cons (.index hposition) (inferAccessors_fills env scope name _ rest)
    · exact .refl _
  | .dereference _ :: rest => by
    unfold inferAccessors
    split
    · exact .cons .dereference (inferAccessors_fills env scope name _ rest)
    · exact .refl _
  | .member _ _ :: rest => by
    unfold inferAccessors
    split
    · exact .cons .member (inferAccessors_fills env scope name _ rest)
    · exact .refl _

theorem inferCall_fills (env : Env) (scope : ScopePath) (parameters : List Ty) (position : Nat) :
    (arguments : List Expr) →
      Expr.AllFill arguments (inferCall env scope parameters position arguments).1
  | [] => .nil
  | argument :: rest => by
    have hfirst := infer_fills env scope (parameters.headD .invalid) argument
    rw [inferCall]
    dsimp only
    split
    · exact .cons hfirst (.refl rest)
    · exact .cons hfirst (inferCall_fills env scope _ _ rest)

theorem inferElements_fills (env : Env) (scope : ScopePath) (expected : Ty) :
    (elements : List Expr) → Expr.AllFill elements (inferElements env scope expected elements).1
  | [] => .nil
  | element :: rest => by
    have hfirst := infer_fills env scope expected element
    rw [inferElements]
    dsimp only
    split
    · exact .cons hfirst (.refl rest)
    · exact .cons hfirst (inferElements_fills env scope expected rest)

theorem inferArguments_fills (env : Env) (scope : ScopePath) (members : List LayoutMember)
    (position : Nat) : (arguments : List Argument) →
      ∀ a ∈ inferArguments env scope members position arguments, a.Fills
  | [] => by simp [inferArguments]
  | .mk name value :: rest => by
    rw [inferArguments]
    intro a ha
    rcases List.mem_cons.1 ha with rfl | ha
    · exact ⟨rfl, infer_fills env scope _ value⟩
    · exact inferArguments_fills env scope members (position + 1) rest a ha
end

/-- Whatever a check starts from, what it gives has the property. -/
def Returns {α : Type} (m : Check α) (P : α → Prop) : Prop := ∀ s, P (m s).1

namespace Returns

variable {α β : Type} {m : Check α} {P : α → Prop}

theorem pure {a : α} (h : P a) : Returns (pure a) P := fun _ => h

theorem bind {k : α → Check β} {Q : β → Prop} (hm : Returns m P) (hk : ∀ a, P a → Returns (k a) Q) :
    Returns (m >>= k) Q :=
  fun s => hk (m s).1 (hm s) (m s).2

/-- The result of the first part does not matter. -/
theorem after {k : α → Check β} {Q : β → Prop} (hk : ∀ a, Returns (k a) Q) :
    Returns (m >>= k) Q :=
  fun s => hk (m s).1 (m s).2

theorem ite {c : Prop} [Decidable c] {n : Check α} (hm : Returns m P) (hn : Returns n P) :
    Returns (if c then m else n) P := by
  split
  · exact hm
  · exact hn

theorem mapM {g : β → Check α} {R : β → α → Prop} {l : List β} (h : ∀ x, Returns (g x) (R x)) :
    Returns (l.mapM g) (List.Forall₂ R l) := by
  induction l with
  | nil => exact .pure .nil
  | cons x rest ih =>
    rw [List.mapM_cons]
    exact .bind (h x) fun y hy => .bind ih fun ys hys => .pure (.cons hy hys)

end Returns

variable {ctx : Context} {scope : ScopePath}

theorem checkExpr_fills (hint : Ty) (e : Expr) :
    Returns (checkExpr ctx scope hint e) fun r => Expr.Fills e r.1 :=
  .after fun env => .after fun _ => .pure (infer_fills env scope hint e)

theorem checkExact_fills (expected : Ty) (e : Expr) :
    Returns (checkExact ctx scope expected e) (Expr.Fills e) :=
  .after fun env => .after fun _ => .pure (infer_fills env scope expected e)

theorem checkLet_fills (span : Span) (allocate : Bool) (ty : Located Ty) (name : Located String)
    (value : Expr) (mangled : Option String) :
    Returns (checkLet ctx scope span allocate ty name value mangled)
      (Stmt.Fills (.let_ span allocate ty name value mangled)) := by
  refine .after fun declared => ?_
  cases declared with
  | none => exact .pure (.let_ (.refl value))
  | some _ =>
    refine .bind (checkExpr_fills ty.value value) fun ⟨checked, actual⟩ hvalue => ?_
    refine .after fun accepted => .ite ?_ (.pure (.let_ hvalue))
    have hlast : Returns (pure (.let_ span allocate ty name checked
        (some (scope.mangle name.value))) : Check Stmt)
        (Stmt.Fills (.let_ span allocate ty name value mangled)) := .pure (.let_ hvalue)
    refine .after fun _ => ?_
    cases actual with
    | none => exact hlast
    | some t => exact .ite (.after fun _ => hlast) hlast

theorem checkMut_fills (span : Span) (target : Located Place) (value : Expr) :
    Returns (checkMut ctx scope span target value) (Stmt.Fills (.mut_ span target value)) := by
  obtain ⟨position, place⟩ := target
  refine .ite (.after fun _ => .pure (.mut_ ⟨rfl, .refl _⟩ (.refl value))) ?_
  refine .after fun env => ?_
  have hplace : Place.Fills place (inferPlace env scope place).1 := by
    have h := placeAlong_fills env scope place.head fun t =>
      inferAccessors_fills env scope place.head.name.value t place.accessors
    exact ⟨h.1, h.2⟩
  refine .after fun expected => ?_
  cases expected with
  | none => exact .pure (.mut_ hplace (.refl value))
  | some t => exact .bind (checkExact_fills t value) fun _ hvalue => .pure (.mut_ hplace hvalue)

theorem checkCall_fills (span : Span) (value : Expr) :
    Returns (checkCall ctx scope span value) (Stmt.Fills (.call span value)) :=
  .ite (.bind (checkExpr_fills .invalid value) fun _ hvalue => .pure (.call hvalue))
    (.after fun _ => .pure (.call (.refl value)))

theorem checkCollect_fills (span : Span) (value : Expr) :
    Returns (checkCollect ctx scope span value) (Stmt.Fills (.collect span value)) := by
  refine .bind (checkExpr_fills .invalid value) fun ⟨checked, result⟩ hvalue => ?_
  have hlast : Returns (pure (.collect span checked) : Check Stmt)
      (Stmt.Fills (.collect span value)) := .pure (.collect hvalue)
  cases result with
  | none => exact hlast
  | some t => exact .ite (.after fun _ => hlast) hlast

theorem checkReturn_fills (result : Located Ty) (span : Span) (value : Option Expr) :
    Returns (checkReturn ctx scope result span value) (Stmt.Fills (.return_ span value)) := by
  cases value with
  | none => exact .ite (.after fun _ => .pure .returnNothing) (.pure .returnNothing)
  | some value =>
    refine .ite (.after fun _ => .pure (.return_ (.refl value))) ?_
    refine .bind (checkExpr_fills result.value value) fun ⟨checked, actual⟩ hvalue => ?_
    have hlast : Returns (pure (.return_ span (some checked)) : Check Stmt)
        (Stmt.Fills (.return_ span (some value))) := .pure (.return_ hvalue)
    cases actual with
    | none => exact hlast
    | some t => exact .ite (.after fun _ => hlast) hlast

mutual
theorem checkStmt_fills (result : Located Ty) (scope : ScopePath) (inLoop : Bool)
    (counters : SegmentCounters) : (st : Stmt) →
      Returns (checkStmt ctx result scope inLoop counters st) fun r => Stmt.Fills st r.1
  | .let_ span allocate ty name value mangled =>
    .bind (checkLet_fills span allocate ty name value mangled) fun _ h => .pure h
  | .mut_ span target value => .bind (checkMut_fills span target value) fun _ h => .pure h
  | .call span value => .bind (checkCall_fills span value) fun _ h => .pure h
  | .collect span value => .bind (checkCollect_fills span value) fun _ h => .pure h
  | .return_ span value => .bind (checkReturn_fills result span value) fun _ h => .pure h
  | .break_ _ => .after fun _ => .pure .break_
  | .continue_ _ => .after fun _ => .pure .continue_
  | .if_ _ condition yes =>
    .bind (checkExact_fills Ty.bool condition) fun _ hcondition =>
      .bind (checkBlock_fills result _ inLoop yes) fun _ hyes => .pure (.if_ hcondition hyes)
  | .ifElse _ condition yes no =>
    .bind (checkExact_fills Ty.bool condition) fun _ hcondition =>
      .bind (checkBlock_fills result _ inLoop yes) fun _ hyes =>
        .bind (checkBlock_fills result _ inLoop no) fun _ hno =>
          .pure (.ifElse hcondition hyes hno)
  | .while_ _ condition body =>
    .bind (checkExact_fills Ty.bool condition) fun _ hcondition =>
      .bind (checkBlock_fills result _ true body) fun _ hbody =>
        .pure (.while_ hcondition hbody)
  | .doWhile _ body condition =>
    .bind (checkBlock_fills result _ true body) fun _ hbody =>
      .bind (checkExact_fills Ty.bool condition) fun _ hcondition =>
        .pure (.doWhile hbody hcondition)
  | .for_ _ _ start stop body _ =>
    .bind (checkExact_fills Ty.int start) fun _ hstart =>
      .bind (checkExact_fills Ty.int stop) fun _ hstop => .after fun _ =>
        .bind (checkBlock_fills result _ true body) fun _ hbody =>
          .pure (.for_ hstart hstop hbody)
  | .block _ body =>
    .bind (checkBlock_fills result _ inLoop body) fun _ hbody => .pure (.block hbody)

theorem checkStmts_fills (result : Located Ty) (scope : ScopePath) (inLoop : Bool)
    (counters : SegmentCounters) : (statements : List Stmt) →
      Returns (checkStmts ctx result scope inLoop counters statements)
        (Stmt.AllFill statements)
  | [] => .pure .nil
  | first :: rest =>
    .bind (checkStmt_fills result scope inLoop counters first) fun r hfirst =>
      .bind (checkStmts_fills result scope inLoop r.2 rest) fun _ hrest =>
        .pure (.cons hfirst hrest)

theorem checkBlock_fills (result : Located Ty) (scope : ScopePath) (inLoop : Bool) :
    (b : Block) → Returns (checkBlock ctx result scope inLoop b) (Block.Fills b)
  | .mk _ _ statements =>
    .bind (checkStmts_fills result scope inLoop .zero statements) fun _ h => .pure (.mk h)
end

theorem checkFunction_fills (f : Function) :
    Returns (checkFunction ctx f) (Function.Fills f) := by
  refine .after fun _ => .after fun parameters =>
    .bind (checkBlock_fills f.result _ false f.body) fun body hbody => ?_
  have hlast : Returns (do
      let s ← get
      return { f with body := body, stack := ⟨parameters, s.locals⟩ } : Check Function)
      (Function.Fills f) := .after fun _ => .pure ⟨rfl, rfl, rfl, rfl, hbody⟩
  exact .ite (.after fun _ => hlast) hlast

theorem declareEmbed_fills (isFile : String → Bool) (base : String) (e : Embed) :
    Returns (declareEmbed isFile base e) (Embed.Fills e) := by
  have hlast : Returns (do
      let _ ← declare ⟨e.name.value, e.name.value, Ty.bytes, e.name.span, .embed⟩
      return { e with resolved := (if isFile (Path.join base e.path.value)
        then some (Path.join base e.path.value) else e.resolved) } : Check Embed)
      (Embed.Fills e) := .after fun _ => .pure ⟨rfl, rfl, rfl⟩
  exact .ite (.after fun _ => hlast) hlast

/-- Analysis only fills in annotations, whatever it finds wrong. -/
theorem analyze_fills (isFile : String → Bool) (base : String) (k : Knowledge) (p : Program) :
    Program.Fills p (analyze isFile base k p).1 := by
  have h : Returns (checkDeclarations
      ⟨(k.layouts.registerRecords (p.records.map recordShape)).1,
        k.types ++ p.records.map (·.name.value)⟩ isFile base p
      (k.layouts.registerRecords (p.records.map recordShape)).2) (Program.Fills p) :=
    .after fun _ => .after fun _ => .after fun _ =>
      .bind (.mapM (declareEmbed_fills isFile base)) fun _ hembeds => .after fun _ =>
        .bind (.mapM checkFunction_fills) fun _ hfunctions =>
          .pure ⟨rfl, hfunctions, rfl, rfl, rfl, hembeds⟩
  exact h ⟨k.symbols, k.diagnostics, []⟩

end Typing

end RegionCompiler
