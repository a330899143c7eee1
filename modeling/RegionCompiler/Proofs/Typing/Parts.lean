import RegionCompiler.Proofs.Typing.Judgment

/-! The parts of statements and expressions, and that the rules of typing hold for all of them. -/
namespace RegionCompiler

def Accessor.expressions : Accessor → List Expr
  | .call _ arguments => arguments
  | .index _ position => [position]
  | .dereference _ | .member _ _ => []

/-- The expressions right inside an expression. -/
def Expr.children : Expr → List Expr
  | .integer _ _ | .float _ _ | .boolean _ _ | .string _ _ | .null _ => []
  | .variable _ _ accessors | .addressOf _ _ _ accessors => accessors.flatMap Accessor.expressions
  | .parenthesized _ inner | .allocation _ inner | .unary _ _ inner | .conversion _ inner _ =>
    [inner]
  | .array _ elements => elements
  | .binary _ _ lhs rhs => [lhs, rhs]
  | .construct _ _ arguments => arguments.map Argument.value

/-- An expression is found inside another one, or is it. -/
inductive Expr.Occurs (e : Expr) : Expr → Prop
  | here : Occurs e e
  | inside {child other} : child ∈ other.children → Occurs e child → Occurs e other

theorem Expr.Occurs.trans {e other whole : Expr} (h : e.Occurs other) (h' : other.Occurs whole) :
    e.Occurs whole := by
  induction h' with
  | here => exact h
  | inside hchild _ ih => exact .inside hchild ih

/-- The expressions right inside a statement. -/
def Stmt.expressions : Stmt → List Expr
  | .let_ _ _ _ _ value _ | .call _ value | .collect _ value => [value]
  | .mut_ _ target value => target.value.accessors.flatMap Accessor.expressions ++ [value]
  | .return_ _ value => value.toList
  | .break_ _ | .continue_ _ | .block _ _ => []
  | .if_ _ condition _ | .ifElse _ condition _ _ | .while_ _ condition _
  | .doWhile _ _ condition => [condition]
  | .for_ _ _ start stop _ _ => [start, stop]

/-- The blocks right inside a statement, and whether they lie in a loop when the statement does or
does not. -/
def Stmt.blocks (inLoop : Bool) : Stmt → List (Block × Bool)
  | .let_ _ _ _ _ _ _ | .mut_ _ _ _ | .call _ _ | .collect _ _ | .return_ _ _ | .break_ _
  | .continue_ _ => []
  | .if_ _ _ yes => [(yes, inLoop)]
  | .ifElse _ _ yes no => [(yes, inLoop), (no, inLoop)]
  | .while_ _ _ body | .doWhile _ body _ | .for_ _ _ _ _ body _ => [(body, true)]
  | .block _ body => [(body, inLoop)]

/-- How many frames of the collector a block opens. -/
def Block.frames (b : Block) : Nat := if b.manual then 0 else 1

/-- A statement is found in a list or inside of a statement there. It comes with the number of open
frames of the collector and whether there is a loop around it. -/
inductive Stmt.Occurs (st : Stmt) (depth : Nat) (inLoop : Bool) : List Stmt → Nat → Bool → Prop
  | here {statements} : st ∈ statements → Occurs st depth inLoop statements depth inLoop
  | inside {statements d l other b l'} : other ∈ statements → (b, l') ∈ other.blocks l →
      Occurs st depth inLoop b.statements (d + b.frames) l' → Occurs st depth inLoop statements d l

end RegionCompiler

namespace RegionCompiler.Typing

variable {D : Decls} {result : Ty}

theorem Takes.arguments {parameters : List Ty} {variadic : Bool} {arguments : List Expr}
    (h : Takes D parameters variadic arguments) : ∀ e ∈ arguments, ∃ t, HasType D e t := by
  induction arguments generalizing parameters with
  | nil => simp
  | cons e rest ih =>
    obtain ⟨t, parameters', he, hrest⟩ := h.uncons
    intro x hx
    rcases List.mem_cons.1 hx with rfl | hx
    · exact ⟨t, he⟩
    · exact ih hrest x hx

theorem Elements.elements {t : Ty} {elements : List Expr} (h : Elements D t elements) :
    ∀ e ∈ elements, ∃ u, HasType D e u := by
  induction elements with
  | nil => simp
  | cons e rest ih =>
    cases h with | cons he _ hrest
    intro x hx
    rcases List.mem_cons.1 hx with rfl | hx
    · exact ⟨_, he⟩
    · exact ih hrest x hx

theorem Initializes.values {members : List LayoutMember} {arguments : List Argument}
    (h : Initializes D members arguments) : ∀ x ∈ arguments, ∃ t, HasType D x.value t := by
  induction arguments generalizing members with
  | nil => simp
  | cons x rest ih =>
    cases h with | cons he _ hrest
    intro y hy
    rcases List.mem_cons.1 hy with rfl | hy
    · exact ⟨_, he⟩
    · exact ih hrest y hy

theorem Leads.expressions {base t : Ty} {accessors : List Accessor}
    (h : Leads D base accessors t) :
    ∀ e ∈ accessors.flatMap Accessor.expressions, ∃ u, HasType D e u := by
  induction accessors generalizing base with
  | nil => simp
  | cons a rest ih =>
    intro e he
    rw [List.flatMap_cons, List.mem_append] at he
    cases h with
    | index hp hrest =>
      rcases he with he | he
      · rw [List.mem_singleton.1 he]
        exact ⟨_, hp⟩
      · exact ih hrest e he
    | dereference hrest => exact ih hrest e (he.resolve_left (by simp [Accessor.expressions]))
    | member _ _ hrest => exact ih hrest e (he.resolve_left (by simp [Accessor.expressions]))

theorem Refers.expressions {head : Head} {accessors : List Accessor} {t : Ty}
    (h : Refers D head accessors t) :
    ∀ e ∈ accessors.flatMap Accessor.expressions, ∃ u, HasType D e u := by
  intro e he
  cases h with
  | value _ _ hleads => exact hleads.expressions e he
  | call _ htakes hleads =>
    rw [List.flatMap_cons, List.mem_append] at he
    rcases he with he | he
    · exact htakes.arguments e he
    · exact hleads.expressions e he

theorem HasType.children {e : Expr} {t : Ty} (h : HasType D e t) :
    ∀ c ∈ e.children, ∃ u, HasType D c u := by
  intro c hc
  cases h with
  | integer _ | float _ | boolean | string | null _ _ | emptyArray _ => cases hc
  | reference h => exact h.expressions c hc
  | addressOf h _ => exact h.expressions c hc
  | array hfirst hrest =>
    rcases List.mem_cons.1 hc with rfl | hc
    · exact ⟨_, hfirst⟩
    · exact hrest.elements c hc
  | parenthesized h => exact ⟨_, List.mem_singleton.1 hc ▸ h⟩
  | allocation h _ => exact ⟨_, List.mem_singleton.1 hc ▸ h⟩
  | unary h _ => exact ⟨_, List.mem_singleton.1 hc ▸ h⟩
  | conversion h _ _ => exact ⟨_, List.mem_singleton.1 hc ▸ h⟩
  | binary hl hr _ _ =>
    simp only [Expr.children, List.mem_cons, List.not_mem_nil, or_false] at hc
    rcases hc with rfl | rfl
    · exact ⟨_, hl⟩
    · exact ⟨_, hr⟩
  | construct _ h =>
    obtain ⟨x, hx, rfl⟩ := List.mem_map.1 hc
    exact h.values x hx

/-- Whatever occurs in an expression with a type has a type. -/
theorem HasType.occurs {e other : Expr} (hocc : e.Occurs other) {t : Ty} (h : HasType D other t) :
    ∃ u, HasType D e u := by
  induction hocc generalizing t with
  | here => exact ⟨t, h⟩
  | inside hchild _ ih =>
    obtain ⟨u, hu⟩ := h.children _ hchild
    exact ih hu

theorem StmtOk.expressions {inLoop : Bool} {st : Stmt} (h : StmtOk D result inLoop st) :
    ∀ e ∈ st.expressions, ∃ t, HasType D e t := by
  intro e he
  cases h with
  | mut_ htarget _ hvalue _ =>
    rcases List.mem_append.1 he with he | he
    · exact htarget.expressions e he
    · exact ⟨_, List.mem_singleton.1 he ▸ hvalue⟩
  | let_ _ hvalue _ _ => exact ⟨_, List.mem_singleton.1 he ▸ hvalue⟩
  | call _ hvalue => exact ⟨_, List.mem_singleton.1 he ▸ hvalue⟩
  | collect hvalue _ => exact ⟨_, List.mem_singleton.1 he ▸ hvalue⟩
  | return_ _ hvalue _ => exact ⟨_, List.mem_singleton.1 he ▸ hvalue⟩
  | if_ hcondition _ => exact ⟨_, List.mem_singleton.1 he ▸ hcondition⟩
  | ifElse hcondition _ _ => exact ⟨_, List.mem_singleton.1 he ▸ hcondition⟩
  | while_ hcondition _ => exact ⟨_, List.mem_singleton.1 he ▸ hcondition⟩
  | doWhile _ hcondition => exact ⟨_, List.mem_singleton.1 he ▸ hcondition⟩
  | for_ hstart hstop _ _ =>
    simp only [Stmt.expressions, List.mem_cons, List.not_mem_nil, or_false] at he
    rcases he with rfl | rfl
    · exact ⟨_, hstart⟩
    · exact ⟨_, hstop⟩
  | returnNothing _ | break_ | continue_ | block _ => cases he

theorem StmtOk.blocks {inLoop : Bool} {st : Stmt} (h : StmtOk D result inLoop st) :
    ∀ b l, (b, l) ∈ st.blocks inLoop → BlockOk D result l b := by
  intro b l hb
  cases h with
  | if_ _ hyes => cases List.mem_singleton.1 hb; exact hyes
  | ifElse _ hyes hno =>
    simp only [Stmt.blocks, List.mem_cons, Prod.mk.injEq, List.not_mem_nil, or_false] at hb
    rcases hb with ⟨rfl, rfl⟩ | ⟨rfl, rfl⟩
    · exact hyes
    · exact hno
  | while_ _ hbody => cases List.mem_singleton.1 hb; exact hbody
  | doWhile hbody _ => cases List.mem_singleton.1 hb; exact hbody
  | for_ _ _ _ hbody => cases List.mem_singleton.1 hb; exact hbody
  | block hbody => cases List.mem_singleton.1 hb; exact hbody
  | let_ _ _ _ _ | mut_ _ _ _ _ | call _ _ | collect _ _ | returnNothing _ | return_ _ _ _
  | break_ | continue_ => cases hb

theorem StmtsOk.mem {inLoop : Bool} {statements : List Stmt}
    (h : StmtsOk D result inLoop statements) : ∀ st ∈ statements, StmtOk D result inLoop st := by
  induction statements with
  | nil => simp
  | cons s rest ih =>
    cases h with | cons hs hrest
    intro st hst
    rcases List.mem_cons.1 hst with rfl | hst
    · exact hs
    · exact ih hrest st hst

theorem BlockOk.statements {inLoop : Bool} {b : Block} (h : BlockOk D result inLoop b) :
    StmtsOk D result inLoop b.statements := by
  cases h with | mk h
  exact h

/-- Whatever occurs among statements that obey the rules obeys them. -/
theorem StmtsOk.occurs {st : Stmt} {depth : Nat} {inLoop : Bool} {statements : List Stmt} {d : Nat}
    {l : Bool} (hocc : st.Occurs depth inLoop statements d l) (h : StmtsOk D result l statements) :
    StmtOk D result inLoop st ∧ d ≤ depth := by
  induction hocc with
  | here hst => exact ⟨h.mem st hst, Nat.le_refl _⟩
  | inside hother hblock _ ih =>
    obtain ⟨hok, hle⟩ := ih ((h.mem _ hother).blocks _ _ hblock).statements
    exact ⟨hok, by omega⟩

end RegionCompiler.Typing
