import RegionCompiler.Proofs.Codegen.Stmt
import RegionCompiler.Proofs.Machine.Mention

/-! What the code of functions is put together from. Every property of all generated code is proved
by induction on this. -/
namespace RegionCompiler

mutual
/-- The string literals in an expression, from the first to the last. -/
def Expr.literals : Expr → List String
  | .string _ value => [value]
  | .integer _ _ | .float _ _ | .boolean _ _ | .null _ => []
  | .variable _ _ accessors | .addressOf _ _ _ accessors => Accessor.literals accessors
  | .parenthesized _ inner | .allocation _ inner | .unary _ _ inner | .conversion _ inner _ =>
    inner.literals
  | .array _ elements => Expr.listLiterals elements
  | .binary _ _ lhs rhs => lhs.literals ++ rhs.literals
  | .construct _ _ arguments => Argument.literals arguments

def Accessor.literals : List Accessor → List String
  | [] => []
  | .call _ arguments :: rest => Expr.listLiterals arguments ++ Accessor.literals rest
  | .index _ position :: rest => position.literals ++ Accessor.literals rest
  | .dereference _ :: rest | .member _ _ :: rest => Accessor.literals rest

def Expr.listLiterals : List Expr → List String
  | [] => []
  | e :: rest => e.literals ++ Expr.listLiterals rest

def Argument.literals : List Argument → List String
  | [] => []
  | .mk _ value :: rest => value.literals ++ Argument.literals rest
end

mutual
/-- The string literals in a statement, from the first to the last. -/
def Stmt.literals : Stmt → List String
  | .let_ _ _ _ _ value _ | .call _ value | .collect _ value => value.literals
  | .mut_ _ target value => Accessor.literals target.value.accessors ++ value.literals
  | .return_ _ (some value) => value.literals
  | .return_ _ none | .break_ _ | .continue_ _ => []
  | .if_ _ condition yes => condition.literals ++ yes.literals
  | .ifElse _ condition yes no => condition.literals ++ yes.literals ++ no.literals
  | .while_ _ condition body => condition.literals ++ body.literals
  | .doWhile _ body condition => body.literals ++ condition.literals
  | .for_ _ _ start stop body _ => start.literals ++ stop.literals ++ body.literals
  | .block _ body => body.literals

def Block.literals : Block → List String
  | .mk _ _ statements => Stmt.listLiterals statements

def Stmt.listLiterals : List Stmt → List String
  | [] => []
  | st :: rest => st.literals ++ Stmt.listLiterals rest
end

/-- The string literals of a program, from the first to the last. -/
def Program.literals (p : Program) : List String :=
  p.functions.flatMap fun f => f.body.literals

/-- The expressions right inside a statement. The target of an assignment counts as the expression
that would read it. -/
def Stmt.parts : Stmt → List Expr
  | .mut_ _ target value =>
    [.variable ⟨target.span, none⟩ target.value.head target.value.accessors, value]
  | st => st.expressions

theorem Stmt.occurs_of_mem_expressions (st : Stmt) {e : Expr} (h : e ∈ st.expressions) :
    ∃ part ∈ st.parts, e.Occurs part := by
  cases st with
  | mut_ span target value =>
    rcases List.mem_append.1 h with h | h
    · exact ⟨_, List.mem_cons_self, .inside h .here⟩
    · exact ⟨e, List.mem_cons_of_mem _ h, .here⟩
  | _ => exact ⟨e, h, .here⟩

end RegionCompiler

namespace RegionCompiler.Codegen

open Machine Machine.Instr Typing

section Sizes

variable (env : Env)

def Env.IsSize (n : Nat) : Prop := ∃ t, env.sizeOf t = .ok n

/-- What may lie below an address on the stack: the slot of the result of a call. -/
def Env.IsKept (n : Nat) : Prop := n = 0 ∨ ∃ size, env.IsSize size ∧ n = slot size

/-- Amounts that the stack pointer moves by. -/
inductive Env.IsAmount : Nat → Prop
  | slot {n} : env.IsSize n → IsAmount (slot n)
  | assigned {n kept} : env.IsSize n → env.IsKept kept → IsAmount (Codegen.slot n + 16 + kept)
  | locals : IsAmount env.current.frame.locals
  | result {r} : r ∈ env.routines → IsAmount r.frame.resultSlot
  | arguments {r} : r ∈ env.routines → IsAmount r.frame.arguments

/-- Places of values within others: members of records and arguments of functions. -/
inductive Env.IsPart : (offset size : Nat) → Prop
  | member {t l m size} : env.layoutOf t = .ok l → m ∈ l.members → env.sizeOf m.ty = .ok size →
      IsPart m.offset size
  | argument {r v offset size} : r ∈ env.routines → v ∈ r.function.stack.parameters →
      placedAt v = .ok offset → env.sizeOf v.ty = .ok size → IsPart offset size

/-- Where values of some size are copied from or to; `Q` holds of the expressions around. -/
inductive Env.Holds (D : Decls) (Q : Expr → Prop) : Address → Nat → Prop
  | pointed {r n} : env.IsSize n → Holds D Q (Address.at_ r 0) n
  | below {offset n} : env.IsPart offset n → Holds D Q (Address.stack (slot n + offset)) n
  | element {span elements index t length n} :
      Q (.array ⟨span, some (.array t length)⟩ elements) → env.sizeOf t = .ok n →
      index < elements.length → Holds D Q (Address.at_ .r10 (index * n : Nat)) n
  | home {mangled t a n} : D.declares ⟨mangled, .local_⟩ t → env.variableAddress mangled = .ok a →
      env.sizeOf t = .ok n → Holds D Q a n
  | result : Holds D Q (Address.frame env.current.frame.resultAt) env.current.frame.result

/-- The arguments of a C function on their way; the first `fixed` of them have parameters. -/
inductive Passes (layouts : Registry) : (fixed : Nat) → List Expr → List Passed → Prop
  | nil {fixed} : Passes layouts fixed [] []
  | cons {fixed e rest t l passed} : e.ty = some t → layouts.layoutOf t = .ok l →
      Passes layouts (fixed - 1) rest passed →
      Passes layouts fixed (e :: rest)
        (⟨⟨if fixed == 0 && t.isPlain "float" then .double else .of t l, fixed == 0⟩,
          slot l.size⟩ :: passed)

/-- A call of a C function, with what is passed and the result that comes back. -/
structure Env.Sends (Q : Expr → Prop) (f : ForeignFunction) (passed : List Passed)
    (result : Option Convention.Shape) : Prop where
  call : ∃ node name ty mangled span t arguments rest l,
    Q (.variable node ⟨name, ty, some ⟨mangled, .foreignFunction⟩⟩
      (.call ⟨span, some t⟩ arguments :: rest)) ∧
    env.foreignFunction mangled = .ok f ∧
    Passes env.layouts (f.parameters.countP (·.ty?.isSome)) arguments passed ∧
    env.layoutOf t = .ok l ∧ result = if t.isVoid then none else some (.of t l)

/-- A call needs more room for its arguments than can be counted. -/
def Env.Exceeds (Q : Expr → Prop) : Prop :=
  ∃ f passed result, env.Sends Q f passed result ∧
    env.platform.convention.plan? (passed.map Passed.argument) result = .error .overflow

variable {env}

theorem Env.layouts_layoutOf {t : Ty} {l : Layout} (h : env.layoutOf t = .ok l) :
    env.layouts.layoutOf t = .ok l := by
  unfold Env.layoutOf at h
  split at h
  · rename_i heq
    cases h
    exact heq
  · cases h

end Sizes

/-- Code between two supplies of labels and literals. It jumps to labels of its own, numbered above
the first supply, to those that stand in it, and to those outside; `Q` holds of the expressions that
it comes from. -/
inductive Assembled (env : Env) (D : Decls) (Q : Expr → Prop) :
    (outside : Label → Prop) → (standing : List Label) → Supply → Code → Supply → Prop
  | nil {outside s} : Assembled env D Q outside [] s [] s
  | append {outside standing standing' s s₁ s₂ code code'} :
      Assembled env D Q outside standing s code s₁ →
      Assembled env D Q outside standing' s₁ code' s₂ →
      Assembled env D Q outside (standing ++ standing') s (code ++ code') s₂
  /-- A new label, which stands in the code. -/
  | fresh {outside standing standing' s s' code} :
      Assembled env D Q (fun l => outside l ∨ l = ⟨s.labels + 1⟩) standing
        { s with labels := s.labels + 1 } code s' →
      standing.Perm (⟨s.labels + 1⟩ :: standing') →
      Assembled env D Q outside standing' s code s'
  | label {outside s} (l) : Assembled env D Q outside [l] s [.label l] s
  | jump {outside s l} : outside l → Assembled env D Q outside [] s [Instr.jump l] s
  | jumpIf {outside s condition l} : outside l →
      Assembled env D Q outside [] s [Instr.jumpIf condition l] s
  | fixed {outside s code} : (∀ i ∈ code, i.isFixed) → Assembled env D Q outside [] s code s
  | string {outside s node value} : Q (.string node value) →
      Assembled env D Q outside [] s
        (stringCode env.platform (stringSymbol s.strings.length) value.utf8ByteSize)
        { s with strings := s.strings ++ [value] }
  | count {outside s node elements} : Q (.array node elements) →
      Assembled env D Q outside [] s [movImm (Address.stack 8) (elements.length : Nat)] s
  | home {outside s mangled a i} : env.variableAddress mangled = .ok a →
      i ∈ [.lea .rax a, mov a Register.rax, mov Register.rax a, .unary .inc a] →
      Assembled env D Q outside [] s [i] s
  | embed {outside s mangled t} : D.declares ⟨mangled, .embed⟩ t →
      Assembled env D Q outside [] s [.lea .rax (Address.ofSymbol (embedSymbol mangled))] s
  | lower {outside s n} : env.IsAmount n → Assembled env D Q outside [] s (lower n) s
  | raise {outside s n} : env.IsAmount n → Assembled env D Q outside [] s (raise n) s
  | copy {outside s dst src n} : env.Holds D Q dst n → env.Holds D Q src n →
      Assembled env D Q outside [] s (copy dst src n) s
  | zero {outside s n} : env.IsSize n → Assembled env D Q outside [] s (zero top (slot n)) s
  | collapse {outside s n kept} : env.IsSize n → env.IsKept kept →
      Assembled env D Q outside [] s (collapse (slot n) (16 + kept)) s
  | read {outside s n r} : env.IsSize n →
      Assembled env D Q outside [] s [mov (.register r .qword) (Address.stack (slot n))] s
  | result {outside s} : Assembled env D Q outside [] s
      [mov Register.rax (Address.frame env.current.frame.resultAt)] s
  | member {outside s t l m} : env.layoutOf t = .ok l → m ∈ l.members →
      Assembled env D Q outside [] s (memberCode m.offset) s
  | index {outside s n} : env.IsSize n → Assembled env D Q outside [] s (indexCode n) s
  | call {outside s mangled r} : env.routine mangled = .ok r →
      Assembled env D Q outside [] s [.call (functionSymbol mangled)] s
  | foreign {outside s f passed plan result} : env.Sends Q f passed result →
      env.platform.convention.plan? (passed.map Passed.argument) result = .ok plan →
      Assembled env D Q outside [] s
        (callForeign env.platform.convention plan passed f.linkName result) s

/-- Code of a part of a program with the given string literals. -/
structure Makes (env : Env) (D : Decls) (Q : Expr → Prop) (outside : Label → Prop)
    (literals : List String) (s : Supply) (code : Code) (s' : Supply) : Prop where
  assembled : Assembled env D Q outside [] s code s'
  strings : s'.strings = s.strings ++ literals

namespace Makes

variable {env : Env} {D : Decls} {Q : Expr → Prop} {outside : Label → Prop}
  {literals literals' : List String} {s s' s₁ : Supply} {code code' : Code}

theorem leaf (h : Assembled env D Q outside [] s code s) : Makes env D Q outside [] s code s :=
  ⟨h, by simp⟩

theorem fixed (h : ∀ i ∈ code, i.isFixed) : Makes env D Q outside [] s code s := .leaf (.fixed h)

theorem visible (h : code.all Instr.isFixed) : Makes env D Q outside [] s code s :=
  .fixed (List.all_eq_true.1 h)

theorem append (h : Makes env D Q outside literals s code s₁)
    (h' : Makes env D Q outside literals' s₁ code' s') :
    Makes env D Q outside (literals ++ literals') s (code ++ code') s' :=
  ⟨.append h.assembled h'.assembled, by rw [h'.strings, h.strings, List.append_assoc]⟩

theorem followed (h : Makes env D Q outside literals s code s₁)
    (h' : Makes env D Q outside [] s₁ code' s') :
    Makes env D Q outside literals s (code ++ code') s' := by
  simpa using h.append h'

theorem preceded (h : Makes env D Q outside [] s code s₁)
    (h' : Makes env D Q outside literals s₁ code' s') :
    Makes env D Q outside literals s (code ++ code') s' := by
  simpa using h.append h'

end Makes

section Fixed

theorem allocate_fixed (platform : Platform) (r : Register) (n : Int) (size : Nat) :
    (allocate platform (.register r .qword) size).all Instr.isFixed ∧
    (allocate platform (.immediate n) size).all Instr.isFixed := by
  obtain ⟨system, convention⟩ := platform
  cases system <;> cases convention <;> exact ⟨rfl, rfl⟩

theorem loadInteger_fixed (r : Register) (size : Nat) (ty : Ty) (offset : Nat) (h : offset ≤ 64) :
    (loadInteger r (Address.stack offset) size ty).isFixed := by
  have hread : ((offset : Int).natAbs ≤ 64) := by omega
  unfold loadInteger loadSized
  split <;> simp [isFixed, symbols, numbers, Address.symbols, Address.numbers, Operand.symbols,
    Operand.numbers, Address.stack, Address.at_, label?, symbol?, jumpsTo?, mov, h]

theorem conversionCode_fixed (source target : Ty) (size : Nat) :
    (conversionCode source target size).all Instr.isFixed := by
  have hload := loadInteger_fixed .rax size source 0 (by omega)
  unfold conversionCode
  split
  · simpa [top] using ⟨hload, rfl⟩
  · rename_i p _ _
    cases p <;> simpa [top] using ⟨hload, rfl, rfl⟩
  · rename_i p _ _
    cases p <;> rfl
  · rename_i p q _ _
    cases p <;> cases q <;> rfl

theorem unaryCode_fixed (op : UnaryOp) (ty : Ty) : (unaryCode op ty).all Instr.isFixed := by
  unfold unaryCode
  cases op with
  | not_ => dsimp only; split <;> rfl
  | negate =>
    dsimp only
    split <;> rfl
  | release => rfl

end Fixed

section Instructions

variable {i : Instr} {n size : Nat}

theorem mem_lower (h : i ∈ lower n) : i = .binary .sub Register.rsp (.immediate n) := by
  unfold lower at h
  split at h
  · cases h
  · exact List.mem_singleton.1 h

theorem mem_raise (h : i ∈ raise n) : i = .binary .add Register.rsp (.immediate n) := by
  unfold raise at h
  split at h
  · cases h
  · exact List.mem_singleton.1 h

theorem mem_copy {dst src : Address} (h : i ∈ copy dst src size) : ∃ offset width,
    offset < size ∧ (i = mov (.register .r11 width) (.memory width (src.offset offset)) ∨
      i = mov (.memory width (dst.offset offset)) (.register .r11 width)) := by
  obtain ⟨⟨offset, width⟩, hchunk, hi⟩ := List.mem_flatMap.1 h
  refine ⟨offset, width, ?_, by simpa using hi⟩
  have hfirst : offset ∈ (chunks size).flatMap (fun c => List.range' c.1 c.2.bytes) :=
    List.mem_flatMap.2 ⟨_, hchunk, by cases width <;> simp [List.mem_range', Width.bytes]⟩
  rw [flatMap_chunks] at hfirst
  exact List.mem_range.1 hfirst

theorem mem_zero {dst : Address} (h : i ∈ zero dst size) :
    ∃ k, 8 * k < size + 7 ∧ i = movImm (dst.offset (8 * k)) 0 := by
  obtain ⟨k, hk, rfl⟩ := List.mem_map.1 h
  exact ⟨k, by have := List.mem_range.1 hk; omega, rfl⟩

theorem mem_collapse {drop : Nat} (h : i ∈ collapse size drop) :
    (∃ k, 8 * k < size + 7 ∧ (i = mov Register.r11 (Address.stack (8 * k)) ∨
      i = mov (Address.stack (8 * k + drop)) Register.r11)) ∨
    i = .binary .add Register.rsp (.immediate drop) := by
  unfold collapse at h
  split at h
  · cases h
  · rcases List.mem_append.1 h with h | h
    · obtain ⟨k, hk, hi⟩ := List.mem_flatMap.1 h
      have hlt := List.mem_range.1 (List.mem_reverse.1 hk)
      exact .inl ⟨k, by omega, by simpa using hi⟩
    · exact .inr (mem_raise h)

theorem mem_memberCode {offset : Nat} (h : i ∈ memberCode offset) :
    i = .binary .add top (.immediate offset) := by
  unfold memberCode at h
  split at h
  · cases h
  · exact List.mem_singleton.1 h

theorem mem_indexCode (h : i ∈ indexCode size) :
    i.isFixed ∨ i = .binary .imul Register.rcx (.immediate size) := by
  have hsplit : indexCode size = ([mov Register.rcx top] ++ raise 16
      ++ [mov Register.rax top, .binary .cmp Register.rcx (Address.at_ .rax 8),
        .jcc .aboveOrEqual (.symbol Collector.boundsTrap),
        mov Register.rax (Address.at_ .rax 0)])
      ++ .binary .imul Register.rcx (.immediate size)
      :: [.binary .add Register.rax Register.rcx, mov top Register.rax] := rfl
  rw [hsplit] at h
  rcases List.mem_append.1 h with h | h
  · exact .inl (List.all_eq_true.1 (by rfl) i h)
  · rcases List.mem_cons.1 h with h | h
    · exact .inr h
    · exact .inl (List.all_eq_true.1 (by rfl) i h)

theorem mem_stringCode {platform : Platform} {symbol : String}
    (h : i ∈ stringCode platform symbol n) :
    i.isFixed ∨ i = movImm (Address.stack 8) n ∨ i = .lea .rsi (Address.ofSymbol symbol) := by
  unfold stringCode at h
  rcases List.mem_append.1 h with h | h
  · rcases List.mem_append.1 h with h | h
    · rcases List.mem_append.1 h with h | h
      · exact .inl (List.all_eq_true.1 (allocate_fixed platform .rax _ 1).2 i h)
      · exact .inl (List.all_eq_true.1 (by rfl) i h)
    · exact .inr (.inl (List.mem_singleton.1 h))
  · split at h
    · cases h
    · simp only [List.mem_cons, List.not_mem_nil, or_false] at h
      rcases h with rfl | rfl | rfl | rfl
      · exact .inl rfl
      · exact .inr (.inr rfl)
      · exact .inl rfl
      · exact .inl rfl

end Instructions

section Operators

variable {env : Env} {D : Decls} {Q : Expr → Prop} {outside : Label → Prop} {s s' : Supply}
  {code : Code}

theorem Assembled.visible (h : code.all Instr.isFixed) : Assembled env D Q outside [] s code s :=
  .fixed (List.all_eq_true.1 h)

theorem Makes.fresh {literals : List String}
    (h : Assembled env D Q (fun l => outside l ∨ l = ⟨s.labels + 1⟩) [⟨s.labels + 1⟩]
      { s with labels := s.labels + 1 } code s') (hs : s'.strings = s.strings ++ literals) :
    Makes env D Q outside literals s code s' :=
  ⟨.fresh h (.refl _), hs⟩

theorem setIf_assembled (condition : Condition) {done : Label} (h : outside done) :
    Assembled env D Q outside [done] s (setIf condition done) s :=
  .append (.visible rfl : Assembled _ _ _ _ _ _ [movImm Register.rax 1] _)
    (.append (.jumpIf h) (.append (.visible rfl : Assembled _ _ _ _ _ _ [movImm Register.rax 0] _)
      (.label done)))

theorem compareCode_makes (condition : Condition) :
    Forms (env.Exceeds Q) (compareCode condition) s fun code s' =>
      Makes env D Q outside [] s code s' :=
  .freshLabel (.pure (.fresh (.append (.visible rfl) (setIf_assembled condition (.inr rfl)))
    (by simp)))

theorem division_fixed (unsigned : Bool) : (division unsigned).all Instr.isFixed := by
  cases unsigned <;> rfl

theorem flooredModulo_makes (unsigned : Bool) :
    Forms (env.Exceeds Q) (flooredModulo unsigned) s fun code s' =>
      Makes env D Q outside [] s code s' := by
  refine .freshLabel (.pure (.fresh (.append (.visible (division_fixed unsigned)) ?_) (by simp)))
  refine .append (.visible rfl : Assembled _ _ _ _ _ _ [mov Register.rax Register.rdx,
    .binary .test Register.rdx Register.rdx] _) (.append (.jumpIf (.inr rfl)) ?_)
  refine .append (.visible rfl : Assembled _ _ _ _ _ _ [.binary .xor_ Register.rdx Register.rcx] _)
    (.append (.jumpIf (.inr rfl)) ?_)
  exact .append (.visible rfl : Assembled _ _ _ _ _ _ [.binary .add Register.rax Register.rcx] _)
    (.label _)

theorem integerOperation_makes (unsigned : Bool) (op : BinaryOp) :
    Forms (env.Exceeds Q) (integerOperation unsigned op) s fun code s' =>
      Makes env D Q outside [] s code s' := by
  cases op with
  | add | subtract | multiply | and_ | or_ | xor_ => exact .pure (.visible rfl)
  | divide => exact .pure (.visible (division_fixed unsigned))
  | modulo => exact .pure (.followed (.visible (division_fixed unsigned)) (.visible rfl))
  | flooredModulo => exact flooredModulo_makes unsigned
  | equal | notEqual | less | lessOrEqual | greater | greaterOrEqual => exact compareCode_makes _

theorem integerBinary_makes (op : BinaryOp) (lhs rhs : Ty) (lhsSize rhsSize : Nat) :
    Forms (env.Exceeds Q) (integerBinary op lhs rhs lhsSize rhsSize) s fun code s' =>
      Makes env D Q outside [] s code s' := by
  have hloads : [loadInteger .rax (Address.stack 16) lhsSize lhs,
      loadInteger .rcx top rhsSize rhs].all Instr.isFixed := by
    simp [loadInteger_fixed .rax lhsSize lhs 16 (by omega), top,
      loadInteger_fixed .rcx rhsSize rhs 0 (by omega)]
  exact .seq (integerOperation_makes _ op) fun operation s' hoperation => .pure
    (.followed (.preceded (.preceded (.visible hloads) (.visible rfl)) hoperation) (.visible rfl))

theorem floatCompare_makes (precision : Precision) (condition : Condition) (unordered : Int) :
    Forms (env.Exceeds Q) (floatCompare precision condition unordered) s fun code s' =>
      Makes env D Q outside [] s code s' := by
  have hflags {outside' : Label → Prop} {done : Label} {s : Supply} (h : outside' done) :
      Assembled env D Q outside' [] s [.compareFloat precision ⟨0⟩ ⟨1⟩,
        movImm Register.rax unordered, jumpIf .unordered done] s :=
    .append (.visible rfl : Assembled _ _ _ _ _ _ [.compareFloat precision ⟨0⟩ ⟨1⟩,
      movImm Register.rax unordered] _) (.jumpIf h)
  exact .freshLabel (.pure (.followed (.fresh (.append (hflags (.inr rfl))
    (setIf_assembled condition (.inr rfl))) (by simp)) (.visible rfl)))

theorem floatOperation_makes (precision : Precision) (op : BinaryOp) :
    Forms (env.Exceeds Q) (floatOperation precision op) s fun code s' =>
      Makes env D Q outside [] s code s' := by
  have harithmetic : ∀ op, (floatArithmetic op precision).all Instr.isFixed := fun op => by
    cases op <;> cases precision <;> rfl
  cases op with
  | add | subtract | multiply | divide => exact .pure (.visible (harithmetic _))
  | equal | notEqual | less | lessOrEqual | greater | greaterOrEqual =>
    exact floatCompare_makes _ _ _
  | modulo | flooredModulo | and_ | or_ | xor_ => exact .throw

theorem floatBinary_makes (op : BinaryOp) (precision : Precision) :
    Forms (env.Exceeds Q) (floatBinary op precision) s fun code s' =>
      Makes env D Q outside [] s code s' :=
  .seq (floatOperation_makes precision op) fun operation s' hoperation => .pure
    (.preceded (.preceded (.visible (by cases precision <;> rfl)) (.visible rfl)) hoperation)

end Operators

section Values

variable {env : Env} {D : Decls} {Q : Expr → Prop} {outside : Label → Prop}
  {literals : List String} {s s' : Supply} {code : Code} {n kept offset : Nat}

theorem Env.routine_mem {mangled : String} {r : Routine} (h : env.routine mangled = .ok r) :
    r ∈ env.routines ∧ r.name = mangled := by
  unfold Env.routine at h
  split at h
  case h_1 r' hfind =>
    cases h
    exact ⟨List.mem_of_find?_eq_some hfind, by simpa using List.find?_some hfind⟩
  case h_2 => cases h

theorem Env.sizeOf_eq {t : Ty} (h : env.sizeOf t = .ok n) :
    ∃ l, env.layoutOf t = .ok l ∧ l.size = n := by
  unfold Env.sizeOf at h
  cases hl : env.layoutOf t with
  | error e =>
    rw [hl] at h
    cases h
  | ok l =>
    rw [hl] at h
    cases h
    exact ⟨l, rfl, rfl⟩

theorem Env.variableAddress_eq {mangled : String} {a : Address}
    (h : env.variableAddress mangled = .ok a) :
    (∃ v ∈ env.current.function.stack.parameters, ∃ n, placedAt v = .ok n ∧
      a = Address.frame (env.current.frame.argumentAt n)) ∨
    ∃ v ∈ env.current.function.stack.locals, ∃ n, placedAt v = .ok n ∧
      a = Address.frame (env.current.frame.localAt n) := by
  have hplaced : ∀ {v : StackVariable} {f : Nat → Address},
      (do return f (← placedAt v)) = Except.ok a → ∃ n, placedAt v = .ok n ∧ a = f n := by
    intro v f hv
    cases hat : placedAt v with
    | error e =>
      rw [hat] at hv
      cases hv
    | ok n =>
      rw [hat] at hv
      cases hv
      exact ⟨n, rfl, rfl⟩
  unfold Env.variableAddress at h
  dsimp only at h
  split at h
  · rename_i v hv
    obtain ⟨n, hn, rfl⟩ := hplaced h
    exact .inl ⟨v, List.mem_of_find?_eq_some hv, n, hn, rfl⟩
  · split at h
    · rename_i v hv
      obtain ⟨n, hn, rfl⟩ := hplaced h
      exact .inr ⟨v, List.mem_of_find?_eq_some hv, n, hn, rfl⟩
    · cases h

theorem Env.isSize_of_layoutOf {t : Ty} {l : Layout} (h : env.layoutOf t = .ok l) :
    env.IsSize l.size :=
  ⟨t, by simp [Env.sizeOf, h]⟩

theorem Env.IsPart.size (h : env.IsPart offset n) : env.IsSize n := by
  cases h with
  | member _ _ h => exact ⟨_, h⟩
  | argument _ _ _ h => exact ⟨_, h⟩

theorem pushAddress_makes {a : Address}
    (h : Assembled env D Q outside [] s [.lea .rax a] s) :
    Makes env D Q outside [] s (pushAddress a) s :=
  .followed (.leaf h) (.visible rfl)

theorem valueAt_makes (h : Makes env D Q outside literals s code s') (hn : env.IsSize n)
    (hkept : env.IsKept kept) :
    Makes env D Q outside literals s (valueAt n code kept) s' :=
  .followed (.followed (.followed (.followed h (.visible rfl)) (.leaf (.lower (.slot hn))))
    (.leaf (.copy (.pointed hn) (.pointed hn)))) (.leaf (.collapse hn hkept))

theorem storeBelow_makes (h : env.IsPart offset n) :
    Makes env D Q outside [] s (storeBelow offset n) s :=
  .followed (.leaf (.copy (.below h) (.pointed h.size))) (.leaf (.raise (.slot h.size)))

theorem placeWith_makes (hE : env.Fits D) {name : Located String} {base : Ty} {binding : Binding}
    (hdecl : D.declares binding base) (hbase : base.isFunction = false)
    {along : Ty → Gen Code} {called : Binding → Gen (Code × Nat)}
    (halong : Forms (env.Exceeds Q) (along base) s fun code s' =>
      Makes env D Q outside literals s code s') :
    Forms (env.Exceeds Q) (placeWith env ⟨name, some base, some binding⟩ along called) s fun r s' =>
      Makes env D Q outside literals s r.1 s' ∧ env.IsKept r.2 := by
  obtain ⟨mangled, kind⟩ := binding
  have hpushed : ∀ a : Address, Assembled env D Q outside [] s [.lea .rax a] s →
      Forms (env.Exceeds Q) (do return (pushAddress a ++ (← along base), 0)) s fun r s' =>
        Makes env D Q outside literals s r.1 s' ∧ env.IsKept r.2 := fun a ha =>
    .seq halong fun code s' hcode => .pure ⟨.preceded (pushAddress_makes ha) hcode, .inl rfl⟩
  have hhome : Forms (env.Exceeds Q) (do
      let address ← env.variableAddress mangled
      return (pushAddress address ++ (← along base), 0)) s fun r s' =>
        Makes env D Q outside literals s r.1 s' ∧ env.IsKept r.2 :=
    .lift fun a ha => hpushed a (.home ha (by simp))
  cases kind with
  | parameter | local_ | iterator => exact .known rfl (.known rfl hhome)
  | embed => exact .known rfl (.known rfl (hpushed _ (.embed hdecl)))
  | function =>
    obtain ⟨_, _, _, -, rfl, -⟩ := hE.functions hdecl
    cases hbase
  | foreignFunction =>
    obtain ⟨_, _, _, _, -, rfl, -⟩ := hE.foreign hdecl
    cases hbase

theorem callWith_makes (hE : env.Fits D) {binding : Binding} {result : Ty} {parameters : List Ty}
    {variadic foreign : Bool}
    (hdecl : D.declares binding (.function result parameters variadic foreign))
    {arguments : List Expr} {stores : List StackVariable → Gen Code}
    {values : Nat → Gen (Code × List Passed)}
    (hstores : ∀ r ∈ env.routines, variadic = false →
      r.function.stack.parameters.length = parameters.length →
      Forms (env.Exceeds Q) (stores r.function.stack.parameters) s fun code s' =>
        Makes env D Q outside literals s code s')
    (hvalues : ∀ fixed, Forms (env.Exceeds Q) (values fixed) s fun r s' =>
      Makes env D Q outside literals s r.1 s' ∧ Passes env.layouts fixed arguments r.2)
    {node : Node} {span : Span} {name : Located String} {ty : Option Ty} {rest : List Accessor}
    (hQ : Q (.variable node ⟨name, ty, some binding⟩
      (.call ⟨span, some result⟩ arguments :: rest))) :
    Forms (env.Exceeds Q) (callWith env binding result stores values) s fun code s' =>
      Makes env D Q outside literals s code s' := by
  obtain ⟨mangled, kind⟩ := binding
  unfold callWith
  cases kind with
  | function =>
    obtain ⟨_, _, _, hfound, heq, hfits⟩ := hE.functions hdecl
    cases heq
    have hmem := (Env.routine_mem hfound).1
    refine .known hfound (.seq (hstores _ hmem rfl hfits.parameters.length_eq)
      fun stored s' hstored => .pure ?_)
    refine .followed (.followed (.followed (.preceded (.followed (.leaf (.lower (.result hmem)))
      (.leaf (.lower (.arguments hmem)))) hstored) (.leaf (.call hfound)))
      (.leaf (.raise (.arguments hmem)))) ?_
    split
    · exact .visible rfl
    · exact .visible rfl
  | foreignFunction =>
    refine .lift fun f hf => .lift fun l hl => .seq (hvalues _) ?_
    rintro ⟨pushed, passed⟩ s' ⟨hpushed, hpasses⟩
    have hsends : env.Sends Q f passed (if result.isVoid then none else some (.of result l)) :=
      ⟨_, _, _, _, _, _, _, _, _, hQ, hf, hpasses, hl, rfl⟩
    dsimp only
    split
    · exact .throw
    · exact .overflow ⟨f, passed, _, hsends, ‹_›⟩
    · rename_i plan hplan
      exact .pure (.followed (.preceded (.leaf (.lower (.slot (Env.isSize_of_layoutOf hl))))
        hpushed) (.leaf (.foreign hsends hplan)))
  | parameter => exact absurd (hE.onStack rfl hdecl).1 (by simp [Ty.isFunction])
  | local_ => exact absurd (hE.onStack rfl hdecl).1 (by simp [Ty.isFunction])
  | iterator => exact absurd (hE.onStack rfl hdecl).1 (by simp [Ty.isFunction])
  | embed => exact absurd (hE.embeds hdecl) (by simp [Ty.isFunction])

theorem calledCode_makes {binding : Binding} {result : Ty} {literals' : List String}
    {arguments : List Expr} {rest : List Accessor} {name : String} {span : Span}
    (hcall : Forms (env.Exceeds Q) (callWith env binding result
      (fun parameters => argumentsCode env parameters arguments)
      (fun fixed => foreignArgumentsCode env fixed arguments)) s fun code s' =>
      Makes env D Q outside literals s code s')
    (hsteps : ∀ s, Forms (env.Exceeds Q) (accessorsCode env name result rest) s fun code s' =>
      Makes env D Q outside literals' s code s') :
    Forms (env.Exceeds Q) (calledCode env name binding
      (.call ⟨span, some result⟩ arguments :: rest)) s
      fun r s' => Makes env D Q outside (literals ++ literals') s r.1 s' ∧ env.IsKept r.2 := by
  rw [calledCode]
  exact .known rfl (.seq hcall fun call s' hcall => .lift fun size hsize => .seq (hsteps s')
    fun steps s'' hsteps => .pure ⟨.append (.followed hcall (pushAddress_makes (.visible rfl)))
      hsteps, .inr ⟨size, ⟨_, hsize⟩, rfl⟩⟩)

end Values

theorem throughout {Q : Expr → Prop} {e child : Expr} (hQ : ∀ x, Expr.Occurs x e → Q x)
    (hchild : child ∈ e.children) : ∀ x, Expr.Occurs x child → Q x :=
  fun x hx => hQ x (.inside hchild hx)

section Expressions

variable {env : Env} {D : Decls} {Q : Expr → Prop} {outside : Label → Prop}

theorem valueCode_makes (hE : env.Fits D) {name : Located String} {base t : Ty} {binding : Binding}
    {accessors : List Accessor} (hdecl : D.declares binding base) (hbase : base.isFunction = false)
    (hleads : Leads D base accessors t) {literals : List String} {s : Supply}
    (halong : Forms (env.Exceeds Q) (accessorsCode env name.value base accessors) s fun code s' =>
      Makes env D Q outside literals s code s') (span : Span) :
    Forms (env.Exceeds Q) (exprCode env
      (.variable ⟨span, some t⟩ ⟨name, some base, some binding⟩ accessors)) s
      fun code s' => Makes env D Q outside literals s code s' := by
  rw [exprCode_reference (Leads.not_call hleads)]
  exact .known rfl (.known (placeTy_leads hleads _ _) (.lift fun size hsize =>
    .seq (placeWith_makes hE hdecl hbase halong) fun r s' h =>
      .pure (valueAt_makes h.1 ⟨_, hsize⟩ h.2)))

theorem callCode_makes (hE : env.Fits D) {name : Located String} {result t : Ty}
    {parameters : List Ty} {variadic foreign : Bool} {binding : Binding} {arguments : List Expr}
    {rest : List Accessor}
    (hdecl : D.declares binding (.function result parameters variadic foreign))
    (hleads : Leads D result rest t) {literals literals' : List String} {s : Supply}
    (hcall : Forms (env.Exceeds Q) (callWith env binding result
      (fun parameters => argumentsCode env parameters arguments)
      (fun fixed => foreignArgumentsCode env fixed arguments)) s fun code s' =>
      Makes env D Q outside literals s code s')
    (hsteps : ∀ s, Forms (env.Exceeds Q) (accessorsCode env name.value result rest) s fun code s' =>
      Makes env D Q outside literals' s code s') (hnil : rest = [] → literals' = [])
    (span span' : Span) :
    Forms (env.Exceeds Q) (exprCode env (.variable ⟨span, some t⟩
      ⟨name, some (.function result parameters variadic foreign), some binding⟩
      (.call ⟨span', some result⟩ arguments :: rest))) s
      fun code s' => Makes env D Q outside (literals ++ literals') s code s' := by
  by_cases hrest : rest = []
  · rw [hnil hrest, List.append_nil]
    subst hrest
    cases hleads
    rw [exprCode]
    exact .known rfl (.known rfl (.known rfl hcall))
  · rw [exprCode_reference (by simp [hrest])]
    refine .known rfl (.known (placeTy_called hleads _ _ _) (.lift fun size hsize => ?_))
    rw [placeWith_called hE hdecl]
    exact .seq (calledCode_makes hcall hsteps) fun r s' h =>
      .pure (valueAt_makes h.1 ⟨_, hsize⟩ h.2)

mutual
theorem exprCode_makes (hE : env.Fits D) : ∀ (e : Expr) {t : Ty}, HasType D e t →
    (∀ x, Expr.Occurs x e → Q x) → ∀ s : Supply,
    Forms (env.Exceeds Q) (exprCode env e) s fun code s' =>
      Makes env D Q outside e.literals s code s'
  | .integer node literal, t, h, hQ, s => by
    cases h
    rw [exprCode]
    exact .known rfl (.pure (.visible rfl))
  | .float node bits, t, h, hQ, s => by
    cases h
    rw [exprCode]
    exact .known rfl (.pure (.visible rfl))
  | .boolean node value, t, h, hQ, s => by
    cases h
    rw [exprCode]
    exact .known rfl (.pure (.visible rfl))
  | .string node value, t, h, hQ, s => by
    cases h
    rw [exprCode]
    exact .known rfl (.keepString (.pure ⟨.string (hQ _ .here), rfl⟩))
  | .null node, t, h, hQ, s => by
    cases h
    rw [exprCode]
    exact .known rfl (.pure (.visible rfl))
  | .variable node head [], t, h, hQ, s => by
    cases h with | reference h
    cases h with | value hdecl hf hleads
    exact valueCode_makes hE hdecl hf hleads (accessorsCode_makes hE [] hleads
      (fun e he => throughout hQ he) _ s) _
  | .variable node head (.index node' position :: rest), t, h, hQ, s => by
    cases h with | reference h
    cases h with | value hdecl hf hleads
    exact valueCode_makes hE hdecl hf hleads (accessorsCode_makes hE (.index node' position :: rest)
      hleads (fun e he => throughout hQ he) _ s) _
  | .variable node head (.dereference node' :: rest), t, h, hQ, s => by
    cases h with | reference h
    cases h with | value hdecl hf hleads
    exact valueCode_makes hE hdecl hf hleads (accessorsCode_makes hE (.dereference node' :: rest)
      hleads (fun e he => throughout hQ he) _ s) _
  | .variable node head (.member node' name :: rest), t, h, hQ, s => by
    cases h with | reference h
    cases h with | value hdecl hf hleads
    exact valueCode_makes hE hdecl hf hleads (accessorsCode_makes hE (.member node' name :: rest)
      hleads (fun e he => throughout hQ he) _ s) _
  | .variable node head (.call node' arguments :: rest), t, h, hQ, s => by
    cases h with | reference h
    cases h with
    | value _ _ hleads => cases hleads
    | call hdecl htakes hleads =>
      refine callCode_makes hE hdecl hleads (callWith_makes hE hdecl ?_ ?_ (hQ _ .here)) ?_ ?_ _ _
      · exact fun r hr hvariadic hlength => argumentsCode_makes hE arguments htakes hvariadic
          (fun e he => throughout hQ (by simp [Expr.children, Accessor.expressions, he])) hr
          (fun v hv => hv) hlength s
      · exact fun fixed => foreignArgumentsCode_makes hE arguments htakes
          (fun e he => throughout hQ (by simp [Expr.children, Accessor.expressions, he])) fixed s
      · exact fun s' => accessorsCode_makes hE rest hleads
          (fun e he => throughout hQ (by
            rw [Expr.children, List.flatMap_cons]
            exact List.mem_append_right _ he)) _ s'
      · rintro rfl
        rfl
  | .parenthesized node inner, t, h, hQ, s => by
    cases h with | parenthesized h
    rw [exprCode]
    exact .known rfl (exprCode_makes hE inner h (throughout hQ (by simp [Expr.children])) s)
  | .array node [], t, h, hQ, s => by
    cases h
    rw [exprCode]
    exact .known rfl (.pure (.visible rfl))
  | .array node (first :: rest), t, h, hQ, s => by
    have helements := h.children
    cases h
    rw [exprCode]
    refine .known rfl (.lift fun size hsize => .seq (elementsCode_makes hE (first :: rest)
      helements (fun e he => throughout hQ he) (hQ _ .here) hsize 0 (by simp) s)
        fun stores s' hstores => .pure ?_)
    exact .preceded (.followed (.followed (.visible (allocate_fixed _ .rax _ _).2) (.visible rfl))
      (.leaf (.count (hQ _ .here)))) hstores
  | .allocation node count, t, h, hQ, s => by
    cases h with | allocation hcount hk
    rw [exprCode]
    refine .known rfl (.lift fun size hsize => .seq (exprCode_makes hE count hcount
      (throughout hQ (by simp [Expr.children])) s) fun code s' hcode => .pure (.followed hcode ?_))
    exact .followed (.followed (.visible rfl) (.visible (allocate_fixed _ .rax 0 _).1))
      (.visible rfl)
  | .addressOf node span head accessors, t, h, hQ, s => by
    cases h with | addressOf h hcalls
    rw [exprCode]
    refine .known rfl ?_
    cases h with
    | value hdecl hf hleads =>
      refine .seq (placeWith_makes hE hdecl hf (accessorsCode_makes hE accessors hleads
        (fun e he => throughout hQ he) _ s)) ?_
      rintro ⟨place, kept⟩ s' ⟨hplace, -⟩
      dsimp only
      split
      · exact .pure hplace
      · exact .throw
    | call _ _ _ => simp [Place.containsCall, Accessor.isCall] at hcalls
  | .unary node op operand, t, h, hQ, s => by
    cases h with | unary h hop
    rw [exprCode]
    exact .known rfl (.lift fun _ _ => .seq (exprCode_makes hE operand h
      (throughout hQ (by simp [Expr.children])) s) fun value s' hvalue =>
      .pure (.followed hvalue (.visible (unaryCode_fixed _ _))))
  | .binary node op lhs rhs, t, h, hQ, s => by
    cases h with | binary hl hr hagrees hop
    rw [exprCode]
    refine .known rfl (.lift fun _ _ => .lift fun _ _ => .seq (exprCode_makes hE lhs hl
      (throughout hQ (by simp [Expr.children])) s) fun left s' hleft => .seq
        (exprCode_makes hE rhs hr
      (throughout hQ (by simp [Expr.children])) s') fun right s'' hright => ?_)
    split
    · exact .seq (floatBinary_makes _ _) fun operation m hoperation =>
        .pure (.followed (.append hleft hright) hoperation)
    · exact .lift fun _ _ => .lift fun _ _ => .seq (integerBinary_makes _ _ _ _ _)
        fun operation m hoperation => .pure (.followed (.append hleft hright) hoperation)
  | .conversion node inner target, t, h, hQ, s => by
    cases h with | conversion h hconv _
    rw [exprCode]
    exact .known rfl (.seq (exprCode_makes hE inner h (throughout hQ (by simp [Expr.children])) s)
      fun value s' hvalue => .lift fun _ _ => .lift fun _ _ =>
      .pure (.followed hvalue (.visible (conversionCode_fixed _ _ _))))
  | .construct node record arguments, t, h, hQ, s => by
    cases h with | @construct _ _ _ l hl hinit
    have hlayout : env.layoutOf (.base record.value) = .ok l := by
      simp [Env.layoutOf, Registry.layoutOf, hE.layouts, hl]
    rw [exprCode]
    refine .known rfl (.known hlayout (.seq (membersCode_makes hE arguments hinit
      (fun e he => throughout hQ he) hlayout (fun m hm => hm) s) fun stores s' hstores => .pure ?_))
    have hsize := Env.isSize_of_layoutOf hlayout
    exact .preceded (.followed (.leaf (.lower (.slot hsize))) (.leaf (.zero hsize))) hstores

theorem accessorsCode_makes (hE : env.Fits D) : ∀ (accessors : List Accessor) {base t : Ty},
    Leads D base accessors t →
    (∀ e ∈ accessors.flatMap Accessor.expressions, ∀ x, Expr.Occurs x e → Q x) →
    ∀ (name : String) (s : Supply),
      Forms (env.Exceeds Q) (accessorsCode env name base accessors) s fun code s' =>
        Makes env D Q outside (Accessor.literals accessors) s code s'
  | [], base, t, h, hQ, name, s => by
    rw [accessorsCode]
    exact .pure (.leaf .nil)
  | .index node position :: rest, base, t, h, hQ, name, s => by
    cases h with | index hp h
    rw [accessorsCode]
    exact .lift fun size hsize => .seq (exprCode_makes hE position hp
      (hQ _ (by simp [Accessor.expressions])) s) fun index s' hindex => .known rfl
      (.seq (accessorsCode_makes hE rest h (fun e he => hQ e (by
        rw [List.flatMap_cons]
        exact List.mem_append_right _ he)) name s') fun steps s'' hsteps =>
      .pure (.append (.followed hindex (.leaf (.index ⟨_, hsize⟩))) hsteps))
  | .dereference node :: rest, base, t, h, hQ, name, s => by
    cases h with | dereference h
    rw [accessorsCode]
    exact .known rfl (.seq (accessorsCode_makes hE rest h hQ name s) fun steps s' hsteps =>
      .pure (.preceded (.visible rfl) hsteps))
  | .member node member :: rest, base, t, h, hQ, name, s => by
    cases h with | @member record l m _ _ _ _ hl hm h
    have hlayout : env.layoutOf (.base record) = .ok l := by
      simp [Env.layoutOf, Registry.layoutOf, hE.layouts, hl]
    rw [accessorsCode]
    refine .known hlayout ?_
    simp only [hm]
    exact .known rfl (.seq (accessorsCode_makes hE rest h hQ name s) fun steps s' hsteps =>
      .pure (.preceded (.leaf (.member hlayout (List.mem_of_find?_eq_some hm))) hsteps))
  | .call node arguments :: rest, base, t, h, hQ, name, s => by cases h

theorem argumentsCode_makes (hE : env.Fits D) : ∀ (arguments : List Expr) {parameters : List Ty}
    {variadic : Bool}, Takes D parameters variadic arguments → variadic = false →
    (∀ e ∈ arguments, ∀ x, Expr.Occurs x e → Q x) →
    ∀ {r : Routine} {vs : List StackVariable}, r ∈ env.routines →
    (∀ v ∈ vs, v ∈ r.function.stack.parameters) → vs.length = parameters.length → ∀ s : Supply,
    Forms (env.Exceeds Q) (argumentsCode env vs arguments) s fun code s' =>
      Makes env D Q outside (Expr.listLiterals arguments) s code s'
  | [], parameters, variadic, h, hv, hQ, r, vs, hr, hvs, hlength, s => by
    rw [argumentsCode]
    exact .pure (.leaf .nil)
  | argument :: rest, parameters, variadic, h, hv, hQ, r, [], hr, hvs, hlength, s => by
    cases h with
    | more _ _ => cases hv
    | cons _ _ _ => cases hlength
  | argument :: rest, parameters, variadic, h, hv, hQ, r, v :: vs, hr, hvs, hlength, s => by
    cases h with
    | more _ _ => cases hv
    | cons h hagrees hrest =>
      rw [argumentsCode]
      exact .lift fun size hsize => .seq (exprCode_makes hE argument h (hQ _ (by simp)) s)
        fun value s' hvalue => .lift fun offset hoffset => .seq (argumentsCode_makes hE rest hrest
        hv (fun e he => hQ e (by simp [he])) hr (fun w hw => hvs w (by simp [hw]))
        (by simpa using hlength) s') fun stores s'' hstores => .pure (.append (.followed hvalue
        (storeBelow_makes (.argument hr (hvs v (by simp)) hoffset hsize))) hstores)

theorem foreignArgumentsCode_makes (hE : env.Fits D) : ∀ (arguments : List Expr)
    {parameters : List Ty} {variadic : Bool}, Takes D parameters variadic arguments →
    (∀ e ∈ arguments, ∀ x, Expr.Occurs x e → Q x) → ∀ (fixed : Nat) (s : Supply),
    Forms (env.Exceeds Q) (foreignArgumentsCode env fixed arguments) s fun r s' =>
      Makes env D Q outside (Expr.listLiterals arguments) s r.1 s' ∧
        Passes env.layouts fixed arguments r.2
  | [], parameters, variadic, h, hQ, fixed, s => by
    rw [foreignArgumentsCode]
    exact .pure ⟨.leaf .nil, .nil⟩
  | argument :: rest, parameters, variadic, h, hQ, fixed, s => by
    obtain ⟨t, parameters', h, hrest⟩ := h.uncons
    rw [foreignArgumentsCode]
    refine .known (by rw [h.ty_eq]; rfl) (.seq (exprCode_makes hE argument h (hQ _ (by simp)) s)
      fun value s' hvalue => .lift fun l hl => .seq (foreignArgumentsCode_makes hE rest hrest
      (fun e he => hQ e (by simp [he])) (fixed - 1) s') fun r s'' hr => .pure ⟨?_, .cons h.ty_eq
      (Env.layouts_layoutOf hl) hr.2⟩)
    refine .append (.followed hvalue ?_) hr.1
    split
    · exact .visible rfl
    · exact .visible rfl

theorem elementsCode_makes (hE : env.Fits D) : ∀ elements : List Expr,
    (∀ e ∈ elements, ∃ t, HasType D e t) → (∀ e ∈ elements, ∀ x, Expr.Occurs x e → Q x) →
    ∀ {span : Span} {u : Ty} {length : ArrayLength} {all : List Expr} {size : Nat},
    Q (.array ⟨span, some (.array u length)⟩ all) → env.sizeOf u = .ok size →
    ∀ index : Nat, index + elements.length ≤ all.length → ∀ s : Supply,
    Forms (env.Exceeds Q) (elementsCode env size index elements) s fun code s' =>
      Makes env D Q outside (Expr.listLiterals elements) s code s'
  | [], h, hQ, span, u, length, all, size, hall, hsize, index, hle, s => by
    rw [elementsCode]
    exact .pure (.leaf .nil)
  | element :: rest, h, hQ, span, u, length, all, size, hall, hsize, index, hle, s => by
    obtain ⟨t, ht⟩ := h element (by simp)
    rw [List.length_cons] at hle
    rw [elementsCode]
    refine .seq (exprCode_makes hE element ht (hQ _ (by simp)) s) fun value s' hvalue =>
      .seq (elementsCode_makes hE rest (fun e he => h e (by simp [he]))
        (fun e he => hQ e (by simp [he])) hall hsize
      (index + 1) (by omega) s') fun stores s'' hstores => .pure (.append ?_ hstores)
    have hn : env.IsSize size := ⟨_, hsize⟩
    exact .followed (.followed (.followed hvalue (.leaf (.read hn)))
      (.leaf (.copy (.element hall hsize (by omega)) (.pointed hn)))) (.leaf (.raise (.slot hn)))

theorem membersCode_makes (hE : env.Fits D) : ∀ (arguments : List Argument)
    {members : List LayoutMember}, Initializes D members arguments →
    (∀ e ∈ arguments.map Argument.value, ∀ x, Expr.Occurs x e → Q x) →
    ∀ {t : Ty} {l : Layout}, env.layoutOf t = .ok l → (∀ m ∈ members, m ∈ l.members) →
    ∀ s : Supply, Forms (env.Exceeds Q) (membersCode env members arguments) s fun code s' =>
      Makes env D Q outside (Argument.literals arguments) s code s'
  | [], members, h, hQ, t, l, hl, hm, s => by
    rw [membersCode]
    exact .pure (.leaf .nil)
  | .mk name value :: rest, members, h, hQ, t, l, hl, hm, s => by
    cases h with | cons h hagrees hrest
    rw [membersCode]
    exact .lift fun size hsize => .seq (exprCode_makes hE value h
      (hQ _ (by simp [Argument.value])) s) fun code s' hcode => .seq (membersCode_makes hE rest
      hrest (fun e he => hQ e (by
        rw [List.map_cons]
        exact List.mem_cons_of_mem _ he)) hl (fun m h => hm m (by simp [h])) s')
      fun stores s'' hstores => .pure (.append (.followed hcode
      (storeBelow_makes (.member hl (hm _ (by simp)) hsize))) hstores)
end

end Expressions

end RegionCompiler.Codegen
