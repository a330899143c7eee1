import Mathlib
import RegionCompiler.Program

/-! What programs over integers and truth values mean. Arithmetic wraps around at the width of the
type; operands and arguments are evaluated from left to right, and connectives evaluate both of
their operands. Outside of this part of the language, and where a division faults, there is no
meaning. Calls nest only so deep and loops take fuel: a run that needs more than it has does not
end. -/
namespace RegionCompiler.Semantics

inductive Scalar
  | int
  | i32
  | byte
  | bool
deriving DecidableEq

namespace Scalar

def ty : Scalar → Ty
  | .int => Ty.int
  | .i32 => Ty.i32
  | .byte => Ty.byte
  | .bool => Ty.bool

def ofTy? (t : Ty) : Option Scalar :=
  if t.isPlain "int" then some .int
  else if t.isPlain "i32" then some .i32
  else if t.isPlain "byte" then some .byte
  else if t.isPlain "bool" then some .bool
  else none

theorem ty_of_ofTy? {t : Ty} {k : Scalar} (h : ofTy? t = some k) : t = k.ty := by
  cases t with
  | base name =>
    simp only [ofTy?, Ty.isPlain, beq_iff_eq] at h
    split at h
    · subst_vars
      cases h
      rfl
    · split at h
      · subst_vars
        cases h
        rfl
      · split at h
        · subst_vars
          cases h
          rfl
        · split at h
          · subst_vars
            cases h
            rfl
          · cases h
  | _ => simp [ofTy?, Ty.isPlain] at h

def bytes : Scalar → Nat
  | .int => 8
  | .i32 => 4
  | .byte | .bool => 1

/-- The value that a number stands for. -/
def wrap : Scalar → Int → Int
  | .int, v => v.bmod (2 ^ 64)
  | .i32, v => v.bmod (2 ^ 32)
  | .byte, v => v % 2 ^ 8
  | .bool, v => v % 2

/-- The values of the type. -/
def Range (k : Scalar) (v : Int) : Prop := k.wrap v = v

instance (k : Scalar) (v : Int) : Decidable (k.Range v) :=
  inferInstanceAs (Decidable (k.wrap v = v))

end Scalar

def truth (b : Bool) : Int := if b then 1 else 0

def unaryValue (op : UnaryOp) (k : Scalar) (v : Int) : Option Int :=
  match op with
  | .negate => some (k.wrap (-v))
  | .not_ => some (if k = .bool then 1 - v else -v - 1)
  | .release => none

/-- A divisor of zero faults, and so does the one quotient that does not fit into a word. -/
def canDivide (k : Scalar) (a b : Int) : Bool := b ≠ 0 && !(k = .int && a = -2 ^ 63 && b = -1)

def binaryValue (op : BinaryOp) (k : Scalar) (a b : Int) : Option Int :=
  match op with
  | .add => some (k.wrap (a + b))
  | .subtract => some (k.wrap (a - b))
  | .multiply => some (k.wrap (a * b))
  | .divide => if canDivide k a b then some (k.wrap (a.tdiv b)) else none
  | .modulo => if canDivide k a b then some (a.tmod b) else none
  | .flooredModulo => if canDivide k a b then some (a.fmod b) else none
  | .equal => some (truth (a = b))
  | .notEqual => some (truth (a ≠ b))
  | .less => some (truth (a < b))
  | .lessOrEqual => some (truth (a ≤ b))
  | .greater => some (truth (b < a))
  | .greaterOrEqual => some (truth (b ≤ a))
  | .and_ => some (truth (a ≠ 0 && b ≠ 0))
  | .or_ => some (truth (a ≠ 0 || b ≠ 0))
  | .xor_ => some (truth (a ≠ b))

/-- The values of variables, by their unique names. -/
abbrev Store := String → Option Int

def Store.set (store : Store) (name : String) (value : Int) : Store := fun other =>
  if other = name then some value else store other

def kindOf (e : Expr) : Option Scalar := e.ty.bind Scalar.ofTy?

section Expressions

variable (call : String → List Int → Option Int) (store : Store)

mutual
def eval (e : Expr) : Option Int :=
  match kindOf e with
  | none => none
  | some k =>
    match e with
    | .integer _ literal => some (k.wrap literal.value.toNat)
    | .boolean _ value => some (truth value)
    | .variable _ ⟨_, _, some binding⟩ [] =>
      if binding.kind.isStack then store binding.mangled else none
    | .variable _ ⟨_, _, some ⟨name, .function⟩⟩ [.call _ arguments] =>
      (evalAll arguments).bind (call name)
    | .parenthesized _ inner => eval inner
    | .unary _ op operand => (eval operand).bind (unaryValue op.value k)
    | .binary _ op lhs rhs =>
      (kindOf lhs).bind fun k => (eval lhs).bind fun a => (eval rhs).bind (binaryValue op.value k a)
    | .conversion _ inner _ => (eval inner).map k.wrap
    | _ => none

def evalAll : List Expr → Option (List Int)
  | [] => some []
  | e :: rest => (eval e).bind fun v => (evalAll rest).map (v :: ·)
end

variable {call store}

theorem kindOf_of_eval {e : Expr} {v : Int} (h : eval call store e = some v) :
    ∃ k, kindOf e = some k := by
  rw [eval] at h
  split at h
  · cases h
  · rename_i k hkind
    exact ⟨k, hkind⟩

end Expressions

/-- How a statement ends. -/
inductive Outcome
  | normal
  | broke
  | continued
  | returned (value : Int)

def afterRound (next : Store → Option (Outcome × Store)) :
    Outcome × Store → Option (Outcome × Store)
  | (.normal, store) | (.continued, store) => next store
  | (.broke, store) => some (.normal, store)
  | (.returned value, store) => some (.returned value, store)

/-- Rounds of a loop for as long as its condition holds. -/
def loop (condition : Store → Option Int) (body : Store → Option (Outcome × Store)) :
    Nat → Store → Option (Outcome × Store)
  | 0, _ => none
  | fuel + 1, store =>
    (condition store).bind fun v =>
      if v = 0 then some (.normal, store)
      else (body store).bind (afterRound (loop condition body fuel))

section Statements

variable (call : String → List Int → Option Int) (fuel : Nat)

mutual
def exec (st : Stmt) (store : Store) : Option (Outcome × Store) :=
  match st with
  | .let_ _ false _ _ value (some name) =>
    (eval call store value).map fun v => (.normal, store.set name v)
  | .mut_ _ ⟨_, ⟨⟨_, _, some binding⟩, []⟩⟩ value =>
    if binding.kind.isStack then
      (eval call store value).map fun v => (.normal, store.set binding.mangled v)
    else none
  | .call _ value => (eval call store value).map fun _ => (.normal, store)
  | .return_ _ (some value) => (eval call store value).map fun v => (.returned v, store)
  | .break_ _ => some (.broke, store)
  | .continue_ _ => some (.continued, store)
  | .if_ _ condition yes =>
    (eval call store condition).bind fun v =>
      if v = 0 then some (.normal, store) else execBlock yes store
  | .ifElse _ condition yes no =>
    (eval call store condition).bind fun v =>
      if v = 0 then execBlock no store else execBlock yes store
  | .while_ _ condition body =>
    loop (fun store => eval call store condition) (execBlock body) fuel store
  | .doWhile _ body condition =>
    (execBlock body store).bind
      (afterRound (loop (fun store => eval call store condition) (execBlock body) fuel))
  | .block _ body => execBlock body store
  | _ => none

def execBlock (b : Block) (store : Store) : Option (Outcome × Store) :=
  match b with
  | .mk _ _ statements => execAll statements store

def execAll (statements : List Stmt) (store : Store) : Option (Outcome × Store) :=
  match statements with
  | [] => some (.normal, store)
  | st :: rest =>
    (exec st store).bind fun
      | (.normal, store) => execAll rest store
      | other => some other
end

end Statements

/-- The store at the start of a function, if there is one argument for each parameter. -/
def bindParameters : List StackVariable → List Int → Option Store
  | [], [] => some fun _ => none
  | v :: rest, a :: arguments => (bindParameters rest arguments).map (·.set v.mangled a)
  | _, _ => none

/-- The result of a function of the program, where calls nest no deeper than the given number and
loops take no more rounds than there is fuel. The result must be returned. -/
def callFunction (p : Program) (fuel : Nat) : Nat → String → List Int → Option Int
  | 0, _, _ => none
  | depth + 1, name, arguments =>
    (p.functions.find? (·.name.value == name)).bind fun f =>
      (bindParameters f.stack.parameters arguments).bind fun store =>
        (execAll (callFunction p fuel depth) fuel f.body.statements store).bind fun
          | (.returned value, _) => some value
          | _ => none

end RegionCompiler.Semantics
