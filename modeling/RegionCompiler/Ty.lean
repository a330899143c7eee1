/-! Types are read from left to right: `int[]@` points to a dynamic array of `int`. Two types
agree when values of one may be used as the other; a dynamic array agrees with any length, so
agreement is not transitive. -/
namespace RegionCompiler

inductive ArrayLength
  | dynamic
  | fixed (length : Nat)
deriving DecidableEq

def ArrayLength.agrees : ArrayLength → ArrayLength → Bool
  | .fixed m, .fixed n => m == n
  | _, _ => true

theorem ArrayLength.agrees_self (n : ArrayLength) : n.agrees n := by
  cases n <;> simp [ArrayLength.agrees]

theorem ArrayLength.agrees_comm (m n : ArrayLength) : m.agrees n = n.agrees m := by
  cases m <;> cases n <;> simp [ArrayLength.agrees, Bool.beq_comm]

inductive Ty
  /-- The type of what could not be typed. It agrees with nothing. -/
  | invalid
  | base (name : String)
  | pointer (target : Ty)
  | array (element : Ty) (length : ArrayLength)
  | function (result : Ty) (parameters : List Ty) (variadic : Bool) (foreign : Bool)
deriving Inhabited

/-- The last step by which a type is built. -/
inductive Modifier
  | function (parameters : List Ty) (variadic : Bool) (foreign : Bool)
  | array (length : ArrayLength)
  | pointer

namespace Ty

def int : Ty := .base "int"
def i32 : Ty := .base "i32"
def byte : Ty := .base "byte"
def bool : Ty := .base "bool"
def double : Ty := .base "double"
def float : Ty := .base "float"
def void : Ty := .base "void"

/-- The type of string literals and embedded files. -/
def bytes : Ty := .array byte .dynamic

def isValid : Ty → Bool
  | .invalid => false
  | _ => true

/-- The base name under all modifiers. -/
def name? : Ty → Option String
  | .invalid => none
  | .base name => some name
  | .pointer t | .array t _ | .function t _ _ _ => t.name?

def modifierCount : Ty → Nat
  | .invalid | .base _ => 0
  | .pointer t | .array t _ | .function t _ _ _ => t.modifierCount + 1

def lastModifier? : Ty → Option Modifier
  | .invalid | .base _ => none
  | .pointer _ => some .pointer
  | .array _ length => some (.array length)
  | .function _ parameters variadic foreign => some (.function parameters variadic foreign)

/-- The invalid type stays as it is. -/
def withModifier (t : Ty) (m : Modifier) : Ty :=
  match t, m with
  | .invalid, _ => .invalid
  | t, .pointer => .pointer t
  | t, .array length => .array t length
  | t, .function parameters variadic foreign => .function t parameters variadic foreign

/-- What the last modifier was applied to. -/
def withoutModifier : Ty → Ty
  | .pointer t | .array t _ | .function t _ _ _ => t
  | _ => .invalid

def isPlain (t : Ty) (name : String) : Bool :=
  match t with
  | .base n => n == name
  | _ => false

def isVoid (t : Ty) : Bool := t.isPlain "void"

def isPointer : Ty → Bool
  | .pointer _ => true
  | _ => false

def isArray : Ty → Bool
  | .array _ _ => true
  | _ => false

def isFunction : Ty → Bool
  | .function _ _ _ _ => true
  | _ => false

def isInteger (t : Ty) : Bool := t.isPlain "int" || t.isPlain "i32" || t.isPlain "byte"

def isFloating (t : Ty) : Bool := t.isPlain "double" || t.isPlain "float"

def isNumeric (t : Ty) : Bool := t.isInteger || t.isFloating

mutual
/-- Whether values of one type may be used as the other. -/
def agrees : Ty → Ty → Bool
  | .base a, .base b => a == b
  | .pointer a, .pointer b => a.agrees b
  | .array a m, .array b n => m.agrees n && a.agrees b
  | .function a ps v _, .function b qs w _ => agreeAll ps qs && v == w && a.agrees b
  | _, _ => false

def agreeAll : List Ty → List Ty → Bool
  | [], [] => true
  | a :: as, b :: bs => a.agrees b && agreeAll as bs
  | _, _ => false
end

end Ty

def Modifier.agrees : Modifier → Modifier → Bool
  | .function ps v _, .function qs w _ => Ty.agreeAll ps qs && v == w
  | .array m, .array n => m.agrees n
  | .pointer, .pointer => true
  | _, _ => false

def ArrayLength.display : ArrayLength → String
  | .dynamic => "[]"
  | .fixed n => "[" ++ toString n ++ "]"

/-- Parameters between commas, dots for any further ones. -/
def displayParameters (parameters : List String) (variadic : Bool) : String :=
  "(" ++ ", ".intercalate (parameters ++ if variadic then ["..."] else []) ++ ")"

mutual
def Ty.display : Ty → String
  | .invalid => "<invalid>"
  | .base name => name
  | .pointer t => t.display ++ "@"
  | .array t length => t.display ++ length.display
  | .function t parameters variadic _ =>
    t.display ++ displayParameters (Ty.displayAll parameters) variadic

def Ty.displayAll : List Ty → List String
  | [] => []
  | t :: ts => t.display :: Ty.displayAll ts
end

def Modifier.display : Modifier → String
  | .pointer => "@"
  | .array length => length.display
  | .function parameters variadic _ => displayParameters (Ty.displayAll parameters) variadic

theorem Ty.withModifier_agrees {a b : Ty} {m n : Modifier} (h : a.agrees b) :
    (a.withModifier m).agrees (b.withModifier n) = m.agrees n := by
  cases a <;> cases b <;> simp [Ty.agrees] at h <;> cases m <;> cases n <;>
    simp [Ty.withModifier, Ty.agrees, Modifier.agrees, h]

end RegionCompiler
