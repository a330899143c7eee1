import RegionCompiler.Proofs.Layout.Known

/-! A value may be copied into any place whose type agrees with its own. Agreement compares the
modifiers of two types one by one and looks into the parameters of functions; types that agree are
laid out alike, and no test of their form tells them apart. It is no equivalence all the same: an
array without a length agrees with arrays of two different lengths. -/
namespace RegionCompiler

mutual
/-- No part of the type is invalid, whether it is the base or a parameter of a function. -/
def Ty.Intact : Ty → Prop
  | .invalid => False
  | .base _ => True
  | .pointer t | .array t _ => t.Intact
  | .function result parameters _ _ => result.Intact ∧ Ty.AllIntact parameters

def Ty.AllIntact : List Ty → Prop
  | [] => True
  | t :: ts => t.Intact ∧ Ty.AllIntact ts
end

def Modifier.Intact : Modifier → Prop
  | .function parameters _ _ => Ty.AllIntact parameters
  | .array _ | .pointer => True

namespace Ty

/-- The questions about its form that a type can be asked. -/
def formTests : List (Ty → Bool) :=
  [isVoid, isPointer, isArray, isFunction, isInteger, isFloating, isNumeric]

/-- Values of either type have the same bytes, and so have values of types made from them. -/
structure Exchangeable (a b : Ty) : Prop where
  layouts : ∀ (r : Registry) (l : Layout), r.layoutOf a = .ok l ↔ r.layoutOf b = .ok l
  forms : ∀ test ∈ formTests, test a = test b
  extended : ∀ m : Modifier, m.Intact → (a.withModifier m).agrees (b.withModifier m)
  stripped : a.lastModifier?.isSome →
    b.lastModifier?.isSome ∧ a.withoutModifier.agrees b.withoutModifier

mutual
theorem agrees_comm : (a b : Ty) → a.agrees b = b.agrees a
  | .invalid, b => by cases b <;> rfl
  | .base _, b => by cases b <;> simp [agrees, Bool.beq_comm]
  | .pointer a, b => by
    cases b with
    | pointer b => exact agrees_comm a b
    | _ => rfl
  | .array a m, b => by
    cases b with
    | array b n => simp only [agrees, agrees_comm a b, ArrayLength.agrees_comm m n]
    | _ => rfl
  | .function a ps v _, b => by
    cases b with
    | function b qs w _ => simp only [agrees, agrees_comm a b, agreeAll_comm ps qs, Bool.beq_comm]
    | _ => rfl

theorem agreeAll_comm : (ps qs : List Ty) → agreeAll ps qs = agreeAll qs ps
  | [], qs => by cases qs <;> rfl
  | p :: ps, qs => by
    cases qs with
    | nil => rfl
    | cons q qs => simp only [agreeAll, agrees_comm p q, agreeAll_comm ps qs]
end

mutual
theorem agrees_self_iff : (a : Ty) → (a.agrees a ↔ a.Intact)
  | .invalid => by simp [agrees, Intact]
  | .base _ => by simp [agrees, Intact]
  | .pointer a => agrees_self_iff a
  | .array a n => by simpa [agrees, Intact, ArrayLength.agrees_self] using agrees_self_iff a
  | .function a ps _ _ => by
    simp [agrees, Intact, agrees_self_iff a, agreeAll_self_iff ps, and_comm]

theorem agreeAll_self_iff : (ps : List Ty) → (agreeAll ps ps ↔ AllIntact ps)
  | [] => by simp [agreeAll, AllIntact]
  | p :: ps => by simp [agreeAll, AllIntact, agrees_self_iff p, agreeAll_self_iff ps]
end

theorem invalid_agrees (a : Ty) : Ty.invalid.agrees a = false := by
  cases a <;> rfl

end Ty

theorem Modifier.agrees_self {m : Modifier} (h : m.Intact) : m.agrees m := by
  cases m with
  | function ps v _ => simpa [agrees] using (Ty.agreeAll_self_iff ps).2 h
  | array n => exact n.agrees_self
  | pointer => rfl

namespace Ty

section Agreeing

variable {a b : Ty}

theorem forms_eq_of_agrees (h : a.agrees b) : ∀ test ∈ formTests, test a = test b := by
  simp only [formTests, List.forall_mem_cons, List.not_mem_nil, false_implies, implies_true,
    and_true]
  cases a with
  | base name =>
    have hb : b = .base name := agrees_base (by rwa [agrees_comm])
    subst hb
    exact ⟨rfl, rfl, rfl, rfl, rfl, rfl, rfl⟩
  | invalid => cases b <;> cases h
  | pointer _ | array _ _ | function _ _ _ _ =>
    cases b with
    | invalid | base _ => cases h
    | _ => first | cases h | exact ⟨rfl, rfl, rfl, rfl, rfl, rfl, rfl⟩

theorem withoutModifier_agrees (h : a.agrees b) (hm : a.lastModifier?.isSome) :
    b.lastModifier?.isSome ∧ a.withoutModifier.agrees b.withoutModifier := by
  cases a with
  | invalid | base _ => cases hm
  | pointer a =>
    cases b with
    | pointer b => exact ⟨rfl, h⟩
    | _ => cases h
  | array a m =>
    cases b with
    | array b n =>
      rw [agrees, Bool.and_eq_true] at h
      exact ⟨rfl, h.2⟩
    | _ => cases h
  | function a ps v _ =>
    cases b with
    | function b qs w _ =>
      rw [agrees, Bool.and_eq_true] at h
      exact ⟨rfl, h.2⟩
    | _ => cases h

theorem exchangeable_of_agrees (h : a.agrees b) : Exchangeable a b where
  layouts := by
    intro r l
    constructor
    · exact layoutOf_of_agrees h
    · exact layoutOf_of_agrees (by rwa [agrees_comm])
  forms := forms_eq_of_agrees h
  extended := by
    intro m hm
    rw [withModifier_agrees h]
    exact Modifier.agrees_self hm
  stripped := withoutModifier_agrees h

end Agreeing

/-- Agreement is symmetric, and it is reflexive on exactly the types without an invalid part. It
lets bytes be copied either way, but it cannot be chained. -/
theorem agrees_copies (a b : Ty) :
    a.agrees b = b.agrees a ∧ (a.agrees a ↔ a.Intact) ∧
    Ty.invalid.agrees a = false ∧ a.agrees .invalid = false ∧
    (a.agrees b → Exchangeable a b) ∧
    ∃ x y z : Ty, x.agrees y ∧ y.agrees z ∧ ¬ x.agrees z := by
  refine ⟨agrees_comm a b, agrees_self_iff a, invalid_agrees a, ?_, exchangeable_of_agrees, ?_⟩
  · rw [agrees_comm]
    exact invalid_agrees a
  · exact ⟨.array .int (.fixed 4), .array .int .dynamic, .array .int (.fixed 5), rfl, rfl,
      by decide⟩

end Ty

end RegionCompiler
