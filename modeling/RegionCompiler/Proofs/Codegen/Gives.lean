import RegionCompiler.Codegen.Gen
import RegionCompiler.Proofs.Typing.Infer

/-! Code generation that succeeds, and what it looks up when it does. -/
namespace RegionCompiler.Codegen

open Machine Typing

/-- Generation succeeds from a supply, with a property of what it gives and leaves. -/
def Gives {α : Type} (g : Gen α) (s : Supply) (Q : α → Supply → Prop) : Prop :=
  ∃ a s', g s = .ok (a, s') ∧ Q a s'

namespace Gives

variable {α β : Type} {s : Supply}

theorem pure {a : α} {Q : α → Supply → Prop} (h : Q a s) : Gives (pure a) s Q :=
  ⟨a, s, rfl, h⟩

theorem bind {g : Gen α} {k : α → Gen β} {P : α → Supply → Prop} {Q : β → Supply → Prop}
    (hg : Gives g s P) (hk : ∀ a s', P a s' → Gives (k a) s' Q) : Gives (g >>= k) s Q := by
  obtain ⟨a, s', hrun, hP⟩ := hg
  obtain ⟨b, s'', hrun', hQ⟩ := hk a s' hP
  refine ⟨b, s'', ?_, hQ⟩
  change (g s >>= fun p => k p.1 p.2) = _
  rw [hrun]
  exact hrun'

theorem mono {g : Gen α} {P Q : α → Supply → Prop} (hg : Gives g s P)
    (h : ∀ a s', P a s' → Q a s') : Gives g s Q := by
  obtain ⟨a, s', hrun, hP⟩ := hg
  exact ⟨a, s', hrun, h a s' hP⟩

theorem lift {x : Except Fault α} {a : α} (hx : x = .ok a) {k : α → Gen β}
    {Q : β → Supply → Prop} (hk : Gives (k a) s Q) : Gives (liftM x >>= k) s Q := by
  subst hx
  exact hk

theorem freshLabel {k : Label → Gen β} {Q : β → Supply → Prop}
    (hk : Gives (k ⟨s.labels + 1⟩) { s with labels := s.labels + 1 } Q) :
    Gives (freshLabel >>= k) s Q := hk

theorem keepString (value : String) :
    Gives (keepString value) s fun _ s' => s'.labels = s.labels :=
  ⟨_, _, rfl, rfl⟩

end Gives

/-- Generation gives what it should, or else the area of a call is more than can be counted. -/
def Delivers {α : Type} (g : Gen α) (s : Supply) (Q : α → Supply → Prop) : Prop :=
  Gives g s Q ∨ g s = .error .overflow

theorem Gives.delivers {α : Type} {g : Gen α} {s : Supply} {Q : α → Supply → Prop}
    (h : Gives g s Q) : Delivers g s Q := .inl h

namespace Delivers

variable {α β : Type} {s : Supply}

theorem gives {g : Gen α} {Q : α → Supply → Prop} (h : Delivers g s Q)
    (hover : g s ≠ .error .overflow) : Gives g s Q := h.resolve_right hover

theorem pure {a : α} {Q : α → Supply → Prop} (h : Q a s) : Delivers (pure a) s Q :=
    (Gives.pure h).delivers

theorem overflow {Q : α → Supply → Prop} : Delivers (throw Fault.overflow) s Q := .inr rfl

theorem bind {g : Gen α} {k : α → Gen β} {P : α → Supply → Prop} {Q : β → Supply → Prop}
    (hg : Delivers g s P) (hk : ∀ a s', P a s' → Delivers (k a) s' Q) : Delivers (g >>= k) s Q := by
  change (∃ b s'', (g s >>= fun p => k p.1 p.2) = _ ∧ Q b s'') ∨ (g s >>= fun p => k p.1 p.2) = _
  rcases hg with ⟨a, s', hrun, hP⟩ | hover
  · rw [hrun]
    exact hk a s' hP
  · rw [hover]
    exact .inr rfl

theorem mono {g : Gen α} {P Q : α → Supply → Prop} (hg : Delivers g s P)
    (h : ∀ a s', P a s' → Q a s') : Delivers g s Q := hg.imp_left (·.mono h)

theorem lift {x : Except Fault α} {a : α} (hx : x = .ok a) {k : α → Gen β}
    {Q : β → Supply → Prop} (hk : Delivers (k a) s Q) : Delivers (liftM x >>= k) s Q := by
  subst hx
  exact hk

theorem freshLabel {k : Label → Gen β} {Q : β → Supply → Prop}
    (hk : Delivers (k ⟨s.labels + 1⟩) { s with labels := s.labels + 1 } Q) :
    Delivers (freshLabel >>= k) s Q := hk

end Delivers

/-- What is true of all that generation gives, if it succeeds. -/
def Yields {α : Type} (g : Gen α) (s : Supply) (Q : α → Supply → Prop) : Prop :=
  ∀ a s', g s = .ok (a, s') → Q a s'

namespace Yields

variable {α β : Type} {s : Supply}

theorem pure {a : α} {Q : α → Supply → Prop} (h : Q a s) : Yields (pure a) s Q := by
  rintro b s' hrun
  cases hrun
  exact h

theorem bind {g : Gen α} {k : α → Gen β} {Q : β → Supply → Prop}
    (hk : ∀ a s', g s = .ok (a, s') → Yields (k a) s' Q) : Yields (g >>= k) s Q := by
  intro b s'' hrun
  change (g s >>= fun p => k p.1 p.2) = _ at hrun
  cases hg : g s with
  | error e =>
    rw [hg] at hrun
    cases hrun
  | ok p =>
    rw [hg] at hrun
    exact hk p.1 p.2 hg b s'' hrun

theorem lift {x : Except Fault α} {k : α → Gen β} {Q : β → Supply → Prop}
    (hk : ∀ a, x = .ok a → Yields (k a) s Q) : Yields (liftM x >>= k) s Q := by
  cases x with
  | error e =>
    intro b s' hrun
    cases hrun
  | ok a => exact hk a rfl

theorem known {x : Except Fault α} {a : α} (hx : x = .ok a) {k : α → Gen β}
    {Q : β → Supply → Prop} (hk : Yields (k a) s Q) : Yields (liftM x >>= k) s Q := by
  subst hx
  exact hk

theorem seq {g : Gen α} {k : α → Gen β} {P : α → Supply → Prop} {Q : β → Supply → Prop}
    (hg : Yields g s P) (hk : ∀ a s', P a s' → Yields (k a) s' Q) : Yields (g >>= k) s Q :=
  .bind fun a s' hrun => hk a s' (hg a s' hrun)

theorem mono {g : Gen α} {P Q : α → Supply → Prop} (hg : Yields g s P)
    (h : ∀ a s', P a s' → Q a s') : Yields g s Q := fun a s' hrun => h a s' (hg a s' hrun)

theorem freshLabel {k : Label → Gen β} {Q : β → Supply → Prop}
    (hk : Yields (k ⟨s.labels + 1⟩) { s with labels := s.labels + 1 } Q) :
    Yields (freshLabel >>= k) s Q := hk

theorem throw {e : Fault} {Q : α → Supply → Prop} : Yields (throw e) s Q := by
  intro a s' hrun
  cases hrun

end Yields

section Lookups

variable {env : Env}

/-! Lookups can fail, but they add nothing up. -/

@[simp] theorem resolved_ne_overflow (t : Option Ty) : resolved t ≠ .error .overflow := by
  cases t <;> simp [resolved]

@[simp] theorem bound_ne_overflow (head : Head) : bound head ≠ .error .overflow := by
  unfold bound
  split <;> simp

@[simp] theorem placeTy_ne_overflow (head : Head) (accessors : List Accessor) :
    placeTy head accessors ≠ .error .overflow := by
  unfold placeTy
  split <;> simp

@[simp] theorem placedAt_ne_overflow (v : StackVariable) : placedAt v ≠ .error .overflow := by
  unfold placedAt
  split <;> simp

@[simp] theorem Env.layoutOf_ne_overflow (t : Ty) : env.layoutOf t ≠ .error .overflow := by
  unfold Env.layoutOf
  split <;> simp

@[simp] theorem Env.sizeOf_ne_overflow (t : Ty) : env.sizeOf t ≠ .error .overflow := by
  unfold Env.sizeOf
  have := env.layoutOf_ne_overflow t
  cases h : env.layoutOf t <;> simp_all [bind, Except.bind, pure, Except.pure]

@[simp] theorem Env.foreignFunction_ne_overflow (name : String) :
    env.foreignFunction name ≠ .error .overflow := by
  unfold Env.foreignFunction
  split <;> simp

@[simp] theorem Env.variableAddress_ne_overflow (mangled : String) :
    env.variableAddress mangled ≠ .error .overflow := by
  have hplaced : ∀ (v : StackVariable) (f : Nat → Address),
      (do return f (← placedAt v)) ≠ Except.error Fault.overflow := by
    intro v f
    have := placedAt_ne_overflow v
    cases h : placedAt v <;> simp_all [bind, Except.bind, pure, Except.pure]
  unfold Env.variableAddress
  dsimp only
  split
  · exact hplaced _ _
  · split
    · exact hplaced _ _
    · simp

end Lookups

/-- What is true of all that generation gives, and what follows if something overflows. -/
structure Forms {α : Type} (R : Prop) (g : Gen α) (s : Supply) (Q : α → Supply → Prop) : Prop where
  yields : Yields g s Q
  overflows : g s = .error .overflow → R

namespace Forms

variable {α β : Type} {R : Prop} {s : Supply}

theorem pure {a : α} {Q : α → Supply → Prop} (h : Q a s) : Forms R (pure a) s Q :=
  ⟨.pure h, nofun⟩

theorem throw {e : Fault} {Q : α → Supply → Prop} (he : e ≠ .overflow := by simp) :
    Forms R (throw e) s Q :=
  ⟨.throw, fun h => absurd (Except.error.inj h) he⟩

theorem overflow {Q : α → Supply → Prop} (h : R) : Forms R (MonadExcept.throw Fault.overflow) s Q :=
  ⟨.throw, fun _ => h⟩

theorem seq {g : Gen α} {k : α → Gen β} {P : α → Supply → Prop} {Q : β → Supply → Prop}
    (hg : Forms R g s P) (hk : ∀ a s', P a s' → Forms R (k a) s' Q) : Forms R (g >>= k) s Q := by
  refine ⟨.seq hg.yields fun a s' hP => (hk a s' hP).yields, fun hover => ?_⟩
  change (g s >>= fun p => k p.1 p.2) = _ at hover
  cases hrun : g s with
  | error e =>
    rw [hrun] at hover
    cases hover
    exact hg.overflows hrun
  | ok p =>
    rw [hrun] at hover
    exact (hk _ _ (hg.yields _ _ hrun)).overflows hover

theorem lift {x : Except Fault α} {k : α → Gen β} {Q : β → Supply → Prop}
    (hk : ∀ a, x = .ok a → Forms R (k a) s Q) (hx : x ≠ .error .overflow := by simp) :
    Forms R (liftM x >>= k) s Q := by
  cases x with
  | error e => exact .throw fun he => hx (congrArg _ he)
  | ok a => exact hk a rfl

theorem known {x : Except Fault α} {a : α} (hx : x = .ok a) {k : α → Gen β}
    {Q : β → Supply → Prop} (hk : Forms R (k a) s Q) : Forms R (liftM x >>= k) s Q := by
  subst hx
  exact hk

theorem freshLabel {k : Label → Gen β} {Q : β → Supply → Prop}
    (hk : Forms R (k ⟨s.labels + 1⟩) { s with labels := s.labels + 1 } Q) :
    Forms R (freshLabel >>= k) s Q := ⟨hk.yields, hk.overflows⟩

theorem keepString {value : String} {k : String → Gen β} {Q : β → Supply → Prop}
    (hk : Forms R (k (stringSymbol s.strings.length))
      { s with strings := s.strings ++ [value] } Q) :
    Forms R (keepString value >>= k) s Q := ⟨hk.yields, hk.overflows⟩

end Forms

/-- The size of a type with a layout. -/
def sizeIn (r : Registry) (t : Ty) : Nat := (r.sizeOf? t).getD 0

theorem layoutOf_of_known {env : Env} {t : Ty} (h : t.Known env.layouts) :
    ∃ l, env.layoutOf t = .ok l ∧ env.layouts.layoutOf t = .ok l ∧
      l.size = sizeIn env.layouts t := by
  obtain ⟨l, hl⟩ := h.layoutOf
  refine ⟨l, ?_, hl, ?_⟩
  · simp [Env.layoutOf, hl]
  · simp [sizeIn, Registry.sizeOf?, hl]

theorem sizeOf_of_known {env : Env} {t : Ty} (h : t.Known env.layouts) :
    env.sizeOf t = .ok (sizeIn env.layouts t) := by
  obtain ⟨l, hl, -, hsize⟩ := layoutOf_of_known h
  rw [← hsize, Env.sizeOf, hl]
  rfl

theorem sizeIn_of_agrees {r : Registry} {t u : Ty} (h : t.agrees u) (ht : t.Known r) :
    sizeIn r u = sizeIn r t := by
  obtain ⟨l, hl⟩ := ht.layoutOf
  simp [sizeIn, Registry.sizeOf?, hl, Ty.layoutOf_of_agrees h hl]

theorem sizeOf_of_agrees {env : Env} {t u : Ty} (h : t.agrees u) (ht : t.Known env.layouts) :
    env.sizeOf u = .ok (sizeIn env.layouts t) := by
  obtain ⟨l, hl⟩ := ht.layoutOf
  simp [Env.sizeOf, Env.layoutOf, Ty.layoutOf_of_agrees h hl, sizeIn, Registry.sizeOf?, hl]

/-- The function has a place for every argument and for its result. -/
structure RoutineFits (layouts : Registry) (r : Routine) (result : Ty) (parameters : List Ty) :
    Prop where
  result : r.frame.result = sizeIn layouts result
  arguments : 16 ∣ r.frame.arguments
  parameters : List.Forall₂ (fun v t => v.ty = t ∧ ∃ offset, placedAt v = .ok offset)
    r.function.stack.parameters parameters

/-- What is declared can be looked up. -/
structure Env.Fits (env : Env) (D : Decls) : Prop where
  layouts : env.layouts = D.layouts
  sound : D.Sound
  classes : ∀ {name l}, D.layouts.get? name = some l → l.classes.length ≤ 2
  onStack : ∀ {mangled kind t}, kind.isStack → D.declares ⟨mangled, kind⟩ t →
    t.isFunction = false ∧ ∃ address, env.variableAddress mangled = .ok address
  embeds : ∀ {mangled t}, D.declares ⟨mangled, .embed⟩ t → t.isFunction = false
  functions : ∀ {mangled t}, D.declares ⟨mangled, .function⟩ t →
    ∃ r result parameters, env.routine mangled = .ok r ∧
      t = .function result parameters false false ∧
      RoutineFits env.layouts r result parameters
  foreign : ∀ {mangled t}, D.declares ⟨mangled, .foreignFunction⟩ t →
    ∃ f result parameters variadic, env.foreignFunction mangled = .ok f ∧
      t = .function result parameters variadic true ∧ IsName f.linkName

theorem Env.Fits.known {env : Env} {D : Decls} (h : env.Fits D) {t : Ty}
    (ht : t.Known D.layouts) : t.Known env.layouts := by
  rw [h.layouts]
  exact ht

theorem Env.Fits.initial {env : Env} {D : Decls} (h : env.Fits D) :
    Registry.initial.Le env.layouts := by
  rw [h.layouts]
  exact h.sound.builtin

end RegionCompiler.Codegen
