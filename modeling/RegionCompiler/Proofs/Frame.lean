import RegionCompiler.Frame
import RegionCompiler.Proofs.Typing.Judgment

/-! Frames of checked functions: every variable has a place of its own, unless the frame is more
than can be counted. -/
namespace RegionCompiler

/-- Variables that lie one behind the other from an offset on, up to another one. -/
inductive Placed (layouts : Registry) :
    Nat → List StackVariable → List StackVariable → Nat → Prop
  | nil {offset} : Placed layouts offset [] [] offset
  | cons {offset v l rest others stop} : layouts.layoutOf v.ty = .ok l →
      Placed layouts (alignUp offset l.alignment + l.size) rest others stop →
      Placed layouts offset (v :: rest)
        ({ v with offset := some (alignUp offset l.alignment) } :: others) stop

namespace Placed

variable {layouts : Registry} {offset stop : Nat} {vs placed : List StackVariable}

theorem map_mangled (h : Placed layouts offset vs placed stop) :
    placed.map (·.mangled) = vs.map (·.mangled) := by
  induction h with
  | nil => rfl
  | cons _ _ ih => simp [ih]

theorem map_ty (h : Placed layouts offset vs placed stop) :
    placed.map (·.ty) = vs.map (·.ty) := by
  induction h with
  | nil => rfl
  | cons _ _ ih => simp [ih]

theorem offset_isSome (h : Placed layouts offset vs placed stop) :
    ∀ v ∈ placed, ∃ here, v.offset = some here := by
  induction h with
  | nil => simp
  | cons _ _ ih => simpa using ih

theorem le (h : Placed layouts offset vs placed stop) : offset ≤ stop := by
  induction h with
  | nil => exact Nat.le_refl _
  | @cons offset v l rest others stop _ _ ih =>
    have hhere := le_alignUp offset l.alignment
    omega

end Placed

theorem exists_placed {layouts : Registry} {vs : List StackVariable}
    (h : ∀ v ∈ vs, v.ty.Known layouts) (offset : Nat) :
    ∃ placed stop, Placed layouts offset vs placed stop := by
  induction vs generalizing offset with
  | nil => exact ⟨[], offset, .nil⟩
  | cons v rest ih =>
    obtain ⟨l, hl⟩ := (h v List.mem_cons_self).layoutOf
    obtain ⟨others, stop, hplaced⟩ :=
      ih (fun w hw => h w (List.mem_cons_of_mem _ hw)) (alignUp offset l.alignment + l.size)
    exact ⟨_, stop, .cons hl hplaced⟩

section Sizes

variable {layouts : Registry} {vs placed : List StackVariable} {offset stop : Nat}

/-- Variables are placed where they belong, or their end cannot be counted. -/
theorem Placed.placeVariables (h : Placed layouts offset vs placed stop)
    (hoffset : offset < wordLimit) : placeVariables layouts offset vs =
      if stop < wordLimit then .ok (placed, stop) else .error .overflow := by
  induction h with
  | nil => exact (if_pos hoffset).symm
  | @cons offset v l rest others stop hl hrest ih =>
    have hle := hrest.le
    simp only [RegionCompiler.placeVariables, hl, bind, Except.bind]
    by_cases hfits : alignUp offset l.alignment + l.size < wordLimit
    · rw [if_neg (Nat.not_le.2 hfits)]
      simp only [ih hfits, pure, Except.pure]
      by_cases hstop : stop < wordLimit <;> simp [hstop]
    · rw [if_pos (Nat.not_lt.1 hfits), if_neg (by omega)]
      rfl

theorem Placed.layOut (h : Placed layouts 0 vs placed stop) : layOut layouts vs =
    if alignUp stop 16 < wordLimit then .ok (placed, alignUp stop 16) else .error .overflow := by
  have hle := le_alignUp stop 16
  rw [RegionCompiler.layOut, h.placeVariables (by decide)]
  by_cases hstop : alignUp stop 16 < wordLimit
  · rw [if_pos (Nat.lt_of_le_of_lt hle hstop), if_pos hstop]
    exact if_neg (Nat.not_le.2 hstop)
  · rw [if_neg hstop]
    split
    · exact if_pos (Nat.not_lt.1 hstop)
    · rfl

end Sizes

/-- A function with a frame. -/
structure Routine.Frames (layouts : Registry) (f : Function) (r : Routine) : Prop where
  function : r.function = { f with stack := r.function.stack }
  parameters : ∃ stop, Placed layouts 0 f.stack.parameters r.function.stack.parameters stop ∧
    r.frame.arguments = alignUp stop 16
  locals : ∃ stop, Placed layouts 0 f.stack.locals r.function.stack.locals stop ∧
    r.frame.locals = alignUp stop 16
  result : layouts.sizeOf? f.result.value = some r.frame.result

namespace Routine

/-- Both areas of the frame can be counted. -/
def IsFramed (r : Routine) : Prop := r.frame.arguments < wordLimit ∧ r.frame.locals < wordLimit

instance (r : Routine) : Decidable (IsFramed r) := inferInstanceAs (Decidable (_ ∧ _))

variable {layouts : Registry} {f : Function} {r : Routine}

theorem exists_frames (hstack : ∀ v ∈ f.stack.parameters ++ f.stack.locals, v.ty.Known layouts)
    (hresult : f.result.value.Known layouts) : ∃ r, Frames layouts f r := by
  obtain ⟨parameters, arguments, hparameters⟩ :=
    exists_placed (fun v hv => hstack v (List.mem_append_left _ hv)) 0
  obtain ⟨locals, stop, hlocals⟩ :=
    exists_placed (fun v hv => hstack v (List.mem_append_right _ hv)) 0
  obtain ⟨l, hl⟩ := hresult.layoutOf
  exact ⟨⟨{ f with stack := ⟨parameters, locals⟩ },
    ⟨alignUp stop 16, alignUp arguments 16, l.size⟩⟩,
    ⟨rfl, ⟨arguments, hparameters, rfl⟩, ⟨stop, hlocals, rfl⟩, by simp [Registry.sizeOf?, hl]⟩⟩

/-- A function has a frame unless one of its areas is more than can be counted. -/
theorem Frames.ofFunction (h : Frames layouts f r) :
    ofFunction layouts f = if r.IsFramed then .ok r else .error .overflow := by
  obtain ⟨function, locals, arguments, result⟩ := r
  obtain ⟨hfunction, ⟨stop, hparameters, harguments⟩, ⟨stop', hlocals, hlocalsSize⟩, hresult⟩ := h
  dsimp only at hfunction harguments hlocalsSize hresult
  subst harguments hlocalsSize
  simp only [Routine.ofFunction, hparameters.layOut, hlocals.layOut, hresult, bind, Except.bind]
  by_cases hfits : alignUp stop 16 < wordLimit <;> by_cases hfits' :
    alignUp stop' 16 < wordLimit <;>
    simp [IsFramed, hfits, hfits', pure, Except.pure, ← hfunction]

theorem Frames.name (h : Frames layouts f r) : r.name = f.name.value := by
  rw [Routine.name, h.function]

end Routine

end RegionCompiler
