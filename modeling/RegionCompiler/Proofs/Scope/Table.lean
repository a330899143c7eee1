import RegionCompiler.Proofs.Scope.Lexical
import RegionCompiler.Proofs.Scope.Path

/-! The symbol table as a stack of frames. All symbols stay in one table for good; in each scope it
answers like the frames of the blocks around that scope, as long as the path of a new block is one
that no symbol has been put under. -/
namespace RegionCompiler

namespace SymbolTable

variable {t u : SymbolTable} {new : List Symbol} {m : String} {s : Symbol}

theorem get?_append (h : u.symbols = t.symbols ++ new) (m : String) :
    u.get? m = (t.get? m).or (SymbolTable.mk new |>.get? m) := by
  simp only [get?, h, List.find?_append]

theorem get?_append_of_some (h : u.symbols = t.symbols ++ new) (hs : t.get? m = some s) :
    u.get? m = some s := by
  rw [get?_append h, hs]
  rfl

theorem get?_append_of_ne (h : u.symbols = t.symbols ++ new) (hne : ∀ x ∈ new, x.mangled ≠ m) :
    u.get? m = t.get? m := by
  have hnone : (SymbolTable.mk new).get? m = none := by simpa [get?] using hne
  rw [get?_append h, hnone, Option.or_none]

theorem get?_eq_none (h : ∀ x ∈ t.symbols, x.mangled ≠ m) : t.get? m = none := by
  simpa [get?] using h

/-- A declaration is refused exactly when its mangled name is taken. -/
theorem declare_cases (t : SymbolTable) (s : Symbol) :
    (t.get? s.mangled = none ∧ t.declare s = .ok ⟨t.symbols ++ [s]⟩) ∨
      ∃ existing, t.get? s.mangled = some existing ∧ t.declare s = .error existing := by
  unfold declare
  cases h : t.get? s.mangled with
  | none => exact .inl ⟨rfl, rfl⟩
  | some existing => exact .inr ⟨existing, rfl, rfl⟩

end SymbolTable

namespace Lexical

/-- A table answers like a frame for the names of one scope. -/
def Answers (t : SymbolTable) (path : List String) (frame : List Symbol) : Prop :=
  ∀ x, IsName x → t.get? (ScopePath.mangleIn path x) = frame.find? (·.name == x)

/-- A table answers like a stack of frames for the names of a scope and of those around it. -/
inductive Models (t : SymbolTable) (globals : List Symbol) : ScopePath → Frames → Prop
  | function {f frame} : Answers t [] globals → Answers t [f] frame →
      Models t globals (.ofFunction f) [frame, globals]
  | child {scope frames kind index frame} : Models t globals scope frames →
      Answers t (scope.child kind index).segments frame →
      Models t globals (scope.child kind index) (frame :: frames)

/-- No symbol is stored under the path. -/
def Fresh (t : SymbolTable) (path : List String) : Prop :=
  ∀ s ∈ t.symbols, ¬ Under path s.mangled

variable {t u : SymbolTable} {globals frame : List Symbol} {scope : ScopePath} {frames : Frames}
  {new : List Symbol} {path : List String} {segment x : String} {s : Symbol}

theorem Answers.extend (h : Answers t path frame) (hu : u.symbols = t.symbols ++ new)
    (hnew : ∀ s ∈ new, Under (path ++ [segment]) s.mangled) : Answers u path frame := by
  intro x hx
  rw [SymbolTable.get?_append_of_ne hu, h x hx]
  intro s hs heq
  exact not_under_mangleIn hx (heq ▸ hnew s hs)

theorem Answers.of_fresh (h : Fresh t path) : Answers t path [] := by
  intro x _
  apply SymbolTable.get?_eq_none
  intro s hs heq
  exact h s hs (heq ▸ under_mangleIn path x)

theorem Answers.declare (h : Answers t path frame)
    (hmangled : s.mangled = ScopePath.mangleIn path s.name)
    (hu : u.symbols = t.symbols ++ [s]) : Answers u path (frame ++ [s]) := by
  intro x hx
  rw [SymbolTable.get?_append hu, h x hx, List.find?_append]
  congr 1
  by_cases hsx : s.name = x
  · simp [SymbolTable.get?, hmangled, hsx]
  · have hne : s.mangled ≠ ScopePath.mangleIn path x := by
      rw [hmangled]
      exact fun heq => hsx (mangleIn_inj heq)
    simp [SymbolTable.get?, hne, hsx]

theorem Answers.any_name (h : Answers t path frame)
    (hmangled : s.mangled = ScopePath.mangleIn path s.name) (hname : IsName s.name) :
    frame.any (·.name == s.name) = (t.get? s.mangled).isSome := by
  rw [hmangled, h _ hname, List.isSome_find?]

namespace Models

theorem innermost (h : Models t globals scope frames) :
    ∃ frame outer, frames = frame :: outer ∧ Answers t scope.segments frame := by
  cases h with
  | function _ hframe => exact ⟨_, _, rfl, hframe⟩
  | child _ hframe => exact ⟨_, _, rfl, hframe⟩

theorem extend (h : Models t globals scope frames) (hu : u.symbols = t.symbols ++ new)
    (hnew : ∀ s ∈ new, Under (scope.segments ++ [segment]) s.mangled) :
    Models u globals scope frames := by
  induction h generalizing segment with
  | @function f _ hglobals hframe =>
    have hunder : ∀ s ∈ new, Under ([] ++ [f]) s.mangled := fun s hs => (hnew s hs).outer
    exact .function (hglobals.extend hu hunder) (hframe.extend hu hnew)
  | @child scope frames kind index frame _ hframe ih =>
    refine .child (@ih (kind.segment index) fun s hs => ?_) (hframe.extend hu hnew)
    rw [← ScopePath.segments_child]
    exact (hnew s hs).outer

theorem child_of_fresh {kind : SegmentKind} {index : Nat} (h : Models t globals scope frames)
    (hfresh : Fresh t (scope.child kind index).segments) :
    Models t globals (scope.child kind index) ([] :: frames) :=
  .child h (.of_fresh hfresh)

theorem declare_ok (h : Models t globals scope frames)
    (hmangled : s.mangled = scope.mangle s.name) (hname : IsName s.name)
    (hnone : t.get? s.mangled = none) (hu : u.symbols = t.symbols ++ [s]) :
    Models u globals scope (frames.declare s) := by
  cases h with
  | @function f frame hglobals hframe =>
    have hany := hframe.any_name hmangled hname
    rw [hnone] at hany
    have hunder : ∀ x ∈ [s], Under ([] ++ [f]) x.mangled := by
      intro x hx
      rw [List.mem_singleton.1 hx, hmangled]
      exact under_mangleIn _ _
    simp only [Frames.declare, addTo, hany, Option.isSome_none, Bool.false_eq_true, if_false]
    exact .function (hglobals.extend hu hunder) (hframe.declare hmangled hu)
  | @child scope frames kind index frame houter hframe =>
    have hany := hframe.any_name hmangled hname
    rw [hnone] at hany
    have hunder : ∀ x ∈ [s], Under (scope.segments ++ [kind.segment index]) x.mangled := by
      intro x hx
      rw [List.mem_singleton.1 hx, hmangled, ← ScopePath.segments_child]
      exact under_mangleIn _ _
    simp only [Frames.declare, addTo, hany, Option.isSome_none, Bool.false_eq_true, if_false]
    exact .child (houter.extend hu hunder) (hframe.declare hmangled hu)

/-- A declaration that the table refuses is one that the frames refuse, whatever its mangled name is
taken to be. -/
theorem declare_error {other : Symbol} (h : Models t globals scope frames)
    (hmangled : s.mangled = scope.mangle s.name) (hname : IsName s.name)
    (hsome : (t.get? s.mangled).isSome) (hother : other.name = s.name) :
    frames.declare other = frames := by
  obtain ⟨frame, outer, rfl, hframe⟩ := h.innermost
  have hany := hframe.any_name hmangled hname
  simp [Frames.declare, addTo, hother, hany, hsome]

theorem resolve_eq (h : Models t globals scope frames) (hx : IsName x) :
    t.resolve scope x = frames.lookup x := by
  unfold SymbolTable.resolve Frames.lookup
  induction h with
  | function hglobals hframe =>
    have hglobal := hglobals x hx
    have hlocal := hframe x hx
    simp only [ScopePath.mangleIn, List.map_nil, String.join_nil, String.empty_append] at hglobal
    rw [ScopePath.candidates_ofFunction]
    simp only [List.singleton_append, List.findSome?_cons, List.findSome?_nil]
    rw [hglobal, ScopePath.mangle, ScopePath.segments, ScopePath.ofFunction, hlocal]
  | child _ hframe ih =>
    rw [ScopePath.candidates_child, List.cons_append, List.findSome?_cons, List.findSome?_cons,
      ScopePath.mangle, hframe x hx, ih]

theorem get?_of_lookup (h : Models t globals scope frames) (hx : IsName x)
    (hs : frames.lookup x = some s) : t.get? s.mangled = some s := by
  rw [← h.resolve_eq hx] at hs
  obtain ⟨m, -, hm⟩ := List.exists_of_findSome?_eq_some hs
  obtain ⟨-, rfl⟩ := SymbolTable.mem_of_get? hm
  exact hm

end Models

/-- Blocks with these numbers have not been met yet. An `else` has the number of its `if`. -/
def limit (counters : SegmentCounters) : SegmentKind → Nat
  | .else_ => counters.count .if_
  | kind => counters.count kind

/-- Nothing is stored under the blocks of a scope that have not been met yet. -/
def Unused (t : SymbolTable) (scope : ScopePath) (counters : SegmentCounters) : Prop :=
  ∀ kind index, limit counters kind ≤ index → Fresh t (scope.child kind index).segments

/-- What is put under one segment of a path is not put under another. -/
theorem Fresh.sibling {other : String} (h : Fresh t (path ++ [segment]))
    (hu : u.symbols = t.symbols ++ new) (hnew : ∀ s ∈ new, Under (path ++ [other]) s.mangled)
    (hsegment : IsName segment) (hother : IsName other) (hne : segment ≠ other) :
    Fresh u (path ++ [segment]) := by
  intro s hs hunder
  rw [hu] at hs
  rcases List.mem_append.1 hs with hs | hs
  · exact h s hs hunder
  · exact hne (hunder.segment (hnew s hs) hsegment hother)

theorem Fresh.extend {kind other : SegmentKind} {index number : Nat}
    (h : Fresh t (scope.child kind index).segments) (hu : u.symbols = t.symbols ++ new)
    (hnew : ∀ s ∈ new, Under (scope.child other number).segments s.mangled)
    (hne : kind ≠ other ∨ index ≠ number) : Fresh u (scope.child kind index).segments := by
  rw [ScopePath.segments_child] at h hnew ⊢
  refine h.sibling hu hnew (kind.segment_isName index) (other.segment_isName number) fun heq => ?_
  obtain ⟨hkind, hindex⟩ := SegmentKind.segment_inj heq
  exact hne.elim (· hkind) (· hindex)

theorem Fresh.declare {kind : SegmentKind} {index : Nat}
    (h : Fresh t (scope.child kind index).segments)
    (hmangled : s.mangled = scope.mangle s.name) (hname : IsName s.name)
    (hu : u.symbols = t.symbols ++ [s]) : Fresh u (scope.child kind index).segments := by
  intro x hx hunder
  rw [hu] at hx
  rcases List.mem_append.1 hx with hx | hx
  · exact h x hx hunder
  · rw [List.mem_singleton.1 hx, hmangled, ScopePath.segments_child] at hunder
    exact not_under_mangleIn hname hunder

theorem Fresh.child {kind : SegmentKind} {index : Nat} (h : Fresh t scope.segments) :
    Fresh t (scope.child kind index).segments := by
  intro s hs hunder
  rw [ScopePath.segments_child] at hunder
  exact h s hs hunder.outer

end Lexical

end RegionCompiler
