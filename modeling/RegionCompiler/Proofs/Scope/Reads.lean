import RegionCompiler.Proofs.Scope.Lookup
import RegionCompiler.Proofs.Scope.Table

/-! What checks of expressions and of statements without blocks do: they look up the names in them,
in the order of evaluation, and declare nothing. This holds whatever else is wrong with them. -/
namespace RegionCompiler

def Lexical.Reference.use (r : Reference) : Head × Option Symbol := (r.head, r.meaning)

namespace Typing

open Lexical

/-- What a check does, from any start. -/
def Performs {α : Type} (m : Check α) (R : Progress → α → Progress → Prop) : Prop :=
  ∀ s, R s (m s).1 (m s).2

namespace Performs

variable {α β : Type} {m : Check α} {R S : Progress → α → Progress → Prop}

theorem pure {a : α} (h : ∀ s, R s a s) : Performs (pure a) R := h

theorem bind {k : α → Check β} {T : Progress → β → Progress → Prop} (hm : Performs m R)
    (hk : ∀ a, Performs (k a) fun s' b s'' => ∀ s, R s a s' → T s b s'') :
    Performs (m >>= k) T :=
  fun s => hk (m s).1 (m s).2 s (hm s)

theorem mono (hm : Performs m R) (h : ∀ s a s', R s a s' → S s a s') : Performs m S :=
  fun s => h _ _ _ (hm s)

theorem ite {c : Prop} [Decidable c] {n : Check α} (hm : c → Performs m R)
    (hn : ¬c → Performs n R) : Performs (if c then m else n) R := by
  split
  · exact hm ‹_›
  · exact hn ‹_›

end Performs

/-- The progress after some problems more. -/
def Progress.with (s : Progress) (problems : List Diagnostic) : Progress :=
  { s with diagnostics := s.diagnostics ++ problems }

@[simp]
theorem Progress.with_nil (s : Progress) : s.with [] = s := by
  simp only [Progress.with, List.append_nil]

theorem performs_report (d : Diagnostic) :
    Performs (report d) fun s _ s' => s' = s.with [d] :=
  fun _ => rfl

theorem performs_settle {α : Type} (outcome : Except Diagnostic α) :
    Performs (settle outcome) fun s r s' =>
      r = outcome.toOption ∧ s' = s.with (problemsOf outcome) := by
  intro s
  cases outcome with
  | ok a => exact ⟨rfl, s.with_nil.symm⟩
  | error d => exact ⟨rfl, rfl⟩

theorem performs_env (ctx : Context) :
    Performs (env ctx) fun s e s' => s' = s ∧ e = ⟨ctx.layouts, s.symbols, ctx.types⟩ :=
  fun _ => ⟨rfl, rfl⟩

variable {ctx : Context} {scope : ScopePath} {s s' s'' : Progress} {heads others : List Head}
  {globals : List Symbol} {frames : Frames}

/-- Some names are looked up, in the order given, and nothing is declared. -/
structure Reads (ctx : Context) (scope : ScopePath) (heads : List Head) (s s' : Progress) :
    Prop where
  symbols : s'.symbols = s.symbols
  problems : ∃ ds, s'.diagnostics = s.diagnostics ++ ds ∧
    Resolves (usesIn ⟨ctx.layouts, s.symbols, ctx.types⟩ scope heads) ds

namespace Reads

theorem nothing {ds : List Diagnostic} (h : ∀ d ∈ ds, d.isMissing = false) :
    Reads ctx scope [] s (s.with ds) :=
  ⟨rfl, ds, rfl, .nil h⟩

theorem refl (s : Progress) : Reads ctx scope [] s s :=
  ⟨rfl, [], by simp, .nil (by simp)⟩

theorem append (h : Reads ctx scope heads s s') (h' : Reads ctx scope others s' s'') :
    Reads ctx scope (heads ++ others) s s'' := by
  obtain ⟨ds, hds, hresolves⟩ := h.problems
  obtain ⟨ds', hds', hresolves'⟩ := h'.problems
  refine ⟨h'.symbols.trans h.symbols, ds ++ ds', by rw [hds', hds, List.append_assoc], ?_⟩
  rw [h.symbols] at hresolves'
  rw [usesIn_append]
  exact hresolves.append hresolves'

theorem report {d : Diagnostic} (h : Reads ctx scope heads s s') (hd : d.isMissing = false) :
    Reads ctx scope heads s (s'.with [d]) := by
  have hlast : Reads ctx scope [] s' (s'.with [d]) := .nothing (by simpa using hd)
  simpa using h.append hlast

theorem skip {d : Diagnostic} (hd : d.isMissing = false) (h : ∀ x ∈ heads, x.Tidy) :
    Reads ctx scope heads s (s.with [d]) :=
  ⟨rfl, [d], rfl, .untouched (untouched_of_tidy _ _ h) hd⟩

end Reads

theorem reads_checkExpr (hint : Ty) {e : Expr} (he : e.Tidy) :
    Performs (checkExpr ctx scope hint e) fun s r s' => Reads ctx scope r.1.heads s s' := by
  refine .bind (performs_env ctx) fun env => .bind (performs_settle _) fun _ => .pure ?_
  rintro _ s ⟨-, rfl⟩ _ ⟨rfl, rfl⟩
  exact ⟨rfl, _, rfl, infer_resolves _ scope hint e he⟩

theorem reads_checkExact (expected : Ty) {e : Expr} (he : e.Tidy) :
    Performs (checkExact ctx scope expected e) fun s e' s' => Reads ctx scope e'.heads s s' := by
  refine .bind (performs_env ctx) fun env => .bind (performs_settle _) fun _ => .pure ?_
  rintro _ s ⟨-, rfl⟩ _ ⟨rfl, rfl⟩
  exact ⟨rfl, _, rfl, (infer_resolves _ scope expected e he).expectTy _ _⟩

theorem performs_declareType (ctx : Context) (ty : Located Ty) :
    Performs (declareType ctx ty) fun s r s' =>
      (typeExists ctx.types ty.value = true ∧ r = some () ∧ s' = s) ∨
      (typeExists ctx.types ty.value = false ∧ r = none ∧
        ∃ d, d.isMissing = false ∧ s' = s.with [d]) := by
  refine .bind (performs_env ctx) fun env => (performs_settle _).mono ?_
  rintro s r _ ⟨rfl, rfl⟩ _ ⟨rfl, rfl⟩
  unfold checkTypeExists typeExists
  cases hname : ty.value.name? with
  | none => exact .inr ⟨rfl, rfl, _, rfl, rfl⟩
  | some name =>
    dsimp only
    split
    · rename_i hin
      exact .inl ⟨by simpa using hin, rfl, by simp [Progress.with, problemsOf]⟩
    · rename_i hin
      exact .inr ⟨by simpa using hin, rfl, _, rfl, rfl⟩

/-- A statement that declares nothing and has no blocks: it reads the names in it. -/
def ReadsOnly (ctx : Context) (scope : ScopePath) (m : Check Stmt) : Prop :=
  Performs m fun s st s' => ∃ heads, Reads ctx scope heads s s' ∧
    ∀ types frames, Lexical.stmt types frames st = (frames, referencesIn frames heads)

theorem readsOnly_checkMut (span : Span) {target : Located Place} (htarget : target.value.Tidy)
    {value : Expr} (hvalue : value.Tidy) :
    ReadsOnly ctx scope (checkMut ctx scope span target value) := by
  have htidy : ∀ x ∈ target.value.heads ++ value.heads, x.Tidy := by
    intro x hx
    rcases List.mem_append.1 hx with hx | hx
    · rcases List.mem_cons.1 hx with rfl | hx
      · exact htarget.1
      · exact Accessor.allHeads_tidy _ htarget.2 x hx
    · exact Expr.heads_tidy value hvalue x hx
  refine .ite (fun _ => .bind (performs_report _) fun _ => .pure ?_) fun _ =>
    .bind (performs_env ctx) fun env => ?_
  · rintro _ s rfl
    refine ⟨_, .skip rfl htidy, fun types frames => ?_⟩
    rw [Lexical.stmt]
  · have hplace := inferPlace_resolves env scope htarget
    generalize inferPlace env scope target.value = inferred at hplace
    obtain ⟨place, result⟩ := inferred
    refine .bind (performs_settle result) fun expected => ?_
    cases result with
    | error d =>
      cases expected with
      | some t => exact fun _ _ h => nomatch h.1
      | none =>
        refine .pure ?_
        rintro _ s ⟨-, rfl⟩ _ ⟨rfl, rfl⟩
        refine ⟨place.heads ++ value.heads, ⟨rfl, _, rfl, ?_⟩, fun types frames => by
          rw [Lexical.stmt]⟩
        rw [usesIn_append]
        exact hplace.stop (untouched_of_tidy _ _ (Expr.heads_tidy value hvalue))
    | ok t =>
      cases expected with
      | none => exact fun _ _ h => nomatch h.1
      | some expected =>
        refine .bind (reads_checkExact expected hvalue) fun value' => .pure ?_
        rintro s'' _ hvalue' s ⟨-, rfl⟩ _ ⟨rfl, rfl⟩
        have hreads : Reads ctx scope place.heads s (s.with (problemsOf (.ok t))) :=
          ⟨rfl, _, rfl, hplace⟩
        exact ⟨place.heads ++ value'.heads, hreads.append hvalue', fun types frames => by
          rw [Lexical.stmt]⟩

theorem readsOnly_checkCall (span : Span) {value : Expr} (hvalue : value.Tidy) :
    ReadsOnly ctx scope (checkCall ctx scope span value) := by
  refine .ite (fun _ => .bind (reads_checkExpr .invalid hvalue) fun r => .pure ?_) fun _ =>
    .bind (performs_report _) fun _ => .pure ?_
  · intro s' s h
    exact ⟨_, h, fun types frames => by rw [Lexical.stmt]⟩
  · rintro _ s rfl
    exact ⟨_, .skip rfl (Expr.heads_tidy value hvalue), fun types frames => by rw [Lexical.stmt]⟩

theorem readsOnly_checkCollect (span : Span) {value : Expr} (hvalue : value.Tidy) :
    ReadsOnly ctx scope (checkCollect ctx scope span value) := by
  refine .bind (reads_checkExpr .invalid hvalue) fun r => ?_
  have hlast : Performs (pure (.collect span r.1)) fun s' st s'' => ∀ s,
      Reads ctx scope r.1.heads s s' → ∃ heads, Reads ctx scope heads s s'' ∧
        ∀ types frames, Lexical.stmt types frames st = (frames, referencesIn frames heads) :=
    .pure fun s' s h => ⟨_, h, fun types frames => by rw [Lexical.stmt]⟩
  obtain ⟨checked, result⟩ := r
  cases result with
  | none => exact hlast
  | some t =>
    refine .ite (fun _ => .bind (performs_report _) fun _ => hlast.mono ?_) fun _ => hlast
    rintro _ st s'' h s' rfl s hreads
    exact h s (hreads.report rfl)

theorem readsOnly_checkReturn (result : Located Ty) (span : Span) {value : Option Expr}
    (hvalue : ∀ e, value = some e → e.Tidy) :
    ReadsOnly ctx scope (checkReturn ctx scope result span value) := by
  cases value with
  | none =>
    have hlast : ReadsOnly ctx scope (pure (.return_ span none)) :=
      .pure fun s => ⟨[], .refl s, fun types frames => by rw [Lexical.stmt]; rfl⟩
    refine .ite (fun _ => .bind (performs_report _) fun _ => hlast.mono ?_) fun _ => hlast
    rintro _ st s'' ⟨heads, h, hstmt⟩ s rfl
    refine ⟨[] ++ heads, Reads.append
      (.nothing (by simp [Diagnostic.isMissing, Problem.isMissing])) h, hstmt⟩
  | some value =>
    have hvalue := hvalue value rfl
    refine .ite (fun _ => .bind (performs_report _) fun _ => .pure ?_) fun _ =>
      .bind (reads_checkExpr result.value hvalue) fun r => ?_
    · rintro _ s rfl
      exact ⟨_, .skip rfl (Expr.heads_tidy value hvalue), fun types frames => by rw [Lexical.stmt]⟩
    · have hlast : Performs (pure (.return_ span (some r.1))) fun s' st s'' => ∀ s,
          Reads ctx scope r.1.heads s s' → ∃ heads, Reads ctx scope heads s s'' ∧
            ∀ types frames, Lexical.stmt types frames st = (frames, referencesIn frames heads) :=
        .pure fun s' s h => ⟨_, h, fun types frames => by rw [Lexical.stmt]⟩
      obtain ⟨checked, actual⟩ := r
      cases actual with
      | none => exact hlast
      | some t =>
        refine .ite (fun _ => .bind (performs_report _) fun _ => hlast.mono ?_) fun _ => hlast
        rintro _ st s'' h s' rfl s hreads
        exact h s (hreads.report rfl)

end Typing

end RegionCompiler
