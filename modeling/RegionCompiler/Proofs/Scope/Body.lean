import RegionCompiler.Proofs.Scope.Reads

/-! Checking statements and blocks follows the frames. After a statement the table answers like the
frames that lexical scoping gives, and the blocks of a scope never share a path. -/
namespace RegionCompiler.Typing

open Lexical

variable {ctx : Context} {scope : ScopePath} {s s' s'' : Progress} {globals : List Symbol}
  {frames : Frames} {references others : List Reference} {path : List String}
    {counters : SegmentCounters}

/-- Some references are looked up, each among the declarations that are visible to it, and what is
declared meanwhile belongs to the path. -/
structure Visits (path : List String) (references : List Reference) (s s' : Progress) : Prop where
  symbols : ∃ new, s'.symbols.symbols = s.symbols.symbols ++ new ∧
    ∀ x ∈ new, Under path x.mangled
  problems : ∃ ds, s'.diagnostics = s.diagnostics ++ ds ∧
    Resolves (references.map Reference.use) ds
  declared : ∀ r ∈ references, ∀ m, r.meaning = some m → s'.symbols.get? m.mangled = some m

/-- The table answers like the frames, and the blocks still to come have it to themselves. -/
structure At (t : SymbolTable) (globals : List Symbol) (scope : ScopePath) (frames : Frames)
    (counters : SegmentCounters) : Prop where
  models : Models t globals scope frames
  unused : Unused t scope counters

namespace Visits

theorem refl (path : List String) (s : Progress) : Visits path [] s s :=
  ⟨⟨[], by simp⟩, ⟨[], by simp, .nil (by simp)⟩, by simp⟩

theorem append (h : Visits path references s s') (h' : Visits path others s' s'') :
    Visits path (references ++ others) s s'' := by
  obtain ⟨new, hsymbols, hunder⟩ := h.symbols
  obtain ⟨new', hsymbols', hunder'⟩ := h'.symbols
  obtain ⟨ds, hds, hresolves⟩ := h.problems
  obtain ⟨ds', hds', hresolves'⟩ := h'.problems
  refine ⟨⟨new ++ new', by rw [hsymbols', hsymbols, List.append_assoc], fun x hx => ?_⟩,
    ⟨ds ++ ds', by rw [hds', hds, List.append_assoc], ?_⟩, fun r hr m hm => ?_⟩
  · exact (List.mem_append.1 hx).elim (hunder x) (hunder' x)
  · rw [List.map_append]
    exact hresolves.append hresolves'
  · rcases List.mem_append.1 hr with hr | hr
    · exact SymbolTable.get?_append_of_some hsymbols' (h.declared r hr m hm)
    · exact h'.declared r hr m hm

theorem outer {kind : SegmentKind} {index : Nat}
    (h : Visits (scope.child kind index).segments references s s') :
    Visits scope.segments references s s' := by
  obtain ⟨new, hsymbols, hunder⟩ := h.symbols
  refine ⟨⟨new, hsymbols, fun x hx => ?_⟩, h.problems, h.declared⟩
  have hx := hunder x hx
  rw [ScopePath.segments_child] at hx
  exact hx.outer

theorem anywhere (h : Visits path references s s') : Visits [] references s s' := by
  obtain ⟨new, hsymbols, -⟩ := h.symbols
  exact ⟨⟨new, hsymbols, fun x _ => List.nil_prefix⟩, h.problems, h.declared⟩

end Visits

theorem Reads.visits {heads : List Head} (h : Reads ctx scope heads s s')
    (hmodels : Models s.symbols globals scope frames) :
    Visits scope.segments (referencesIn frames heads) s s' := by
  obtain ⟨ds, hds, hresolves⟩ := h.problems
  have hname : ∀ x ∈ heads, IsName x.name.value := fun x hx =>
    hresolves.names _ (List.mem_map.2 ⟨x, hx, rfl⟩)
  have huses : (referencesIn frames heads).map Reference.use =
      usesIn ⟨ctx.layouts, s.symbols, ctx.types⟩ scope heads := by
    rw [referencesIn, List.map_map]
    apply List.map_congr_left
    intro x hx
    simp only [Function.comp, Reference.use, Reference.meaning]
    rw [hmodels.resolve_eq (hname x hx)]
  refine ⟨⟨[], by rw [h.symbols, List.append_nil], by simp⟩, ⟨ds, hds, huses ▸ hresolves⟩, ?_⟩
  intro r hr m hm
  obtain ⟨x, hx, rfl⟩ := List.mem_map.1 hr
  rw [h.symbols]
  exact hmodels.get?_of_lookup (hname x hx) hm

theorem limit_next_le {kind other : SegmentKind} {index : Nat}
    (h : limit (counters.next kind).2 other ≤ index) : limit counters other ≤ index := by
  have hle : ∀ k, counters.count k ≤ (counters.next kind).2.count k := by
    intro k
    simp only [SegmentCounters.next]
    split <;> omega
  cases other <;> exact Nat.le_trans (hle _) h

theorem At.after {t u : SymbolTable} {new : List Symbol} {kind : SegmentKind}
    {next : SegmentCounters} {index : Nat} (h : At t globals scope frames counters)
    (hu : u.symbols = t.symbols ++ new)
    (hnew : ∀ x ∈ new, Under (scope.child kind index).segments x.mangled)
    (hnext : ∀ other number, limit next other ≤ number →
      limit counters other ≤ number ∧ (other ≠ kind ∨ number ≠ index)) :
    At u globals scope frames next where
  models := h.models.extend hu (by simpa only [ScopePath.segments_child] using hnew)
  unused other number hle := by
    obtain ⟨hlimit, hne⟩ := hnext other number hle
    exact (h.unused other number hlimit).extend hu hnew hne

theorem At.child {t : SymbolTable} {kind : SegmentKind} {index : Nat}
    (h : Models t globals scope frames) (hfresh : Fresh t (scope.child kind index).segments) :
    At t globals (scope.child kind index) ([] :: frames) .zero where
  models := h.child_of_fresh hfresh
  unused _ _ _ := hfresh.child

theorem visits_declare (symbol : Symbol) :
    Performs (declare symbol) fun s ok s' => ∀ globals scope frames counters,
      symbol.mangled = scope.mangle symbol.name → IsName symbol.name →
      At s.symbols globals scope frames counters →
      Visits scope.segments [] s s' ∧ At s'.symbols globals scope (frames.declare symbol) counters ∧
        (ok = false → ∀ other : Symbol, other.name = symbol.name →
          frames.declare other = frames) := by
  intro s globals scope frames counters hmangled hname hat
  rcases s.symbols.declare_cases symbol with ⟨hnone, hok⟩ | ⟨existing, hsome, herror⟩
  · rw [declare_of_ok hok]
    refine ⟨⟨⟨[symbol], rfl, ?_⟩, ⟨[], by simp, .nil (by simp)⟩, by simp⟩,
      ⟨hat.models.declare_ok hmangled hname hnone rfl, fun kind index hle => ?_⟩, by simp⟩
    · intro x hx
      rw [List.mem_singleton.1 hx, hmangled]
      exact under_mangleIn _ _
    · exact (hat.unused kind index hle).declare hmangled hname rfl
  · have hrefused : ∀ other : Symbol, other.name = symbol.name → frames.declare other = frames :=
      fun other hother => hat.models.declare_error hmangled hname (by rw [hsome]; rfl) hother
    rw [declare_of_error herror]
    refine ⟨⟨⟨[], (List.append_nil _).symm, by simp⟩,
      ⟨_, rfl, .nil (by simp [Diagnostic.isMissing, Problem.isMissing])⟩, by simp⟩, ?_,
      fun _ => hrefused⟩
    rw [hrefused symbol rfl]
    exact hat

/-- Nothing is looked up or declared. -/
structure Quiet (s s' : Progress) : Prop where
  symbols : s'.symbols = s.symbols
  problems : ∃ ds, s'.diagnostics = s.diagnostics ++ ds ∧ ∀ d ∈ ds, d.isMissing = false

theorem Quiet.refl (s : Progress) : Quiet s s :=
  ⟨rfl, [], by simp⟩

theorem Quiet.trans (h : Quiet s s') (h' : Quiet s' s'') : Quiet s s'' := by
  obtain ⟨ds, hds, hplain⟩ := h.problems
  obtain ⟨ds', hds', hplain'⟩ := h'.problems
  refine ⟨h'.symbols.trans h.symbols, ds ++ ds', by rw [hds', hds, List.append_assoc], ?_⟩
  intro d hd
  exact (List.mem_append.1 hd).elim (hplain d) (hplain' d)

theorem quiet_report {d : Diagnostic} (h : d.isMissing = false) :
    Performs (report d) fun s _ s' => Quiet s s' :=
  fun _ => ⟨rfl, [d], rfl, by simpa using h⟩

theorem quiet_addLocal (v : StackVariable) : Performs (addLocal v) fun s _ s' => Quiet s s' :=
  fun s => ⟨rfl, [], (List.append_nil s.diagnostics).symm, by simp⟩

theorem Visits.quiet (h : Visits path references s s') (h' : Quiet s' s'') :
    Visits path references s s'' := by
  obtain ⟨ds, hds, hplain⟩ := h'.problems
  have hlast : Visits path [] s' s'' :=
    ⟨⟨[], by rw [h'.symbols, List.append_nil], by simp⟩, ⟨ds, hds, .nil hplain⟩, by simp⟩
  simpa using h.append hlast

/-- A statement of a scope looks up what is visible to it and leaves the frames as lexical scoping
does. -/
def Tracks (ctx : Context) (scope : ScopePath) (counters next : SegmentCounters) (s : Progress)
    (st : Stmt) (s' : Progress) : Prop :=
  ∀ globals frames, At s.symbols globals scope frames counters →
    Visits scope.segments (Lexical.stmt ctx.types frames st).2 s s' ∧
      At s'.symbols globals scope (Lexical.stmt ctx.types frames st).1 next

theorem ReadsOnly.tracks {m : Check Stmt} (h : ReadsOnly ctx scope m) :
    Performs m fun s st s' => Tracks ctx scope counters counters s st s' := by
  refine Performs.mono h ?_
  rintro s st s' ⟨heads, hreads, hstmt⟩ globals frames hat
  rw [hstmt]
  exact ⟨hreads.visits hat.models, hreads.symbols ▸ hat⟩

theorem tracks_checkLet (span : Span) (allocate : Bool) (ty : Located Ty) {name : Located String}
    (hname : IsName name.value) {value : Expr} (hvalue : value.Tidy) (mangled : Option String) :
    Performs (checkLet ctx scope span allocate ty name value mangled) fun s st s' =>
      Tracks ctx scope counters counters s st s' := by
  refine .bind (performs_declareType ctx ty) fun declared => ?_
  cases declared with
  | none =>
    refine .pure ?_
    rintro s' s (⟨-, h, -⟩ | ⟨hexists, -, d, hd, rfl⟩)
    · cases h
    intro globals frames hat
    have hreads : Reads ctx scope value.heads s (s.with [d]) :=
      .skip hd (Expr.heads_tidy value hvalue)
    simp only [Lexical.stmt, hexists]
    exact ⟨hreads.visits hat.models, hat⟩
  | some _ =>
    refine .bind (reads_checkExpr ty.value hvalue) fun result => ?_
    obtain ⟨checked, actual⟩ := result
    refine .bind (visits_declare _) fun ok => ?_
    cases ok with
    | false =>
      refine .pure ?_
      rintro s₃ s₂ hdeclare s₁ hreads s (⟨hexists, -, rfl⟩ | ⟨-, h, -⟩)
      · intro globals frames hat
        obtain ⟨hvisits, hat', hrefused⟩ :=
          hdeclare globals scope frames counters rfl hname (hreads.symbols ▸ hat)
        simp only [Lexical.stmt, hexists, if_true]
        rw [hrefused rfl _ rfl] at hat'
        rw [hrefused rfl (letSymbol allocate ty name mangled) rfl]
        have hall := (hreads.visits hat.models).append hvisits
        rw [List.append_nil] at hall
        exact ⟨hall, hat'⟩
      · cases h
    | true =>
      -- The type of the value may still be wrong; the variable is declared all the same.
      have hlast : Performs (pure (.let_ span allocate ty name checked
          (some (scope.mangle name.value))) : Check Stmt) fun s₃ st s₄ => ∀ s₂, Quiet s₂ s₃ →
            st = .let_ span allocate ty name checked (some (scope.mangle name.value)) ∧
              Quiet s₂ s₄ :=
        .pure fun s₃ s₂ hquiet => ⟨rfl, hquiet⟩
      refine .mono (R := fun s₂ st s₄ => st = .let_ span allocate ty name checked
        (some (scope.mangle name.value)) ∧ Quiet s₂ s₄) (.bind (quiet_addLocal _) fun _ => ?_) ?_
      · cases actual with
        | none => exact hlast
        | some t =>
          refine .ite (fun _ => .bind (quiet_report rfl) fun _ => hlast.mono ?_) fun _ => hlast
          exact fun s₃' st s₄ h s₃ hq s₂ hq' => h s₂ (hq'.trans hq)
      rintro s₂ _ s₄ ⟨rfl, hquiet⟩ s₁ hdeclare s hreads s₀ (⟨hexists, -, rfl⟩ | ⟨-, h, -⟩)
      · intro globals frames hat
        obtain ⟨hvisits, hat', -⟩ :=
          hdeclare globals scope frames counters rfl hname (hreads.symbols ▸ hat)
        simp only [Lexical.stmt, hexists, if_true]
        have hall := ((hreads.visits hat.models).append hvisits).quiet hquiet
        rw [List.append_nil] at hall
        exact ⟨hall, hquiet.symbols ▸ hat'⟩
      · cases h

theorem limit_next {kind other : SegmentKind} {number : Nat} (hkind : kind ≠ .else_)
    (h : limit (counters.next kind).2 other ≤ number) :
    limit counters other ≤ number ∧ (other ≠ kind ∨ number ≠ counters.count kind) := by
  refine ⟨limit_next_le h, ?_⟩
  by_cases hother : other = kind
  · right
    subst hother
    have hcount : limit (counters.next other).2 other = counters.count other + 1 := by
      cases other <;> first | rfl | exact absurd rfl hkind
    omega
  · exact .inl hother

theorem At.block {kind : SegmentKind} (hkind : kind ≠ .else_)
    (h : At s.symbols globals scope frames counters)
    (hvisits : Visits (scope.child kind (counters.count kind)).segments references s s') :
    At s'.symbols globals scope frames (counters.next kind).2 := by
  obtain ⟨new, hsymbols, hnew⟩ := hvisits.symbols
  exact h.after hsymbols hnew fun other number hle => limit_next hkind hle

theorem At.start {kind : SegmentKind} (h : At s.symbols globals scope frames counters)
    (hkind : kind ≠ .else_) :
    At s.symbols globals (scope.child kind (counters.count kind)) ([] :: frames) .zero := by
  refine .child h.models (h.unused kind _ ?_)
  cases kind <;> first | exact Nat.le_refl _ | exact absurd rfl hkind

theorem At.startElse (h : At s.symbols globals scope frames counters)
    (hvisits : Visits (scope.child .if_ (counters.count .if_)).segments references s s') :
    At s'.symbols globals (scope.child .else_ (counters.count .if_)) ([] :: frames) .zero := by
  obtain ⟨new, hsymbols, hnew⟩ := hvisits.symbols
  have hfresh := h.unused .else_ (counters.count .if_) (Nat.le_refl _)
  exact .child (h.block (by decide) hvisits).models
    (hfresh.extend hsymbols hnew (.inl (by decide)))

theorem At.blockElse (h : At s.symbols globals scope frames (counters.next .if_).2)
    (hvisits : Visits (scope.child .else_ (counters.count .if_)).segments references s s') :
    At s'.symbols globals scope frames (counters.next .if_).2 := by
  obtain ⟨new, hsymbols, hnew⟩ := hvisits.symbols
  refine h.after hsymbols hnew fun other number hle => ⟨hle, ?_⟩
  by_cases hother : other = .else_
  · right
    subst hother
    have hcount : limit (counters.next .if_).2 .else_ = counters.count .if_ + 1 := rfl
    omega
  · exact .inl hother

theorem quiet_checkInLoop (inLoop : Bool) (span : Span) (keyword : String) :
    Performs (checkInLoop inLoop span keyword) fun s _ s' => Quiet s s' :=
  .ite (fun _ => quiet_report rfl) fun _ => .pure fun s => .refl s

theorem visits_declareIterator (inner : ScopePath) {iterator : Located String}
    (hname : IsName iterator.value) :
    Performs (declareIterator inner iterator) fun s own s' => ∀ globals frames,
      At s.symbols globals inner ([] :: frames) .zero →
      Visits inner.segments [] s s' ∧
        At s'.symbols globals inner ([iteratorSymbol iterator (some own)] :: frames) .zero := by
  refine .bind (visits_declare _) fun _ => .bind (quiet_addLocal _) fun _ => .pure ?_
  intro s₃ s₂ hquiet s hdeclare globals frames hat
  obtain ⟨hvisits, hat', -⟩ := hdeclare globals inner ([] :: frames) .zero rfl hname hat
  exact ⟨hvisits.quiet hquiet, hquiet.symbols ▸ hat'⟩

mutual
theorem tracks_checkStmt (result : Located Ty) (scope : ScopePath) (inLoop : Bool)
    (counters : SegmentCounters) : (st : Stmt) → st.Tidy →
      Performs (checkStmt ctx result scope inLoop counters st) fun s r s' =>
        Tracks ctx scope counters r.2 s r.1 s'
  | .let_ span allocate ty name value mangled, ⟨_, hname, hvalue⟩ =>
    .bind (tracks_checkLet span allocate ty hname hvalue mangled) fun _ => .pure fun _ _ h => h
  | .mut_ span target value, ⟨htarget, hvalue⟩ =>
    .bind (readsOnly_checkMut span htarget hvalue).tracks fun _ => .pure fun _ _ h => h
  | .call span value, hvalue =>
    .bind (readsOnly_checkCall span hvalue).tracks fun _ => .pure fun _ _ h => h
  | .collect span value, hvalue =>
    .bind (readsOnly_checkCollect span hvalue).tracks fun _ => .pure fun _ _ h => h
  | .return_ span none, _ =>
    .bind (readsOnly_checkReturn result span (by simp)).tracks fun _ => .pure fun _ _ h => h
  | .return_ span (some value), hvalue =>
    have hall : ∀ e, some value = some e → e.Tidy := fun e he => Option.some.inj he ▸ hvalue
    .bind (readsOnly_checkReturn result span hall).tracks fun _ => .pure fun _ _ h => h
  | .break_ span, _ => by
    refine .bind (quiet_checkInLoop inLoop span "break") fun _ => .pure ?_
    intro s' s hquiet globals frames hat
    rw [Lexical.stmt]
    exact ⟨(Visits.refl _ s).quiet hquiet, hquiet.symbols ▸ hat⟩
  | .continue_ span, _ => by
    refine .bind (quiet_checkInLoop inLoop span "continue") fun _ => .pure ?_
    intro s' s hquiet globals frames hat
    rw [Lexical.stmt]
    exact ⟨(Visits.refl _ s).quiet hquiet, hquiet.symbols ▸ hat⟩
  | .if_ span condition yes, ⟨hcondition, hyes⟩ => by
    refine .bind (reads_checkExact Ty.bool hcondition) fun condition' =>
      .bind (visits_checkBlock result _ inLoop yes hyes) fun yes' => .pure ?_
    intro s₂ s₁ hblock s hreads globals frames hat
    have hat₁ : At s₁.symbols globals scope frames counters := hreads.symbols ▸ hat
    have hvisits := hblock globals _ (hat₁.start (by decide))
    rw [Lexical.stmt]
    exact ⟨(hreads.visits hat.models).append hvisits.outer, hat₁.block (by decide) hvisits⟩
  | .ifElse span condition yes no, ⟨hcondition, hyes, hno⟩ => by
    refine .bind (reads_checkExact Ty.bool hcondition) fun condition' =>
      .bind (visits_checkBlock result _ inLoop yes hyes) fun yes' =>
      .bind (visits_checkBlock result _ inLoop no hno) fun no' => .pure ?_
    intro s₃ s₂ hblock' s₁ hblock s hreads globals frames hat
    have hat₁ : At s₁.symbols globals scope frames counters := hreads.symbols ▸ hat
    have hvisits := hblock globals _ (hat₁.start (by decide))
    have hvisits' := hblock' globals _ (hat₁.startElse hvisits)
    rw [Lexical.stmt]
    exact ⟨((hreads.visits hat.models).append hvisits.outer).append hvisits'.outer,
      (hat₁.block (by decide) hvisits).blockElse hvisits'⟩
  | .while_ span condition body, ⟨hcondition, hbody⟩ => by
    refine .bind (reads_checkExact Ty.bool hcondition) fun condition' =>
      .bind (visits_checkBlock result _ true body hbody) fun body' => .pure ?_
    intro s₂ s₁ hblock s hreads globals frames hat
    have hat₁ : At s₁.symbols globals scope frames counters := hreads.symbols ▸ hat
    have hvisits := hblock globals _ (hat₁.start (by decide))
    rw [Lexical.stmt]
    exact ⟨(hreads.visits hat.models).append hvisits.outer, hat₁.block (by decide) hvisits⟩
  | .doWhile span body condition, ⟨hcondition, hbody⟩ => by
    refine .bind (visits_checkBlock result _ true body hbody) fun body' =>
      .bind (reads_checkExact Ty.bool hcondition) fun condition' => .pure ?_
    intro s₂ s₁ hreads s hblock globals frames hat
    have hvisits := hblock globals _ (hat.start (by decide))
    have hat₁ := hat.block (by decide) hvisits
    rw [Lexical.stmt]
    exact ⟨hvisits.outer.append (hreads.visits hat₁.models), hreads.symbols ▸ hat₁⟩
  | .for_ span iterator start stop body mangled, ⟨hname, hstart, hstop, hbody⟩ => by
    refine .bind (reads_checkExact Ty.int hstart) fun start' =>
      .bind (reads_checkExact Ty.int hstop) fun stop' =>
      .bind (visits_declareIterator _ hname) fun own =>
      .bind (visits_checkBlock result _ true body hbody) fun body' => .pure ?_
    intro s₄ s₃ hblock s₂ hiterator s₁ hstop' s hstart' globals frames hat
    have hreads := hstart'.append hstop'
    have hat₂ : At s₂.symbols globals scope frames counters := hreads.symbols ▸ hat
    obtain ⟨hdeclared, hinner⟩ := hiterator globals frames (hat₂.start (by decide))
    have hvisits := hdeclared.append (hblock globals _ hinner)
    rw [Lexical.stmt]
    exact ⟨(hreads.visits hat.models).append hvisits.outer, hat₂.block (by decide) hvisits⟩
  | .block span body, hbody => by
    refine .bind (visits_checkBlock result _ inLoop body hbody) fun body' => .pure ?_
    intro s₁ s hblock globals frames hat
    have hvisits := hblock globals _ (hat.start (by decide))
    rw [Lexical.stmt]
    exact ⟨hvisits.outer, hat.block (by decide) hvisits⟩

theorem visits_checkStmts (result : Located Ty) (scope : ScopePath) (inLoop : Bool)
    (counters : SegmentCounters) : (statements : List Stmt) → Stmt.AllTidy statements →
      Performs (checkStmts ctx result scope inLoop counters statements) fun s statements' s' =>
        ∀ globals frames, At s.symbols globals scope frames counters →
          Visits scope.segments (Lexical.stmts ctx.types frames statements') s s'
  | [], _ => .pure fun s _ _ _ => .refl _ s
  | first :: rest, ⟨hfirst, hrest⟩ => by
    refine .bind (tracks_checkStmt result scope inLoop counters first hfirst) fun r =>
      .bind (visits_checkStmts result scope inLoop r.2 rest hrest) fun rest' => .pure ?_
    intro s₂ s₁ hrest' s hfirst' globals frames hat
    obtain ⟨hvisits, hat₁⟩ := hfirst' globals frames hat
    rw [Lexical.stmts]
    exact hvisits.append (hrest' globals _ hat₁)

theorem visits_checkBlock (result : Located Ty) (scope : ScopePath) (inLoop : Bool) :
    (b : Block) → b.Tidy →
      Performs (checkBlock ctx result scope inLoop b) fun s b' s' =>
        ∀ globals frames, At s.symbols globals scope frames .zero →
          Visits scope.segments (Lexical.block ctx.types frames b') s s'
  | .mk _ _ statements, htidy =>
    .bind (visits_checkStmts result scope inLoop .zero statements htidy) fun _ =>
      .pure fun _ _ h => h
end

end RegionCompiler.Typing
