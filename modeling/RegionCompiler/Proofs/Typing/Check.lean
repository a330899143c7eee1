import RegionCompiler.Proofs.Typing.Locals

/-! Checking is sound: what comes out of a run without diagnostics obeys the rules of typing. -/
namespace RegionCompiler.Typing

variable {ctx : Context} {f : String} {scope : ScopePath}

theorem checkTypeExists_symbols (layouts : Registry) (symbols symbols' : SymbolTable)
    (types : List String) (ty : Located Ty) :
    checkTypeExists ⟨layouts, symbols, types⟩ ty = checkTypeExists ⟨layouts, symbols', types⟩ ty :=
  rfl

/-- The type has a declared name. -/
def Declared (ctx : Context) (ty : Located Ty) : Prop :=
  checkTypeExists ⟨ctx.layouts, .empty, ctx.types⟩ ty = .ok ()

theorem Declared.known {ty : Located Ty} (h : Declared ctx ty) (hctx : ctx.Sound)
    (hd : ty.value.IsData) : ty.value.Known ctx.layouts :=
  checkTypeExists_known hctx.types hd h

/-- Whether a type exists depends on the context alone, not on what was declared. -/
theorem declareType_cases (ctx : Context) (ty : Located Ty) :
    (Declared ctx ty ∧ declareType ctx ty = pure (some ())) ∨
      ∃ d, declareType ctx ty = (do report d; return none) := by
  cases h : checkTypeExists ⟨ctx.layouts, .empty, ctx.types⟩ ty with
  | ok _ =>
    refine .inl ⟨h, ?_⟩
    funext s
    change settle (checkTypeExists ⟨ctx.layouts, s.symbols, ctx.types⟩ ty) s = _
    rw [checkTypeExists_symbols _ s.symbols .empty, h]
    rfl
  | error d =>
    refine .inr ⟨d, ?_⟩
    funext s
    change settle (checkTypeExists ⟨ctx.layouts, s.symbols, ctx.types⟩ ty) s = _
    rw [checkTypeExists_symbols _ s.symbols .empty, h]
    rfl

theorem yields_checkExpr (hf : scope.function = f) (hint : Ty) {e : Expr} (he : e.Tidy) :
    Yields ctx f (checkExpr ctx scope hint e) fun D r =>
      Hint D hint → ∃ t, r.2 = some t ∧ HasType D r.1 t ∧ (e.isCall → r.1.isCall) := by
  refine .bind (.env hf) fun environment => .bind (.settle _) fun r => .pure ?_
  rintro D hl - ⟨t, ht, rfl⟩ hfits hhint
  exact ⟨t, rfl, infer_sound hfits e hhint he (Prod.ext rfl ht),
    isCall_infer hfits e he (Prod.ext rfl ht)⟩

theorem yields_checkExact (hf : scope.function = f) (expected : Ty) {e : Expr} (he : e.Tidy) :
    Yields ctx f (checkExact ctx scope expected e) fun D r =>
      expected.Known D.layouts → ∃ t, HasType D r t ∧ t.agrees expected := by
  refine .bind (.env hf) fun environment => .bind (.settle _) fun r => .pure ?_
  rintro D hl - ⟨_, hexpect, -⟩ hfits hknown
  obtain ⟨t, ht, hagrees⟩ := expectTy_agrees hexpect
  exact ⟨t, infer_sound hfits e (.inr hknown) he (Prod.ext rfl ht), hagrees⟩

theorem yields_checkExact_base (hf : scope.function = f) {name : String}
    (hh : ctx.Sound → (Ty.base name).Known ctx.layouts) {e : Expr} (he : e.Tidy) :
    Yields ctx f (checkExact ctx scope (.base name) e) fun D r => HasType D r (.base name) := by
  refine .bind (.env hf) fun environment => .bind (.settle _) fun r => .pure ?_
  rintro D hl hctx ⟨_, hexpect, -⟩ hfits
  have ht := expectTy_int hexpect
  exact infer_sound hfits e (.inr (hl ▸ hh hctx)) he (Prod.ext rfl ht)

section Statements

variable {result : Located Ty} {inLoop : Bool}

theorem yields_checkLet (hf : scope.function = f) (span : Span)
    (allocate : Bool) {ty : Located Ty} (hd : ty.value.IsData) (name : Located String)
    {value : Expr} (hvalue : value.Tidy) (mangled : Option String) :
    Yields ctx f (checkLet ctx scope span allocate ty name value mangled)
      fun D s => StmtOk D result.value inLoop s := by
  unfold checkLet
  rcases declareType_cases ctx ty with ⟨hdeclared, hrun⟩ | ⟨d, hrun⟩
  · rw [hrun, pure_bind]
    refine .bind (yields_checkExpr hf _ hvalue) fun r => ?_
    refine .declare_bind ?_ rfl ?_ fun s => ⟨[], (List.append_nil _).symm⟩
    · refine ⟨.inl rfl, hf ▸ owned_mangle scope _, ?_⟩
      intro hctx
      have hk := hdeclared.known hctx hd
      dsimp only
      split
      · exact hk.withModifier_pointer
      · exact hk
    · obtain ⟨checked, actual⟩ := r
      cases actual with
      | none =>
        refine .pure fun D hl hctx hdecl hchecked => ?_
        obtain ⟨t, ht, -⟩ := hchecked (.inr (hl ▸ hdeclared.known hctx hd))
        cases ht
      | some actual =>
        refine .ite (fun _ => ?_) fun hagrees => .pure ?_
        · exact .bind (.report _) fun _ => .pure fun _ _ _ h => h.elim
        · intro D hl hctx hdecl hchecked
          have hk : ty.value.Known D.layouts := hl ▸ hdeclared.known hctx hd
          obtain ⟨t, ht, htyped, -⟩ := hchecked (.inr hk)
          cases ht
          exact .let_ hk htyped (by simpa using hagrees) hdecl
  · rw [hrun, bind_assoc]
    refine .bind (.report d) fun _ => ?_
    rw [pure_bind]
    exact .pure fun _ _ _ h => h.elim

theorem yields_checkMut (hf : scope.function = f) (span : Span) {target : Located Place}
    (htarget : target.value.Tidy) {value : Expr} (hvalue : value.Tidy) :
    Yields ctx f (checkMut ctx scope span target value)
      fun D s => StmtOk D result.value inLoop s := by
  refine .ite (fun _ => ?_) fun hends => .bind (.env hf) fun environment =>
    .bind (.settle _) fun r => ?_
  · exact .bind (.report _) fun _ => .pure fun _ _ _ h => h.elim
  · cases r with
    | none => exact .pure fun _ _ _ ⟨_, _, ht⟩ => by cases ht
    | some expected =>
      refine .bind (yields_checkExact hf expected hvalue) fun checked => .pure ?_
      rintro D hl - hchecked ⟨t, ht, hr⟩ hfits
      cases hr
      obtain ⟨hrefers, hcalls⟩ := inferPlace_sound hfits htarget (Prod.ext rfl ht)
      obtain ⟨u, hu, hagrees⟩ := hchecked (hrefers.known hfits.sound)
      exact .mut_ hrefers ((endsInCall_congr hcalls).trans (by simpa using hends)) hu hagrees

theorem yields_checkCall (hf : scope.function = f) (span : Span) {value : Expr}
    (hvalue : value.Tidy) :
    Yields ctx f (checkCall ctx scope span value) fun D s => StmtOk D result.value inLoop s := by
  refine .ite (fun hcall => .bind (yields_checkExpr hf _ hvalue) fun r => .pure ?_) fun _ =>
    .bind (.report _) fun _ => .pure fun _ _ _ h => h.elim
  intro D hl _ hchecked
  obtain ⟨t, -, ht, hc⟩ := hchecked (.inl rfl)
  exact .call (hc hcall) ht

theorem yields_checkCollect (hf : scope.function = f) (span : Span) {value : Expr}
    (hvalue : value.Tidy) :
    Yields ctx f (checkCollect ctx scope span value)
      fun D s => StmtOk D result.value inLoop s := by
  refine .bind (yields_checkExpr hf _ hvalue) fun r => ?_
  obtain ⟨checked, actual⟩ := r
  cases actual with
  | none =>
    refine .pure fun D hl _ hchecked => ?_
    obtain ⟨t, ht, -⟩ := hchecked (.inl rfl)
    cases ht
  | some actual =>
    refine .ite (fun _ => .bind (.report _) fun _ => .pure fun _ _ _ h => h.elim) fun hp => .pure ?_
    intro D hl _ hchecked
    obtain ⟨t, ht, htyped, -⟩ := hchecked (.inl rfl)
    cases ht
    refine .collect htyped ?_
    cases hpointer : actual.isPointer
    · exact .inr (by simpa [hpointer] using hp)
    · exact .inl rfl

theorem yields_checkReturn (hf : scope.function = f) (span : Span) {value : Option Expr}
    (hvalue : ∀ e, value = some e → e.Tidy) :
    Yields ctx f (checkReturn ctx scope result span value)
      fun D s => result.value.Known ctx.layouts → StmtOk D result.value inLoop s := by
  cases value with
  | none =>
    refine .ite (fun _ => .bind (.report _) fun _ => .pure fun _ _ _ h => h.elim) fun hv => .pure ?_
    intro D hl _ _
    exact .returnNothing (by simpa using hv)
  | some value =>
    refine .ite (fun _ => .bind (.report _) fun _ => .pure fun _ _ _ h => h.elim) fun hv =>
      .bind (yields_checkExpr hf _ (hvalue value rfl)) fun r => ?_
    obtain ⟨checked, actual⟩ := r
    cases actual with
    | none =>
      refine .pure fun D hl _ hchecked hresult => ?_
      obtain ⟨t, ht, -⟩ := hchecked (.inr (hl ▸ hresult))
      cases ht
    | some actual =>
      refine .ite (fun _ => .bind (.report _) fun _ => .pure fun _ _ _ h => h.elim) fun hagrees =>
        .pure ?_
      intro D hl _ hchecked hresult
      obtain ⟨t, ht, htyped, -⟩ := hchecked (.inr (hl ▸ hresult))
      cases ht
      exact .return_ (by simpa using hv) htyped (by simpa using hagrees)

theorem yields_checkInLoop (span : Span) (keyword : String) :
    Yields ctx f (checkInLoop inLoop span keyword) fun _ _ => inLoop = true := by
  refine .ite (fun _ => (Yields.report _).mono fun _ _ h => h.elim) fun h => .pure ?_
  intro _ _ _
  simpa using h

theorem yields_declareIterator (hf : scope.function = f)
    (iterator : Located String) :
    Yields ctx f (declareIterator scope iterator)
      fun D own => D.declares ⟨own, .iterator⟩ Ty.int := by
  refine .declare_bind ⟨.inr rfl, hf ▸ owned_mangle scope _,
    fun hctx => Ty.known_int hctx.builtin⟩ rfl (.pure fun _ _ _ h => h) fun s => ⟨[], ?_⟩
  exact (List.append_nil _).symm

mutual
theorem yields_checkStmt {scope : ScopePath} (hf : scope.function = f) (inLoop : Bool)
    (counters : SegmentCounters) :
    ∀ s : Stmt, s.Tidy → Yields ctx f (checkStmt ctx result scope inLoop counters s)
      fun D r => result.value.Known ctx.layouts → StmtOk D result.value inLoop r.1
  | .let_ span allocate ty name value mangled, h => by
    unfold checkStmt
    exact .bind (yields_checkLet hf span allocate h.1 name h.2.2 mangled) fun _ =>
      .pure fun _ _ _ h _ => h
  | .mut_ span target value, h => by
    unfold checkStmt
    exact .bind (yields_checkMut hf span h.1 h.2) fun _ => .pure fun _ _ _ h _ => h
  | .call span value, h => by
    unfold checkStmt
    exact .bind (yields_checkCall hf span h) fun _ => .pure fun _ _ _ h _ => h
  | .collect span value, h => by
    unfold checkStmt
    exact .bind (yields_checkCollect hf span h) fun _ => .pure fun _ _ _ h _ => h
  | .return_ span value, h => by
    unfold checkStmt
    refine .bind (yields_checkReturn hf span ?_) fun _ => .pure fun _ _ _ h => h
    rintro e rfl
    exact h
  | .break_ span, h => by
    unfold checkStmt
    refine .bind (yields_checkInLoop span _) fun _ => .pure ?_
    rintro D _ _ rfl _
    exact .break_
  | .continue_ span, h => by
    unfold checkStmt
    refine .bind (yields_checkInLoop span _) fun _ => .pure ?_
    rintro D _ _ rfl _
    exact .continue_
  | .if_ span condition yes, h => by
    unfold checkStmt
    exact .bind (yields_checkExact_base hf (fun hctx => Ty.known_bool hctx.builtin) h.1) fun _ =>
      .bind (yields_checkBlock (function_child hf) inLoop yes h.2) fun _ =>
      .pure fun _ _ _ hyes hcondition hr => .if_ hcondition (hyes hr)
  | .ifElse span condition yes no, h => by
    unfold checkStmt
    exact .bind (yields_checkExact_base hf (fun hctx => Ty.known_bool hctx.builtin) h.1) fun _ =>
      .bind (yields_checkBlock (function_child hf) inLoop yes h.2.1) fun _ =>
      .bind (yields_checkBlock (function_child hf) inLoop no h.2.2) fun _ =>
      .pure fun _ _ _ hno hyes hcondition hr => .ifElse hcondition (hyes hr) (hno hr)
  | .while_ span condition body, h => by
    unfold checkStmt
    exact .bind (yields_checkExact_base hf (fun hctx => Ty.known_bool hctx.builtin) h.1) fun _ =>
      .bind (yields_checkBlock (function_child hf) true body h.2) fun _ =>
      .pure fun _ _ _ hbody hcondition hr => .while_ hcondition (hbody hr)
  | .doWhile span body condition, h => by
    unfold checkStmt
    exact .bind (yields_checkBlock (function_child hf) true body h.2) fun _ =>
      .bind (yields_checkExact_base hf (fun hctx => Ty.known_bool hctx.builtin) h.1) fun _ =>
      .pure fun _ _ _ hcondition hbody hr => .doWhile (hbody hr) hcondition
  | .for_ span iterator start stop body mangled, h => by
    unfold checkStmt
    exact .bind (yields_checkExact_base hf (fun hctx => Ty.known_int hctx.builtin) h.2.1) fun _ =>
      .bind (yields_checkExact_base hf (fun hctx => Ty.known_int hctx.builtin) h.2.2.1) fun _ =>
      .bind (yields_declareIterator (function_child hf) iterator) fun _ =>
      .bind (yields_checkBlock (function_child hf) true body h.2.2.2) fun _ =>
      .pure fun _ _ _ hbody hdecl hstop hstart hr => .for_ hstart hstop hdecl (hbody hr)
  | .block span body, h => by
    unfold checkStmt
    exact .bind (yields_checkBlock (function_child hf) inLoop body h) fun _ =>
      .pure fun _ _ _ hbody hr => .block (hbody hr)

theorem yields_checkStmts {scope : ScopePath} (hf : scope.function = f) (inLoop : Bool)
    (counters : SegmentCounters) :
    ∀ ss : List Stmt, Stmt.AllTidy ss →
      Yields ctx f (checkStmts ctx result scope inLoop counters ss)
        fun D r => result.value.Known ctx.layouts → StmtsOk D result.value inLoop r
  | [], _ => by
    unfold checkStmts
    exact .pure fun _ _ _ _ => .nil
  | s :: rest, h => by
    unfold checkStmts
    exact .bind (yields_checkStmt hf inLoop counters s h.1) fun r =>
      .bind (yields_checkStmts hf inLoop r.2 rest h.2) fun _ =>
      .pure fun _ _ _ hrest hfirst hr => .cons (hfirst hr) (hrest hr)

theorem yields_checkBlock {scope : ScopePath} (hf : scope.function = f) (inLoop : Bool) :
    ∀ b : Block, b.Tidy → Yields ctx f (checkBlock ctx result scope inLoop b)
      fun D r => result.value.Known ctx.layouts → BlockOk D result.value inLoop r
  | .mk span manual statements, h => by
    unfold checkBlock
    exact .bind (yields_checkStmts hf inLoop .zero statements h) fun _ =>
      .pure fun _ _ _ hs hr => .mk (hs hr)
end

end Statements

end RegionCompiler.Typing
