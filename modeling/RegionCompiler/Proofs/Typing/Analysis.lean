import RegionCompiler.Proofs.Typing.Check

/-! A program that is analyzed without diagnostics obeys the rules as a whole. -/
namespace RegionCompiler.Typing

variable {ctx : Context} {α β : Type}

/-- Symbols are added and nothing else is declared. -/
structure Adds (new : List Symbol) (s s' : Progress) : Prop where
  symbols : s'.symbols.symbols = s.symbols.symbols ++ new
  locals : s'.locals = s.locals
  distinct : s.symbols.Distinct → s'.symbols.Distinct

theorem Adds.refl (s : Progress) : Adds [] s s := ⟨by simp, rfl, id⟩

theorem Adds.trans {new new' : List Symbol} {s s' s'' : Progress} (h : Adds new s s')
    (h' : Adds new' s' s'') : Adds (new ++ new') s s'' :=
  ⟨by simp [h'.symbols, h.symbols], h'.locals.trans h.locals,
    fun hd => h'.distinct (h.distinct hd)⟩

theorem Clean.forM {g : β → Check Unit} {P : β → Prop} {new : β → List Symbol} {l : List β}
    (h : ∀ x ∈ l, Clean (g x) fun s _ s' => P x ∧ Adds (new x) s s') :
    Clean (l.forM g) fun s _ s' => (∀ x ∈ l, P x) ∧ Adds (l.flatMap new) s s' := by
  induction l with
  | nil => exact .pure fun s => ⟨by simp, Adds.refl s⟩
  | cons x rest ih =>
    refine .bind (h x (by simp)) fun _ => (ih fun y hy => h y (by simp [hy])).mono ?_
    rintro s' _ s'' ⟨hrest, hadds⟩ s ⟨hx, hadd⟩
    exact ⟨by simpa using ⟨hx, hrest⟩, by simpa using hadd.trans hadds⟩

theorem Clean.each {g : β → Check Unit} {P : β → Prop} {l : List β}
    (h : ∀ x ∈ l, Clean (g x) fun s _ s' => P x ∧ Adds [] s s') :
    Clean (l.forM g) fun s _ s' => (∀ x ∈ l, P x) ∧ Adds [] s s' := by
  refine (Clean.forM h).mono fun s _ s' hs => ⟨hs.1, ?_⟩
  have hnil : l.flatMap (fun _ => ([] : List Symbol)) = [] := by simp
  rw [← hnil]
  exact hs.2

theorem Clean.mapM {γ : Type} {g : β → Check γ} {P : β → γ → Prop} {new : β → List Symbol}
    {l : List β} (h : ∀ x ∈ l, Clean (g x) fun s y s' => P x y ∧ Adds (new x) s s') :
    Clean (l.mapM g) fun s ys s' => List.Forall₂ P l ys ∧ Adds (l.flatMap new) s s' := by
  induction l with
  | nil =>
    rw [List.mapM_nil]
    exact .pure fun s => ⟨.nil, Adds.refl s⟩
  | cons x rest ih =>
    rw [List.mapM_cons]
    refine .bind (h x (by simp)) fun y =>
      .bind (ih fun z hz => h z (by simp [hz])) fun ys => .pure ?_
    rintro s'' s' ⟨hrest, hadds⟩ s ⟨hx, hadd⟩
    exact ⟨.cons hx hrest, by simpa using hadd.trans hadds⟩

theorem clean_settle (outcome : Except Diagnostic α) :
    Clean (settle outcome) fun s _ s' => (∃ a, outcome = .ok a) ∧ Adds [] s s' := by
  cases outcome with
  | ok a => exact .pure fun s => ⟨⟨a, rfl⟩, Adds.refl s⟩
  | error d => exact .bind (.report d) fun _ => .pure fun _ _ h => h.elim

theorem clean_declareType (ctx : Context) (ty : Located Ty) :
    Clean (declareType ctx ty) fun s _ s' => Declared ctx ty ∧ Adds [] s s' where
  honest s := (clean_settle (checkTypeExists ⟨ctx.layouts, s.symbols, ctx.types⟩ ty)).honest s
  run s h := by
    obtain ⟨⟨_, ha⟩, hadds⟩ :=
      (clean_settle (checkTypeExists ⟨ctx.layouts, s.symbols, ctx.types⟩ ty)).run s h
    exact ⟨ha, hadds⟩

theorem clean_declareType_discard (ctx : Context) (ty : Located Ty) :
    Clean (do let _ ← declareType ctx ty) fun s _ s' => Declared ctx ty ∧ Adds [] s s' :=
  .bind (clean_declareType ctx ty) fun _ => .pure fun _ _ h => h

/-- Every error of the registration is a problem, or its record has a member of no known type. -/
theorem clean_checkRecords (records : List Record) (errors : List (Nat × LayoutError)) :
    Clean (checkRecords ctx records errors) fun s _ s' =>
      ((∀ r ∈ records, ∀ m ∈ r.members, Declared ctx m.ty) ∧
        ∀ x ∈ errors, ∀ r, records[x.1]? = some r →
          recordDiagnostic records x.1 r.name x.2 = none) ∧ Adds [] s s' := by
  refine .bind (Clean.each fun r _ => Clean.each fun m _ => clean_declareType_discard ctx m.ty)
    fun _ => (Clean.each fun x hx => ?_).mono fun s' _ s'' h s hs =>
      ⟨⟨hs.1, h.1⟩, hs.2.trans h.2⟩
  dsimp only
  cases hr : records[x.1]? with
  | none => exact .pure fun s => ⟨by simp, Adds.refl s⟩
  | some r =>
    cases hd : recordDiagnostic records x.1 r.name x.2 with
    | none =>
      simp only [hd]
      exact .pure fun s => ⟨by rintro _ ⟨⟩; exact hd, Adds.refl s⟩
    | some d =>
      simp only [hd]
      exact (Clean.report d).mono fun _ _ _ h => h.elim

def initialTypes : List String := Knowledge.initial.types

/-- The context under which a program is checked on top of what is known. -/
def Knowledge.context (k : Knowledge) (p : Program) : Context where
  layouts := (k.layouts.registerRecords (p.records.map recordShape)).1
  types := k.types ++ p.records.map (·.name.value)

/-- The context under which a program is checked from the start. -/
def contextOf (p : Program) : Context := Knowledge.initial.context p

theorem initial_contains (name : String) (h : name ∈ initialTypes) :
    Registry.initial.contains name := by
  simp only [initialTypes, Knowledge.initial, List.mem_cons, List.not_mem_nil, or_false] at h
  rcases h with rfl | rfl | rfl | rfl | rfl | rfl | rfl <;> decide

section Records

variable {k : Knowledge} {p : Program} (hknown : ∀ name ∈ k.types, k.layouts.contains name)

include hknown

/-- A declared type is not missing: its name is known or that of a record. -/
theorem Declared.not_missing {ty : Located Ty} (h : Declared (k.context p) ty) :
    ¬ (k.context p).layouts.Missing (p.records.map recordShape) ty.value := by
  intro hmissing
  unfold Declared checkTypeExists at h
  cases hty : ty.value with
  | invalid => simp [hty, Ty.name?, reject] at h
  | base name =>
    simp only [hty, Ty.name?] at h
    split at h
    · rename_i hin
      rw [hty] at hmissing
      rcases List.mem_append.1 (List.contains_iff_mem.1 hin) with hold | hrecord
      · exact hmissing.1 (Registry.registerRecords_le.contains (hknown _ hold))
      · obtain ⟨r, hr, rfl⟩ := List.mem_map.1 hrecord
        exact hmissing.2 (recordShape r) (List.mem_map_of_mem hr) rfl
    · cases h
  | pointer _ => simp [hty, Registry.Missing] at hmissing
  | array _ _ => simp [hty, Registry.Missing] at hmissing
  | function _ _ _ _ => simp [hty, Registry.Missing] at hmissing

/-- Without a problem there is no error of the registration either. -/
theorem errors_eq_nil
    (hdeclared : ∀ r ∈ p.records, ∀ m ∈ r.members, Declared (k.context p) m.ty)
    (hnone : ∀ x ∈ (k.layouts.registerRecords (p.records.map recordShape)).2,
      ∀ r, p.records[x.1]? = some r → recordDiagnostic p.records x.1 r.name x.2 = none) :
    (k.layouts.registerRecords (p.records.map recordShape)).2 = [] := by
  refine List.eq_nil_iff_forall_not_mem.2 ?_
  rintro ⟨i, e⟩ he
  obtain ⟨shape, hshape, hblamed⟩ := Registry.registerRecords_errors he
  rw [List.getElem?_map] at hshape
  obtain ⟨r, hr, rfl⟩ := Option.map_eq_some_iff.1 hshape
  have hd := hnone _ he r hr
  cases e with
  | unknownType t =>
    obtain ⟨name, hmem, hmissing⟩ := hblamed t rfl
    obtain ⟨m, hm, heq⟩ := List.mem_map.1 hmem
    cases heq
    exact (hdeclared r (List.mem_of_getElem? hr) m hm).not_missing hknown hmissing
  | duplicateType _ => simp [recordDiagnostic] at hd
  | notMaterializable _ => simp [recordDiagnostic] at hd
  | cycle _ | overflow => simp [recordDiagnostic] at hd

theorem Knowledge.context_sound (hbuiltin : Registry.initial.Le k.layouts)
    (h : (k.layouts.registerRecords (p.records.map recordShape)).2 = []) :
    (k.context p).Sound where
  builtin := hbuiltin.trans Registry.registerRecords_le
  types := by
    intro name hname
    rcases List.mem_append.1 (List.contains_iff_mem.1 hname) with hold | hrecord
    · exact Registry.registerRecords_le.contains (hknown name hold)
    · obtain ⟨r, hr, rfl⟩ := List.mem_map.1 hrecord
      exact Registry.registerRecords_contains h (List.mem_map_of_mem hr)

end Records

/-- The symbols of what a program declares. -/
def Function.symbol (f : Function) : Symbol :=
  ⟨f.name.value, f.name.value, f.signature, f.name.span, .function⟩

def ForeignFunction.symbol (f : ForeignFunction) : Symbol :=
  ⟨f.name.value, f.name.value, f.signature, f.name.span, .foreignFunction⟩

def Embed.symbol (e : Embed) : Symbol :=
  ⟨e.name.value, e.name.value, Ty.bytes, e.name.span, .embed⟩

theorem clean_declare_return (symbol : Symbol) (a : α) :
    Clean (do let _ ← declare symbol; return a) fun s r s' => r = a ∧ Adds [symbol] s s' := by
  refine .bind (clean_declare symbol) fun _ => .pure ?_
  rintro s' s ⟨-, hlocals, hsymbols, hdistinct⟩
  exact ⟨rfl, hsymbols, hlocals, hdistinct⟩

theorem clean_declareFunction (f : Function) :
    Clean (declareFunction ctx f) fun s _ s' =>
      ((∀ p ∈ f.parameters, Declared ctx p.ty) ∧ Declared ctx f.result) ∧
        Adds [Function.symbol f] s s' := by
  refine .bind (Clean.each fun p _ => clean_declareType_discard ctx p.ty) fun _ =>
    .bind (clean_declareType ctx f.result) fun _ =>
    (clean_declare_return (Function.symbol f) ()).mono
      fun s3 _ s4 h s2 hresult s1 hparameters => ?_
  exact ⟨⟨hparameters.1, hresult.1⟩, by simpa using (hparameters.2.trans hresult.2).trans h.2⟩

theorem clean_checkForeignParameters (parameters : List ForeignParameter) :
    Clean (checkForeignParameters ctx parameters) fun s _ s' =>
      (∀ q ∈ parameters, ∀ ty name, q = .typed ty name → Declared ctx ty) ∧ Adds [] s s' := by
  induction parameters with
  | nil => exact .pure fun s => ⟨by simp, Adds.refl s⟩
  | cons q rest ih =>
    cases q with
    | typed ty name =>
      refine .bind (clean_declareType ctx ty) fun _ => ih.mono fun s' _ s'' h s hs => ?_
      refine ⟨?_, hs.2.trans h.2⟩
      intro q hq ty' name' heq
      rcases List.mem_cons.1 hq with rfl | hq
      · cases heq
        exact hs.1
      · exact h.1 q hq ty' name' heq
    | variadic span =>
      unfold checkForeignParameters
      have hrest : Clean (checkForeignParameters ctx rest) fun s _ s' =>
          (∀ q ∈ ForeignParameter.variadic span :: rest, ∀ ty name, q = .typed ty name →
            Declared ctx ty) ∧ Adds [] s s' := by
        refine ih.mono fun s _ s' h => ⟨?_, h.2⟩
        intro q hq ty' name' heq
        rcases List.mem_cons.1 hq with rfl | hq
        · cases heq
        · exact h.1 q hq ty' name' heq
      exact .ite (fun _ => .report_bind _ hrest.honest) fun _ => hrest

theorem clean_declareForeign (f : ForeignFunction) :
    Clean (declareForeign ctx f) fun s _ s' =>
      ((∀ q ∈ f.parameters, ∀ ty name, q = .typed ty name → Declared ctx ty) ∧
        Declared ctx f.result) ∧ Adds [ForeignFunction.symbol f] s s' := by
  refine .bind (clean_checkForeignParameters f.parameters) fun _ =>
    .bind (clean_declareType ctx f.result) fun _ =>
    (clean_declare_return (ForeignFunction.symbol f) ()).mono
      fun s3 _ s4 h s2 hresult s1 hparameters => ?_
  exact ⟨⟨hparameters.1, hresult.1⟩, by simpa using (hparameters.2.trans hresult.2).trans h.2⟩

theorem clean_declareEmbed (isFile : String → Bool) (base : String) (e : Embed) :
    Clean (declareEmbed isFile base e) fun s e' s' =>
      (e'.name = e.name ∧ e'.resolved.isSome) ∧ Adds [Embed.symbol e] s s' := by
  refine .ite (fun _ => .report_bind _ (clean_declare_return (Embed.symbol e) _).honest)
    fun hfile => (clean_declare_return (Embed.symbol e) _).mono ?_
  rintro s _ s' ⟨rfl, hadds⟩
  have hfound : isFile (Path.join base e.path.value) = true := by simpa using hfile
  exact ⟨⟨rfl, by simp [hfound]⟩, hadds⟩

theorem clean_checkEntryPoint (functions : List Function) :
    Clean (checkEntryPoint functions) fun s _ s' =>
      (∃ f ∈ functions, f.name.value = "main" ∧ f.parameters = [] ∧
        (f.result.value.isVoid ∨ f.result.value.isInteger)) ∧ Adds [] s s' := by
  unfold checkEntryPoint
  cases hmain : functions.find? (·.name.value == "main") with
  | none => exact (Clean.report _).mono fun _ _ _ h => h.elim
  | some main =>
    refine .ite (fun _ => (Clean.report _).mono fun _ _ _ h => h.elim) fun hvalid =>
      .pure fun s => ⟨⟨main, List.mem_of_find?_eq_some hmain, ?_, ?_, ?_⟩, Adds.refl s⟩
    · simpa using List.find?_some hmain
    · cases hp : main.parameters with
      | nil => rfl
      | cons _ _ => simp [hp] at hvalid
    · cases hv : main.result.value.isVoid
      · exact .inr (by simp_all)
      · exact .inl rfl

def parameterSymbol (scope : ScopePath) (p : Parameter) : Symbol :=
  ⟨p.name.value, scope.mangle p.name.value, p.ty.value, p.name.span, .parameter⟩

theorem clean_checkParameters (scope : ScopePath) (parameters : List Parameter) :
    Clean (parameters.mapM (checkParameter scope)) fun s vs s' =>
      vs = parameters.map (fun p => (parameterSymbol scope p).variable) ∧
        Adds (parameters.map (parameterSymbol scope)) s s' := by
  refine (Clean.mapM fun p _ => clean_declare_return (parameterSymbol scope p) _).mono ?_
  rintro s vs s' ⟨hvs, hadds⟩
  constructor
  · rw [← List.forall₂_eq_eq_eq, List.forall₂_map_right_iff]
    exact hvs.flip
  · rwa [List.map_eq_flatMap]

/-- The types in the head of a function have layouts. -/
structure Ready (ctx : Context) (f : Function) : Prop where
  context : ctx.Sound
  parameters : ∀ p ∈ f.parameters, p.ty.value.Known ctx.layouts
  result : f.result.value.Known ctx.layouts

/-- What checking a function leaves: its variables are the symbols it declared. -/
structure CheckedFunction (ctx : Context) (f : Function) (s : Progress) (f' : Function)
    (s' : Progress) : Prop where
  name : f'.name = f.name
  parameters : f'.parameters = f.parameters
  result : f'.result = f.result
  stackParameters : f'.stack.parameters.map (·.ty) = f.parameters.map (·.ty.value)
  own : ∃ own : List Symbol, s'.symbols.symbols = s.symbols.symbols ++ own ∧
    f'.stack.parameters ++ f'.stack.locals = own.map Symbol.variable ∧
    ∀ x ∈ own, x.kind.isStack ∧ Owned f.name.value x.mangled ∧
      (Ready ctx f → x.ty.Known ctx.layouts)
  distinct : s.symbols.Distinct → s'.symbols.Distinct
  body : Ready ctx f → ∀ D, Covers ctx D f.name.value s'.symbols →
    BlockOk D f.result.value false f'.body
  returns : f.result.value.isVoid = false → f.body.endsInReturn

theorem clean_checkFunction {f : Function} (hf : f.Tidy) :
    Clean (checkFunction ctx f) (CheckedFunction ctx f) := by
  have hbody : Yields ctx f.name.value
      (checkBlock ctx f.result (ScopePath.ofFunction f.name.value) false f.body)
      fun D b => f.result.value.Known ctx.layouts → BlockOk D f.result.value false b :=
    yields_checkBlock rfl false f.body hf.body
  refine .bind (R := fun s _ s' => s' = { s with locals := [] })
    ⟨fun s => ⟨[], (List.append_nil _).symm⟩, fun _ _ => rfl⟩ fun _ =>
    .bind (clean_checkParameters (ScopePath.ofFunction f.name.value) f.parameters) fun vs =>
    .bind hbody fun body => ?_
  have hlast : Clean (do
      let s ← get
      return { f with body := body, stack := ⟨vs, s.locals⟩ } : Check Function)
      fun s f' s' => s' = s ∧ f' = { f with body := body, stack := ⟨vs, s.locals⟩ } :=
    ⟨fun s => ⟨[], (List.append_nil _).symm⟩, fun _ _ => ⟨rfl, rfl⟩⟩
  refine .ite (fun _ => .report_bind _ hlast.honest) fun hreturns => hlast.mono ?_
  rintro s3 f' _ ⟨rfl, rfl⟩ s2 ⟨hdeclares, hcovers⟩ s1 ⟨rfl, hadds⟩ s rfl
  obtain ⟨new, hsymbols, hlocals, hnew⟩ := hdeclares.locals
  refine ⟨rfl, rfl, rfl, by simp [parameterSymbol, Symbol.variable], ?_, ?_, ?_,
    fun hvoid => by simpa [hvoid] using hreturns⟩
  · refine ⟨f.parameters.map (parameterSymbol (ScopePath.ofFunction f.name.value)) ++ new,
      ?_, ?_, ?_⟩
    · simp [hsymbols, hadds.symbols]
    · simp [hlocals, hadds.locals]
    · intro x hx
      rcases List.mem_append.1 hx with hx | hx
      · obtain ⟨p, hp, rfl⟩ := List.mem_map.1 hx
        exact ⟨rfl, owned_mangle (ScopePath.ofFunction f.name.value) _,
          fun hready => hready.parameters p hp⟩
      · exact ⟨(hnew x hx).isStack, (hnew x hx).owned, fun hready =>
          (hnew x hx).known hready.context⟩
  · exact fun hd => hdeclares.distinct (hadds.distinct hd)
  · exact fun hready D hD => hcovers D hD hready.result

/-- Functions checked one after the other. -/
inductive CheckedFunctions (ctx : Context) :
    List Function → Progress → List Function → Progress → Prop
  | nil {s} : CheckedFunctions ctx [] s [] s
  | cons {f fs s f' s' fs' s''} : CheckedFunction ctx f s f' s' →
      CheckedFunctions ctx fs s' fs' s'' → CheckedFunctions ctx (f :: fs) s (f' :: fs') s''

theorem clean_checkFunctions {fs : List Function} (hfs : ∀ f ∈ fs, f.Tidy) :
    Clean (fs.mapM (checkFunction ctx)) (CheckedFunctions ctx fs) := by
  induction fs with
  | nil => exact .pure fun _ => .nil
  | cons f fs ih =>
    rw [List.mapM_cons]
    exact .bind (clean_checkFunction (hfs f (by simp))) fun f' =>
      .bind (ih fun g hg => hfs g (by simp [hg])) fun fs' =>
      .pure fun _ _ hrest _ hfirst => .cons hfirst hrest

theorem CheckedFunctions.distinct {fs fs' : List Function} {s s' : Progress}
    (h : CheckedFunctions ctx fs s fs' s') (hs : s.symbols.Distinct) : s'.symbols.Distinct := by
  induction h with
  | nil => exact hs
  | cons hfirst _ ih => exact ih (hfirst.distinct hs)

theorem CheckedFunctions.forall₂ {fs fs' : List Function} {s s' : Progress}
    (h : CheckedFunctions ctx fs s fs' s') :
    List.Forall₂ (fun f f' => f'.name = f.name ∧ f'.parameters = f.parameters ∧
      f'.result = f.result) fs fs' := by
  induction h with
  | nil => exact .nil
  | cons hfirst _ ih => exact .cons ⟨hfirst.name, hfirst.parameters, hfirst.result⟩ ih

theorem CheckedFunctions.returns {fs fs' : List Function} {s s' : Progress}
    (h : CheckedFunctions ctx fs s fs' s') :
    ∀ f ∈ fs, f.result.value.isVoid = false → f.body.endsInReturn := by
  induction h with
  | nil => simp
  | cons hfirst _ ih =>
    intro f hf
    rcases List.mem_cons.1 hf with rfl | hf
    · exact hfirst.returns
    · exact ih f hf

theorem CheckedFunctions.subset {fs fs' : List Function} {s s' : Progress}
    (h : CheckedFunctions ctx fs s fs' s') : s.symbols.symbols ⊆ s'.symbols.symbols := by
  induction h with
  | nil => exact List.Subset.refl _
  | cons hfirst _ ih =>
    obtain ⟨own, hsymbols, -⟩ := hfirst.own
    rw [hsymbols] at ih
    exact List.Subset.trans (List.subset_append_left _ _) ih

theorem CheckedFunctions.checked {fs fs' : List Function} {s s' : Progress}
    (h : CheckedFunctions ctx fs s fs' s') : ∀ f' ∈ fs', ∃ f ∈ fs, ∃ s₁ s₂,
      CheckedFunction ctx f s₁ f' s₂ ∧ s₂.symbols.symbols ⊆ s'.symbols.symbols := by
  induction h with
  | nil => simp
  | cons hfirst hrest ih =>
    intro f' hf'
    rcases List.mem_cons.1 hf' with rfl | hf'
    · exact ⟨_, by simp, _, _, hfirst, hrest.subset⟩
    · obtain ⟨f, hf, hchecked⟩ := ih f' hf'
      exact ⟨f, by simp [hf], hchecked⟩

/-- The types that a program declares have layouts. -/
structure GlobalsOk (layouts : Registry) (p : Program) : Prop where
  builtin : Registry.initial.Le layouts
  members : ∀ {name l}, layouts.get? name = some l → ∀ m ∈ l.members, m.ty.Known layouts
  functions : ∀ g ∈ p.functions,
    (∀ q ∈ g.parameters, q.ty.value.Known layouts) ∧ g.result.value.Known layouts
  foreign : ∀ g ∈ p.foreign,
    (∀ q ∈ g.parameters, ∀ t, q.ty? = some t → t.Known layouts) ∧ g.result.value.Known layouts

theorem ProgramOk.globals {layouts : Registry} {p : Program} (h : ProgramOk layouts p) :
    GlobalsOk layouts p := by
  refine ⟨h.builtin, h.members, fun g hg => ⟨fun q hq => ?_, (h.functions g hg).result⟩,
    fun g hg => ⟨(h.foreign g hg).parameters, (h.foreign g hg).result⟩⟩
  have hmem : q.ty.value ∈ g.stack.parameters.map (·.ty) := by
    rw [(h.functions g hg).parameters]
    exact List.mem_map_of_mem hq
  obtain ⟨v, hv, hty⟩ := List.mem_map.1 hmem
  rw [← hty]
  exact (h.functions g hg).known v (by simp [hv])

theorem withModifier_function {r : Registry} {t : Ty} (h : t.Known r) (ps : List Ty)
    (variadic foreign : Bool) :
    t.withModifier (.function ps variadic foreign) = .function t ps variadic foreign := by
  cases t <;> first | rfl | exact h.elim

/-- A type that a name can be declared under: a function has a result and parameters with
layouts. -/
def Declarable (r : Registry) (t : Ty) : Prop :=
  t.Known r ∨ ∃ result ps variadic foreign, t = .function result ps variadic foreign ∧
    result.Known r ∧ ∀ q ∈ ps, q.Known r

theorem declarable_signature {r : Registry} {f : Function}
    (h : (∀ q ∈ f.parameters, q.ty.value.Known r) ∧ f.result.value.Known r) :
    Declarable r f.signature := by
  refine .inr ⟨_, _, _, _, withModifier_function h.2 _ _ _, h.2, fun q hq => ?_⟩
  obtain ⟨x, hx, rfl⟩ := List.mem_map.1 hq
  exact h.1 x hx

theorem declarable_foreignSignature {r : Registry} {f : ForeignFunction}
    (h : (∀ q ∈ f.parameters, ∀ t, q.ty? = some t → t.Known r) ∧ f.result.value.Known r) :
    Declarable r f.signature := by
  refine .inr ⟨_, _, _, _, withModifier_function h.2 _ _ _, h.2, fun q hq => ?_⟩
  obtain ⟨x, hx, hxt⟩ := List.mem_filterMap.1 hq
  exact h.1 x hx q hxt

theorem Decls.sound_of_declarable {D : Decls} (hbuiltin : Registry.initial.Le D.layouts)
    (hmembers : ∀ {name l}, D.layouts.get? name = some l → ∀ m ∈ l.members, m.ty.Known D.layouts)
    (h : ∀ {b t}, D.declares b t → Declarable D.layouts t) : D.Sound where
  builtin := hbuiltin
  value := by
    intro b t hb hf
    rcases h hb with hk | ⟨_, _, _, _, rfl, -⟩
    · exact hk
    · cases hf
  result := by
    intro b t ps v f hb
    rcases h hb with hk | ⟨_, _, _, _, heq, hk, -⟩
    · exact hk.elim
    · cases heq
      exact hk
  parameters := by
    intro b t ps v f hb
    rcases h hb with hk | ⟨_, _, _, _, heq, -, hk⟩
    · exact hk.elim
    · cases heq
      exact hk
  members := hmembers

theorem declsOf_sound {layouts : Registry} {p : Program} {stack : StackVariables}
    (hp : GlobalsOk layouts p)
    (hstack : ∀ v ∈ stack.parameters ++ stack.locals, v.ty.Known layouts) :
    (declsOf layouts p stack).Sound := by
  refine Decls.sound_of_declarable hp.builtin hp.members ?_
  rintro ⟨mangled, kind⟩ t h
  cases kind with
  | function =>
    obtain ⟨g, hg, -, rfl⟩ := h
    exact declarable_signature (hp.functions g hg)
  | foreignFunction =>
    obtain ⟨g, hg, -, rfl⟩ := h
    exact declarable_foreignSignature (hp.foreign g hg)
  | embed => exact .inl (h.2 ▸ Ty.known_bytes hp.builtin)
  | parameter => obtain ⟨v, hv, -, rfl⟩ := h; exact .inl (hstack v hv)
  | local_ => obtain ⟨v, hv, -, rfl⟩ := h; exact .inl (hstack v hv)
  | iterator => obtain ⟨v, hv, -, rfl⟩ := h; exact .inl (hstack v hv)

/-- The symbols that a program declares outside of its functions. -/
def globals (p : Program) : List Symbol :=
  p.functions.map Function.symbol ++ p.foreign.map ForeignFunction.symbol
    ++ p.embeds.map Embed.symbol

theorem declares_of_mem_globals (layouts : Registry) (stack : StackVariables) {p : Program}
    {x : Symbol} (h : x ∈ globals p) :
    x.kind.isStack = false ∧ (declsOf layouts p stack).declares ⟨x.mangled, x.kind⟩ x.ty := by
  simp only [globals, List.mem_append, List.mem_map] at h
  rcases h with (⟨g, hg, rfl⟩ | ⟨g, hg, rfl⟩) | ⟨e, he, rfl⟩
  · exact ⟨rfl, g, hg, rfl, rfl⟩
  · exact ⟨rfl, g, hg, rfl, rfl⟩
  · exact ⟨rfl, ⟨e, he, rfl⟩, rfl⟩

/-- A checked function obeys the rules if all variables in the table so far belong to functions
with other names. -/
theorem CheckedFunction.ok {f f' : Function} {s s' : Progress} (h : CheckedFunction ctx f s f' s')
    {p : Program} (hp : GlobalsOk ctx.layouts p) (hready : Ready ctx f)
    (hname : IsName f.name.value)
    (hothers : ∀ x ∈ s.symbols.symbols, x ∈ globals p ∨
      x.kind.isStack ∧ ∃ g, IsName g ∧ g ≠ f.name.value ∧ Owned g x.mangled)
    (hdistinct : s.symbols.Distinct) : FunctionOk ctx.layouts p f' := by
  obtain ⟨own, hsymbols, hstack, hown⟩ := h.own
  have hknown : ∀ v ∈ f'.stack.parameters ++ f'.stack.locals, v.ty.Known ctx.layouts := by
    intro v hv
    rw [hstack] at hv
    obtain ⟨x, hx, rfl⟩ := List.mem_map.1 hv
    exact (hown x hx).2.2 hready
  refine ⟨h.name ▸ hname, h.stackParameters.trans (by rw [h.parameters]), hknown,
    h.result ▸ hready.result, ?_, ?_⟩
  · have hall := h.distinct hdistinct
    rw [SymbolTable.Distinct, hsymbols, List.map_append] at hall
    rw [hstack, List.map_map]
    exact (List.nodup_append.1 hall).2.1
  · rw [h.result]
    refine h.body hready _ ⟨rfl, declsOf_sound hp hknown, hready.context.types, ?_, ?_⟩
    · intro x hx hx'
      rw [hsymbols] at hx
      rcases List.mem_append.1 hx with hx | hx
      · rcases hothers x hx with hglobal | ⟨-, g, -, -, howned⟩
        · rw [(declares_of_mem_globals ctx.layouts f'.stack hglobal).1] at hx'
          cases hx'
        · exact howned.dollar_mem
      · exact (hown x hx).2.1.dollar_mem
    · intro x hx hx'
      rw [hsymbols] at hx
      rcases List.mem_append.1 hx with hx | hx
      · rcases hothers x hx with hglobal | ⟨hstackx, g, hg, hne, howned⟩
        · exact (declares_of_mem_globals _ _ hglobal).2
        · exact absurd (howned.unique (hx' hstackx) hg hname) hne
      · have hmem : x.variable ∈ f'.stack.parameters ++ f'.stack.locals := by
          rw [hstack]
          exact List.mem_map_of_mem hx
        have hkind := (hown x hx).1
        cases hk : x.kind with
        | parameter => exact ⟨x.variable, hmem, rfl, rfl⟩
        | local_ => exact ⟨x.variable, hmem, rfl, rfl⟩
        | iterator => exact ⟨x.variable, hmem, rfl, rfl⟩
        | function => simp [hk, SymbolKind.isStack] at hkind
        | foreignFunction => simp [hk, SymbolKind.isStack] at hkind
        | embed => simp [hk, SymbolKind.isStack] at hkind

theorem CheckedFunctions.ok {fs fs' : List Function} {s s' : Progress}
    (h : CheckedFunctions ctx fs s fs' s') {p : Program} (hp : GlobalsOk ctx.layouts p)
    (hready : ∀ f ∈ fs, Ready ctx f) (hnames : ∀ f ∈ fs, IsName f.name.value)
    {seen : List String} (hseen : ∀ n ∈ seen, IsName n)
    (hnodup : (seen ++ fs.map (·.name.value)).Nodup)
    (hothers : ∀ x ∈ s.symbols.symbols, x ∈ globals p ∨
      x.kind.isStack ∧ ∃ g ∈ seen, Owned g x.mangled)
    (hdistinct : s.symbols.Distinct) : ∀ f' ∈ fs', FunctionOk ctx.layouts p f' := by
  -- The functions seen so far own all variables in the table.
  induction h generalizing seen with
  | nil => simp
  | @cons f fs s f' s' fs' s'' hfirst _ ih =>
    intro g hg
    have hcons : ((seen ++ [f.name.value]) ++ fs.map (·.name.value)).Nodup := by
      simpa using hnodup
    rcases List.mem_cons.1 hg with rfl | hg
    · refine hfirst.ok hp (hready f (by simp)) (hnames f (by simp)) (fun x hx => ?_) hdistinct
      refine (hothers x hx).imp_right fun ⟨hstack, n, hn, howned⟩ =>
        ⟨hstack, n, hseen n hn, ?_, howned⟩
      rintro rfl
      have hdup := (List.nodup_append.1 (List.nodup_append.1 hcons).1).2.2
      exact hdup _ hn _ (by simp) rfl
    · refine ih (fun f hf => hready f (by simp [hf])) (fun f hf => hnames f (by simp [hf]))
        (fun n hn => ?_) hcons (fun x hx => ?_) (hfirst.distinct hdistinct) g hg
      · rcases List.mem_append.1 hn with hn | hn
        · exact hseen n hn
        · rw [List.mem_singleton.1 hn]
          exact hnames f (by simp)
      · obtain ⟨own, hsymbols, -, hown⟩ := hfirst.own
        rw [hsymbols] at hx
        rcases List.mem_append.1 hx with hx | hx
        · refine (hothers x hx).imp_right fun ⟨hstack, n, hn, howned⟩ => ⟨hstack, n, ?_, howned⟩
          exact List.mem_append_left _ hn
        · exact .inr ⟨(hown x hx).1, f.name.value, by simp, (hown x hx).2.1⟩

/-- What a run over a whole program without problems has found. -/
structure CheckedProgram (ctx : Context) (p : Program) (errors : List (Nat × LayoutError))
    (s : Progress) (p' : Program) (s' : Progress) : Prop where
  members : ∀ r ∈ p.records, ∀ m ∈ r.members, Declared ctx m.ty
  errors : ∀ x ∈ errors, ∀ r, p.records[x.1]? = some r →
    recordDiagnostic p.records x.1 r.name x.2 = none
  functionTypes : ∀ f ∈ p.functions, (∀ q ∈ f.parameters, Declared ctx q.ty) ∧ Declared ctx f.result
  foreignTypes : ∀ f ∈ p.foreign,
    (∀ q ∈ f.parameters, ∀ ty name, q = .typed ty name → Declared ctx ty) ∧ Declared ctx f.result
  embeds : List.Forall₂ (fun e e' => e'.name = e.name ∧ e'.resolved.isSome) p.embeds p'.embeds
  main : ∃ f ∈ p.functions, f.name.value = "main" ∧ f.parameters = [] ∧
    (f.result.value.isVoid ∨ f.result.value.isInteger)
  foreign : p'.foreign = p.foreign
  functions : ∃ mid, Adds (globals p) s mid ∧
    CheckedFunctions ctx p.functions mid p'.functions s'

theorem clean_checkDeclarations (isFile : String → Bool) (base : String) {p : Program}
    (hp : p.Tidy) (errors : List (Nat × LayoutError)) :
    Clean (checkDeclarations ctx isFile base p errors) (CheckedProgram ctx p errors) := by
  refine .bind (clean_checkRecords p.records errors) fun _ =>
    .bind (Clean.forM fun f _ => clean_declareFunction f) fun _ =>
    .bind (Clean.forM fun f _ => clean_declareForeign f) fun _ =>
    .bind (Clean.mapM fun e _ => clean_declareEmbed isFile base e) fun embeds =>
    .bind (clean_checkEntryPoint p.functions) fun _ =>
    .bind (clean_checkFunctions hp.functions) fun functions => .pure ?_
  rintro s6 s5 hchecked s4 ⟨hmain, hadds4⟩ s3 ⟨hembeds, hadds3⟩ s2 ⟨hforeign, hadds2⟩
    s1 ⟨hfunctions, hadds1⟩ s ⟨⟨hmembers, herrors⟩, hadds⟩
  refine ⟨hmembers, herrors, hfunctions, hforeign, hembeds, hmain, rfl, s5, ?_, hchecked⟩
  have hall := (((hadds.trans hadds1).trans hadds2).trans hadds3).trans hadds4
  simpa [globals, List.map_eq_flatMap] using hall

theorem map_eq_of_forall₂ {γ : Type} {f : α → γ} {g : β → γ} {l : List α} {l' : List β}
    (h : List.Forall₂ (fun a b => g b = f a) l l') : l'.map g = l.map f := by
  induction h with
  | nil => rfl
  | cons hab _ ih => simp [hab, ih]

theorem exists_of_forall₂ {R : α → β → Prop} {l : List α} {l' : List β} (h : List.Forall₂ R l l')
    {a : α} (ha : a ∈ l) : ∃ b ∈ l', R a b := by
  induction h with
  | nil => cases ha
  | cons hab _ ih =>
    rcases List.mem_cons.1 ha with rfl | ha
    · exact ⟨_, by simp, hab⟩
    · obtain ⟨b, hb, hr⟩ := ih ha
      exact ⟨b, by simp [hb], hr⟩

theorem CheckedProgram.globals_eq {errors : List (Nat × LayoutError)} {p p' : Program}
    {s s' : Progress} (h : CheckedProgram ctx p errors s p' s') : globals p' = globals p := by
  obtain ⟨_, -, hchecked⟩ := h.functions
  have hfunctions : p'.functions.map Function.symbol = p.functions.map Function.symbol := by
    refine map_eq_of_forall₂ (hchecked.forall₂.imp fun f f' hf => ?_)
    simp [Function.symbol, Function.signature, hf]
  have hembeds : p'.embeds.map Embed.symbol = p.embeds.map Embed.symbol := by
    refine map_eq_of_forall₂ (h.embeds.imp fun e e' he => ?_)
    simp [Embed.symbol, he.1]
  rw [globals, globals, h.foreign, hfunctions, hembeds]

/-- The records of a program and the types in its records and in the heads of its functions have
layouts. -/
structure Settled (layouts : Registry) (p : Program) : Prop where
  records : ∀ r ∈ p.records, layouts.contains r.name.value
  members : ∀ r ∈ p.records, ∀ m ∈ r.members, m.ty.value.Known layouts
  functions : ∀ g ∈ p.functions,
    (∀ q ∈ g.parameters, q.ty.value.Known layouts) ∧ g.result.value.Known layouts
  foreign : ∀ g ∈ p.foreign,
    (∀ q ∈ g.parameters, ∀ t, q.ty? = some t → t.Known layouts) ∧ g.result.value.Known layouts

theorem CheckedProgram.settled {k : Knowledge} {p p' : Program} {s s' : Progress} (hp : p.Tidy)
    (hbuiltin : Registry.initial.Le k.layouts) (hknown : ∀ name ∈ k.types, k.layouts.contains name)
    (h : CheckedProgram (k.context p) p
      (k.layouts.registerRecords (p.records.map recordShape)).2 s p' s') :
    (k.context p).Sound ∧ Settled (k.context p).layouts p := by
  have hnone := errors_eq_nil hknown h.members h.errors
  have hctx : (k.context p).Sound := Knowledge.context_sound hknown hbuiltin hnone
  refine ⟨hctx, fun r hr => ?_, fun r hr m hm => ?_, fun f hf => ?_, fun f hf => ?_⟩
  · exact Registry.registerRecords_contains hnone (List.mem_map_of_mem hr)
  · exact (h.members r hr m hm).known hctx (hp.records r hr m hm)
  · obtain ⟨hparameters, hresult⟩ := h.functionTypes f hf
    exact ⟨fun q hq => (hparameters q hq).known hctx ((hp.functions f hf).parameters q hq).1,
      hresult.known hctx (hp.functions f hf).result⟩
  · obtain ⟨hparameters, hresult⟩ := h.foreignTypes f hf
    refine ⟨fun q hq t ht => ?_, hresult.known hctx (hp.foreign f hf).result⟩
    cases q with
    | typed ty name =>
      cases ht
      exact (hparameters _ hq ty name rfl).known hctx ((hp.foreign f hf).parameters _ hq _ rfl)
    | variadic span => cases ht

theorem CheckedProgram.globalsOk {p p' : Program} {s s' : Progress} (hp : p.Tidy)
    (h : CheckedProgram (contextOf p) p
      (Registry.initial.registerRecords (p.records.map recordShape)).2 s p' s') :
    (contextOf p).Sound ∧ GlobalsOk (contextOf p).layouts p := by
  obtain ⟨hctx, hsettled⟩ := CheckedProgram.settled hp (.refl _) initial_contains h
  refine ⟨hctx, hctx.builtin, ?_, hsettled.functions, hsettled.foreign⟩
  intro name l hl m hm
  obtain ⟨hdeclared, -⟩ :=
    Registry.registerRecords_sound (Registry.initial_sound (p.records.map recordShape))
      (List.Subset.refl _) name l hl
  obtain ⟨shape, hshape, hmember⟩ := hdeclared m hm
  obtain ⟨r, hr, rfl⟩ := List.mem_map.1 hshape
  obtain ⟨q, hq, heq⟩ := List.mem_map.1 hmember
  rw [← (Prod.mk.inj heq).2]
  exact hsettled.members r hr q hq

theorem CheckedProgram.programOk {p p' : Program} {s' : Progress} (hp : p.Tidy)
    (h : CheckedProgram (contextOf p) p
      (Registry.initial.registerRecords (p.records.map recordShape)).2 ⟨.empty, [], []⟩ p' s') :
    ProgramOk (contextOf p).layouts p' := by
  obtain ⟨hctx, hglobals⟩ := h.globalsOk hp
  obtain ⟨mid, hadds, hchecked⟩ := h.functions
  have hsymbols : mid.symbols.symbols = globals p := by
    simpa [SymbolTable.empty] using hadds.symbols
  have hdistinct : mid.symbols.Distinct := hadds.distinct List.nodup_nil
  have hnames : ((globals p).map (·.mangled)).Nodup := by
    rwa [SymbolTable.Distinct, hsymbols] at hdistinct
  have hfunctions : (p.functions.map (·.name.value)).Nodup := by
    refine hnames.sublist ?_
    simp [globals, Function.symbol, Function.comp_def]
  have hglobals' : GlobalsOk (contextOf p).layouts p' := by
    refine ⟨hglobals.builtin, hglobals.members, fun f' hf' => ?_, h.foreign ▸ hglobals.foreign⟩
    obtain ⟨f, hf, -, hparameters, hresult⟩ := exists_of_forall₂ hchecked.forall₂.flip hf'
    rw [hparameters, hresult]
    exact hglobals.functions f hf
  refine ⟨hctx.builtin, hglobals.members, ?_, ?_, ?_, ?_, ?_, ?_, ?_⟩
  · intro name l hl
    exact (Registry.registerRecords_sound (Registry.initial_sound (p.records.map recordShape))
      (List.Subset.refl _) name l hl).2
  · refine hchecked.ok hglobals' (fun f hf => ?_) (fun f hf => (hp.functions f hf).name)
      (show ∀ n ∈ ([] : List String), IsName n by simp) (by simpa using hfunctions)
      (fun x hx => ?_) hdistinct
    · exact ⟨hctx, (hglobals.functions f hf).1, (hglobals.functions f hf).2⟩
    · left
      rwa [h.globals_eq, ← hsymbols]
  · rw [map_eq_of_forall₂ (f := fun f : Function => f.name.value)
      (hchecked.forall₂.imp fun f f' hf => by rw [hf.1])]
    exact hfunctions
  · rw [h.foreign]
    intro f hf
    exact ⟨(hp.foreign f hf).link, (hglobals.foreign f hf).1, (hglobals.foreign f hf).2⟩
  · rw [h.foreign]
    refine hnames.sublist ?_
    simp only [globals, List.map_append, List.map_map]
    exact (List.sublist_append_right _ _).trans (List.sublist_append_left _ _)
  · intro e' he'
    obtain ⟨e, -, -, hresolved⟩ := exists_of_forall₂ h.embeds.flip he'
    exact hresolved
  · obtain ⟨f, hf, hname, hparameters, hresult⟩ := h.main
    obtain ⟨f', hf', hname', hparameters', hresult'⟩ := exists_of_forall₂ hchecked.forall₂ hf
    exact ⟨f', hf', by rw [hname', hname], by rw [hparameters', hparameters], by rwa [hresult']⟩

theorem analyze_programOk {isFile : String → Bool} {base : String} {p : Program} (hp : p.Tidy)
    (h : (analyze isFile base .initial p).2.diagnostics = []) :
    ProgramOk (analyze isFile base .initial p).2.layouts (analyze isFile base .initial p).1 := by
  have hclean := @clean_checkDeclarations (contextOf p) isFile base p hp
    (Registry.initial.registerRecords (p.records.map recordShape)).2
  exact (hclean.run ⟨.empty, [], []⟩ h).programOk hp

theorem analyze_returns {isFile : String → Bool} {base : String} {p : Program} (hp : p.Tidy)
    (h : (analyze isFile base .initial p).2.diagnostics = []) :
    ∀ f ∈ p.functions, f.result.value.isVoid = false → f.body.endsInReturn := by
  have hclean := @clean_checkDeclarations (contextOf p) isFile base p hp
    (Registry.initial.registerRecords (p.records.map recordShape)).2
  obtain ⟨_, -, hchecked⟩ := (hclean.run ⟨.empty, [], []⟩ h).functions
  exact hchecked.returns

theorem analyze_distinct {isFile : String → Bool} {base : String} {p : Program} (hp : p.Tidy)
    (h : (analyze isFile base .initial p).2.diagnostics = []) :
    ((globals (analyze isFile base .initial p).1).map (·.mangled)).Nodup ∧
    ∀ e ∈ (analyze isFile base .initial p).1.embeds, IsName e.name.value := by
  have hclean := @clean_checkDeclarations (contextOf p) isFile base p hp
    (Registry.initial.registerRecords (p.records.map recordShape)).2
  have hchecked := hclean.run ⟨.empty, [], []⟩ h
  obtain ⟨mid, hadds, -⟩ := hchecked.functions
  have hsymbols : mid.symbols.symbols = globals p := by
    simpa [SymbolTable.empty] using hadds.symbols
  have hdistinct : mid.symbols.Distinct := hadds.distinct List.nodup_nil
  rw [SymbolTable.Distinct, hsymbols, ← hchecked.globals_eq] at hdistinct
  refine ⟨hdistinct, fun e' he' => ?_⟩
  obtain ⟨e, he, hname, -⟩ := exists_of_forall₂ hchecked.embeds.flip he'
  rw [hname]
  exact hp.embeds e he

end RegionCompiler.Typing
