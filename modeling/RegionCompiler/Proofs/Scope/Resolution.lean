import Mathlib
import RegionCompiler.Proofs.Compilation
import RegionCompiler.Proofs.Scope.Body
import RegionCompiler.Proofs.Typing.Annotation

/-! Resolution by mangled names is lexical scoping, for whole programs. -/
namespace RegionCompiler

namespace Typing

open Lexical

variable {ctx : Context} {s s' s'' : Progress} {globals : List Symbol}
  {references others : List Reference}

/-! The parameters and the body of a function. -/

theorem visits_checkParameter (scope : ScopePath) {p : Parameter} (hname : IsName p.name.value) :
    Performs (checkParameter scope p) fun s v s' => v = (parameterSymbol scope p).variable ∧
      ∀ globals frames, At s.symbols globals scope frames .zero →
        Visits scope.segments [] s s' ∧
          At s'.symbols globals scope (frames.declare (parameterSymbol scope p)) .zero := by
  refine .bind (visits_declare (parameterSymbol scope p)) fun _ => .pure ?_
  intro s' s h
  refine ⟨rfl, fun globals frames hat => ?_⟩
  obtain ⟨hvisits, hat', -⟩ := h globals scope frames .zero rfl hname hat
  exact ⟨hvisits, hat'⟩

theorem visits_checkParameters (scope : ScopePath) {parameters : List Parameter}
    (hnames : ∀ p ∈ parameters, IsName p.name.value) :
    Performs (parameters.mapM (checkParameter scope)) fun s vs s' =>
      vs = parameters.map (fun p => (parameterSymbol scope p).variable) ∧
      ∀ globals frames, At s.symbols globals scope frames .zero →
        Visits scope.segments [] s s' ∧ At s'.symbols globals scope
          ((parameters.map (parameterSymbol scope)).foldl Frames.declare frames) .zero := by
  induction parameters with
  | nil => exact .pure fun s => ⟨rfl, fun globals frames hat => ⟨.refl _ s, hat⟩⟩
  | cons p rest ih =>
    rw [List.mapM_cons]
    refine .bind (visits_checkParameter scope (hnames p (by simp))) fun v =>
      .bind (ih fun q hq => hnames q (by simp [hq])) fun vs => .pure ?_
    rintro s₂ s₁ ⟨rfl, hrest⟩ s ⟨rfl, hfirst⟩
    refine ⟨rfl, fun globals frames hat => ?_⟩
    obtain ⟨hvisits, hat₁⟩ := hfirst globals frames hat
    obtain ⟨hvisits', hat₂⟩ := hrest globals _ hat₁
    exact ⟨hvisits.append hvisits', hat₂⟩

theorem parameterSymbols_eq {f f' : Function} {scope : ScopePath}
    (hparameters : f'.parameters = f.parameters)
    (hstack : f'.stack.parameters = f.parameters.map fun p => (parameterSymbol scope p).variable) :
    parameterSymbols f' = f.parameters.map (parameterSymbol scope) := by
  rw [parameterSymbols, hparameters, hstack]
  induction f.parameters with
  | nil => rfl
  | cons p rest ih => exact congrArg (_ :: ·) ih

theorem visits_checkFunction {f : Function} (hf : f.Tidy) :
    Performs (checkFunction ctx f) fun s f' s' => ∀ globals, Answers s.symbols [] globals →
      Fresh s.symbols [f.name.value] →
      Visits [f.name.value] (Lexical.function ctx.types globals f') s s' := by
  have hlast : ∀ vs body, Performs (do
      let s ← get
      return { f with body := body, stack := ⟨vs, s.locals⟩ } : Check Function)
      fun s f' s' => s' = s ∧ f'.parameters = f.parameters ∧ f'.stack.parameters = vs ∧
        f'.body = body := fun vs body s => ⟨rfl, rfl, rfl, rfl⟩
  have hstart : Performs (modify fun s => { s with locals := [] } : Check Unit)
      fun s _ s' => Quiet s s' := fun s => ⟨rfl, [], (List.append_nil s.diagnostics).symm, by simp⟩
  refine .bind hstart fun _ =>
    .bind (visits_checkParameters (.ofFunction f.name.value) fun p hp => (hf.parameters p hp).2)
    fun vs => .bind (visits_checkBlock f.result (.ofFunction f.name.value) false f.body hf.body)
    fun body => ?_
  have hend : Performs (do
      let s ← get
      return { f with body := body, stack := ⟨vs, s.locals⟩ } : Check Function)
      fun s₃ f' s₄ => ∀ s₃', Quiet s₃' s₃ → Quiet s₃' s₄ ∧ f'.parameters = f.parameters ∧
        f'.stack.parameters = vs ∧ f'.body = body := by
    refine (hlast vs body).mono ?_
    rintro s₃ f' _ ⟨rfl, h⟩ s₃' hquiet
    exact ⟨hquiet, h⟩
  have hreport : Performs (do
      if !f.result.value.isVoid && !f.body.endsInReturn then
        report ⟨f.name.span, .noReturn f.name.value f.result.value,
          [⟨f.result.span, .returnTypeDeclared f.result.value⟩]⟩
      let s ← get
      return { f with body := body, stack := ⟨vs, s.locals⟩ } : Check Function)
      fun s₃ f' s₄ => Quiet s₃ s₄ ∧ f'.parameters = f.parameters ∧ f'.stack.parameters = vs ∧
        f'.body = body :=
    .ite (fun _ => .bind (quiet_report rfl) fun _ => hend)
      fun _ => hend.mono fun s₃ f' s₄ h => h s₃ (.refl s₃)
  refine hreport.mono ?_
  rintro s₃ f' s₄ ⟨hquiet, hparameters, hvs, rfl⟩ s₂ hblock s₁ ⟨rfl, hdeclare⟩ s hquiet' globals
    hglobals hfresh
  have hscope : Fresh s.symbols (ScopePath.ofFunction f.name.value).segments := hfresh
  have hat : At s₁.symbols globals (.ofFunction f.name.value) [[], globals] .zero := by
    rw [hquiet'.symbols]
    exact ⟨.function hglobals (.of_fresh hfresh), fun _ _ _ => hscope.child⟩
  obtain ⟨hvisits, hat'⟩ := hdeclare globals _ hat
  have hall := (((Visits.refl _ s).quiet hquiet').append hvisits).append (hblock globals _ hat')
  rw [Lexical.function, parameterSymbols_eq hparameters hvs]
  exact hall.quiet hquiet

theorem visits_checkFunctions {fs : List Function} (hfs : ∀ f ∈ fs, f.Tidy)
    (hdistinct : (fs.map (·.name.value)).Nodup) :
    Performs (fs.mapM (checkFunction ctx)) fun s fs' s' => ∀ globals,
      Answers s.symbols [] globals → (∀ f ∈ fs, Fresh s.symbols [f.name.value]) →
      Visits [] (fs'.flatMap (Lexical.function ctx.types globals)) s s' := by
  induction fs with
  | nil => exact .pure fun s _ _ _ => .refl _ s
  | cons f rest ih =>
    rw [List.map_cons, List.nodup_cons] at hdistinct
    have htidy := hfs f (by simp)
    have hrest : ∀ g ∈ rest, g.Tidy := fun g hg => hfs g (by simp [hg])
    rw [List.mapM_cons]
    refine .bind (visits_checkFunction htidy) fun f' => .bind (ih hrest hdistinct.2) fun fs' =>
      .pure ?_
    intro s₂ s₁ hvisits' s hvisits globals hglobals hfresh
    have hfirst := hvisits globals hglobals (hfresh f (by simp))
    obtain ⟨new, hsymbols, hnew⟩ := hfirst.symbols
    have hothers := hvisits' globals (hglobals.extend hsymbols hnew) fun g hg => ?_
    · rw [List.flatMap_cons]
      exact hfirst.anywhere.append hothers
    · have hne : g.name.value ≠ f.name.value := by
        intro heq
        exact hdistinct.1 (heq ▸ List.mem_map_of_mem hg)
      have hfreshg : Fresh s.symbols ([] ++ [g.name.value]) := hfresh g (by simp [hg])
      exact hfreshg.sibling hsymbols hnew (hrest g hg).name htidy.name hne

/-! What is declared outside of functions. -/

/-- The table holds globals only. -/
structure Outermost (t : SymbolTable) (frame : List Symbol) : Prop where
  answers : Answers t [] frame
  names : ∀ s ∈ t.symbols, IsName s.mangled

theorem mangleIn_nil (name : String) : ScopePath.mangleIn [] name = name := by
  simp [ScopePath.mangleIn]

/-- Globals are declared in the table and in the outermost frame alike. -/
def AddsGlobals (symbols : List Symbol) (s s' : Progress) : Prop :=
  ∀ frame, Outermost s.symbols frame →
    Visits [] [] s s' ∧ Outermost s'.symbols (symbols.foldl addTo frame)

theorem Quiet.addsGlobals (h : Quiet s s') : AddsGlobals [] s s' :=
  fun _ houter => ⟨(Visits.refl _ s).quiet h, h.symbols ▸ houter⟩

theorem AddsGlobals.append {symbols more : List Symbol} (h : AddsGlobals symbols s s')
    (h' : AddsGlobals more s' s'') : AddsGlobals (symbols ++ more) s s'' := by
  intro frame houter
  obtain ⟨hvisits, houter'⟩ := h frame houter
  obtain ⟨hvisits', houter''⟩ := h' _ houter'
  rw [List.foldl_append]
  exact ⟨hvisits.append hvisits', houter''⟩

theorem performs_declare_global {symbol : Symbol} (hmangled : symbol.mangled = symbol.name)
    (hname : IsName symbol.name) :
    Performs (declare symbol) fun s _ s' => AddsGlobals [symbol] s s' := by
  intro s frame houter
  have hin : symbol.mangled = ScopePath.mangleIn [] symbol.name := by rw [mangleIn_nil, hmangled]
  have hany := houter.answers.any_name hin hname
  rcases s.symbols.declare_cases symbol with ⟨hnone, hok⟩ | ⟨existing, hsome, herror⟩
  · rw [declare_of_ok hok]
    rw [hnone] at hany
    refine ⟨⟨⟨[symbol], rfl, fun _ _ => List.nil_prefix⟩, ⟨[], by simp, .nil (by simp)⟩, by simp⟩,
      ?_, ?_⟩
    · simp only [List.foldl_cons, List.foldl_nil, addTo, hany, Option.isSome_none,
        Bool.false_eq_true, if_false]
      exact houter.answers.declare hin rfl
    · intro x hx
      rcases List.mem_append.1 hx with hx | hx
      · exact houter.names x hx
      · rw [List.mem_singleton.1 hx, hmangled]
        exact hname
  · rw [declare_of_error herror]
    rw [hsome] at hany
    refine ⟨⟨⟨[], (List.append_nil _).symm, by simp⟩,
      ⟨_, rfl, .nil (by simp [Diagnostic.isMissing, Problem.isMissing])⟩, by simp⟩, ?_⟩
    simp only [List.foldl_cons, List.foldl_nil, addTo, hany, Option.isSome_some, if_true]
    exact houter

theorem Performs.forM_globals {α : Type} {g : α → Check Unit} {symbols : α → List Symbol}
    {l : List α} (h : ∀ x ∈ l, Performs (g x) fun s _ s' => AddsGlobals (symbols x) s s') :
    Performs (l.forM g) fun s _ s' => AddsGlobals (l.flatMap symbols) s s' := by
  induction l with
  | nil => exact .pure fun s => (Quiet.refl s).addsGlobals
  | cons x rest ih =>
    refine .bind (h x (by simp)) fun _ => (ih fun y hy => h y (by simp [hy])).mono ?_
    intro s₁ _ s₂ hrest s hfirst
    exact hfirst.append hrest

theorem Performs.mapM_globals {α β : Type} {g : α → Check β} {symbols : α → List Symbol}
    {l : List α} (h : ∀ x ∈ l, Performs (g x) fun s _ s' => AddsGlobals (symbols x) s s') :
    Performs (l.mapM g) fun s _ s' => AddsGlobals (l.flatMap symbols) s s' := by
  induction l with
  | nil => exact .pure fun s => (Quiet.refl s).addsGlobals
  | cons x rest ih =>
    rw [List.mapM_cons]
    refine .bind (h x (by simp)) fun _ => .bind (ih fun y hy => h y (by simp [hy])) fun _ =>
      .pure ?_
    intro s₂ s₁ hrest s hfirst
    exact hfirst.append hrest

theorem quiet_declareType (ctx : Context) (ty : Located Ty) :
    Performs (declareType ctx ty) fun s _ s' => Quiet s s' := by
  refine (performs_declareType ctx ty).mono ?_
  rintro s r s' (⟨-, -, rfl⟩ | ⟨-, -, d, hd, rfl⟩)
  · exact .refl _
  · exact ⟨rfl, [d], rfl, by simpa using hd⟩

theorem Performs.forM_quiet {α : Type} {g : α → Check Unit} {l : List α}
    (h : ∀ x ∈ l, Performs (g x) fun s _ s' => Quiet s s') :
    Performs (l.forM g) fun s _ s' => Quiet s s' := by
  induction l with
  | nil => exact .pure fun s => .refl s
  | cons x rest ih =>
    refine .bind (h x (by simp)) fun _ => (ih fun y hy => h y (by simp [hy])).mono ?_
    exact fun s₁ _ s₂ hrest s hfirst => hfirst.trans hrest

theorem quiet_declareType_discard (ctx : Context) (ty : Located Ty) :
    Performs (do let _ ← declareType ctx ty) fun s _ s' => Quiet s s' :=
  .bind (quiet_declareType ctx ty) fun _ => .pure fun _ _ h => h

theorem quiet_checkRecords (records : List Record) (errors : List (Nat × LayoutError)) :
    Performs (checkRecords ctx records errors) fun s _ s' => Quiet s s' := by
  refine .bind (.forM_quiet fun r _ => .forM_quiet fun m _ => quiet_declareType_discard ctx m.ty)
    fun _ => .mono (R := fun s _ s' => Quiet s s') (.forM_quiet fun x _ => ?_)
      fun s₁ _ s₂ hlast s hfirst => hfirst.trans hlast
  dsimp only
  cases hr : records[x.1]? with
  | none => exact .pure fun s => .refl s
  | some r =>
    cases hd : recordDiagnostic records x.1 r.name x.2 with
    | none =>
      simp only [hd]
      exact .pure fun s => .refl s
    | some d =>
      simp only [hd]
      refine quiet_report ?_
      obtain ⟨index, e⟩ := x
      cases e <;> cases hd <;> rfl

theorem quiet_checkForeignParameters (parameters : List ForeignParameter) :
    Performs (checkForeignParameters ctx parameters) fun s _ s' => Quiet s s' := by
  induction parameters with
  | nil => exact .pure fun s => .refl s
  | cons q rest ih =>
    have hafter : Performs (checkForeignParameters ctx rest) fun s₁ _ s₂ => ∀ s, Quiet s s₁ →
        Quiet s s₂ := ih.mono fun s₁ _ s₂ hrest s hfirst => hfirst.trans hrest
    cases q with
    | typed ty name => exact .bind (quiet_declareType ctx ty) fun _ => hafter
    | variadic span =>
      unfold checkForeignParameters
      exact .ite (fun _ => .bind (quiet_report rfl) fun _ => hafter) fun _ => ih

theorem adds_declareFunction {f : Function} (hf : IsName f.name.value) :
    Performs (declareFunction ctx f) fun s _ s' => AddsGlobals [Function.symbol f] s s' := by
  refine .bind (.forM_quiet fun p _ => quiet_declareType_discard ctx p.ty) fun _ =>
    .bind (quiet_declareType ctx f.result) fun _ =>
    .bind (@performs_declare_global (Function.symbol f) rfl hf) fun _ => .pure ?_
  intro s₃ s₂ hdeclare s₁ hresult s hparameters
  exact (hparameters.trans hresult).addsGlobals.append hdeclare

theorem adds_declareForeign {f : ForeignFunction} (hf : IsName f.name.value) :
    Performs (declareForeign ctx f) fun s _ s' => AddsGlobals [ForeignFunction.symbol f] s s' := by
  refine .bind (quiet_checkForeignParameters f.parameters) fun _ =>
    .bind (quiet_declareType ctx f.result) fun _ =>
    .bind (@performs_declare_global (ForeignFunction.symbol f) rfl hf) fun _ => .pure ?_
  intro s₃ s₂ hdeclare s₁ hresult s hparameters
  exact (hparameters.trans hresult).addsGlobals.append hdeclare

theorem adds_declareEmbed (isFile : String → Bool) (base : String) {e : Embed}
    (he : IsName e.name.value) :
    Performs (declareEmbed isFile base e) fun s _ s' => AddsGlobals [Embed.symbol e] s s' := by
  have hdeclare : ∀ e' : Embed, Performs (do let _ ← declare (Embed.symbol e); return e')
      fun s₁ _ s₂ => AddsGlobals [Embed.symbol e] s₁ s₂ := fun e' =>
    .bind (@performs_declare_global (Embed.symbol e) rfl he) fun _ => .pure fun _ _ h => h
  refine .ite (fun _ => .bind (quiet_report rfl) fun _ => (hdeclare _).mono ?_) fun _ => hdeclare _
  exact fun s₁ _ s₂ h s hquiet => hquiet.addsGlobals.append h

theorem quiet_checkEntryPoint (functions : List Function) :
    Performs (checkEntryPoint functions) fun s _ s' => Quiet s s' := by
  unfold checkEntryPoint
  cases functions.find? (·.name.value == "main") with
  | none => exact quiet_report rfl
  | some main => exact .ite (fun _ => quiet_report rfl) fun _ => .pure fun s => .refl s

end Typing

theorem Program.Fills.globals {p p' : Program} (h : Program.Fills p p') :
    Typing.globals p' = Typing.globals p := by
  have hfunctions : p'.functions.map Typing.Function.symbol =
      p.functions.map Typing.Function.symbol := by
    refine Typing.map_eq_of_forall₂ (h.functions.imp fun f f' hf => ?_)
    simp [Typing.Function.symbol, Function.signature, hf.name, hf.parameters, hf.result]
  have hembeds : p'.embeds.map Typing.Embed.symbol = p.embeds.map Typing.Embed.symbol := by
    refine Typing.map_eq_of_forall₂ (h.embeds.imp fun e e' he => ?_)
    simp [Typing.Embed.symbol, he.name]
  rw [Typing.globals, Typing.globals, h.foreign, hfunctions, hembeds]

namespace Typing

open Lexical

theorem visits_analyze (isFile : String → Bool) (base : String) {p : Program} (hp : p.Tidy)
    (hdistinct : (p.functions.map (·.name.value)).Nodup) :
    Visits [] (Lexical.program (analyze isFile base .initial p).1) ⟨.empty, [], []⟩
      ⟨(analyze isFile base .initial p).2.symbols, (analyze isFile base .initial p).2.diagnostics,
        []⟩ := by
  have hfills := analyze_fills isFile base .initial p
  have hprogram : Performs (checkDeclarations (contextOf p) isFile base p
      (Registry.initial.registerRecords (p.records.map recordShape)).2) fun s p' s' =>
      Outermost s.symbols [] →
        Visits [] (p'.functions.flatMap (Lexical.function (types p) (Lexical.globals p))) s s' := by
    refine .bind (quiet_checkRecords p.records _) fun _ =>
      .bind (.forM_globals fun f hf => adds_declareFunction (hp.functions f hf).name) fun _ =>
      .bind (.forM_globals fun f hf => adds_declareForeign (hp.foreign f hf).name) fun _ =>
      .bind (.mapM_globals fun e he => adds_declareEmbed isFile base (hp.embeds e he)) fun embeds =>
      .bind (quiet_checkEntryPoint p.functions) fun _ =>
      .bind (visits_checkFunctions hp.functions hdistinct) fun functions => .pure ?_
    intro s₆ s₅ hfunctions s₄ hentry s₃ hembeds s₂ hforeign s₁ hdeclared s hrecords houter
    have hadds := (((hrecords.addsGlobals.append hdeclared).append hforeign).append
      hembeds).append hentry.addsGlobals
    obtain ⟨hvisits, houter'⟩ := hadds [] houter
    have hglobals : Outermost s₅.symbols (Lexical.globals p) := by
      simpa [Lexical.globals, Typing.globals, List.map_eq_flatMap] using houter'
    exact hvisits.append (hfunctions _ hglobals.answers fun f _ x hx =>
      not_under_of_isName (hglobals.names x hx))
  have hvisits := hprogram ⟨.empty, [], []⟩ ⟨fun x _ => rfl, by simp [SymbolTable.empty]⟩
  rw [Lexical.program, types, Lexical.globals, hfills.globals, hfills.records]
  exact ⟨hvisits.symbols, hvisits.problems, hvisits.declared⟩

end Typing

/-- Resolution by mangled names is lexical scoping. Every reference that the analysis comes to is
bound to the declaration that the frames around it give, and that declaration is what the table
holds under its mangled name; a missing variable is reported for those that have none, in their
order, and for no others. Without diagnostics the analysis comes to all references, and the
variables of a function have different mangled names. -/
theorem resolution_lexical {isFile : String → Bool} {base path text : String}
    (hdistinct : ((Parse.source path text).program.functions.map (·.name.value)).Nodup) :
    Program.Fills (Parse.source path text).program (analyzed isFile base path text).1 ∧
    (∀ r ∈ Lexical.program (analyzed isFile base path text).1, r.head.ty.isSome →
      r.head.Means r.meaning ∧
        ∀ m, r.meaning = some m →
          (analyzed isFile base path text).2.symbols.get? m.mangled = some m) ∧
    (analyzed isFile base path text).2.diagnostics.filter Typing.Diagnostic.isMissing =
      (Lexical.program (analyzed isFile base path text).1).filterMap
        (fun r => Typing.missing r.head r.meaning) ∧
    ((analyzed isFile base path text).2.diagnostics = [] →
      (∀ r ∈ Lexical.program (analyzed isFile base path text).1, r.head.ty.isSome) ∧
      ∀ f ∈ (analyzed isFile base path text).1.functions,
        ((f.stack.parameters ++ f.stack.locals).map (·.mangled)).Nodup) := by
  have htidy := Parse.source_program_tidy path text
  have hvisits := Typing.visits_analyze isFile base htidy hdistinct
  obtain ⟨ds, hds, hresolves⟩ := hvisits.problems
  have hds : (analyzed isFile base path text).2.diagnostics = ds := hds
  have huse : ∀ r ∈ Lexical.program (analyzed isFile base path text).1, r.use ∈
      (Lexical.program (analyzed isFile base path text).1).map Lexical.Reference.use :=
    fun r hr => List.mem_map_of_mem hr
  refine ⟨Typing.analyze_fills isFile base .initial _, fun r hr hty => ⟨?_, ?_⟩, ?_, fun hclean =>
    ⟨fun r hr => ?_, fun f hf => ?_⟩⟩
  · exact hresolves.means r.use (huse r hr) hty
  · exact hvisits.declared r hr
  · rw [hds, hresolves.missing, List.filterMap_map]
    rfl
  · exact hresolves.visited (hds ▸ hclean) r.use (huse r hr)
  · exact ((analyzed_programOk hclean).functions f hf).distinct

/-- A function that declares one name in several of its blocks. -/
def shadowing : String :=
  "fn f(int x) int {let int y = x if true {let int x = y mut y = x} else {let int x = 2} ret z}"
    ++ " fn g(int y) {for x from 0 until y {let int y = x}} fn main() {}"

theorem shadowing_names :
    (Parse.source "main.bz" shadowing).program.functions.map (·.name.value) =
      ["f", "g", "main"] := by
  decide +kernel

theorem resolution_lexical_shadowing :
    ((Parse.source "main.bz" shadowing).program.functions.map (·.name.value)).Nodup ∧
    ∀ r ∈ Lexical.program (analyzed (fun _ => false) "" "main.bz" shadowing).1,
      r.head.ty.isSome → r.head.Means r.meaning := by
  have hnames : ((Parse.source "main.bz" shadowing).program.functions.map
      (·.name.value)).Nodup := by
    rw [shadowing_names]
    decide
  refine ⟨hnames, fun r hr hty => ?_⟩
  exact ((resolution_lexical hnames).2.1 r hr hty).1

end RegionCompiler
