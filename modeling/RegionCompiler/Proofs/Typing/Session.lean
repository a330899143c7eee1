import RegionCompiler.Proofs.Scope.Reads
import RegionCompiler.Proofs.Typing.Soundness

/-! Programs that are analyzed one after the other, each on top of what the ones before it left.
Names of types are known as soon as a record has them, but a record with an error gets no layout.
Where the records of the earlier programs have their layouts, a program without problems of its own
is complete; otherwise layouts may be missing and nothing is reported. -/
namespace RegionCompiler.Typing

section Introductions

variable {ctx : Context} {α β : Type} {P Q : Symbol → Prop}

/-- Every symbol that a check declares has a property, whatever goes wrong. -/
def Introduces (P : Symbol → Prop) (m : Check α) : Prop :=
  Performs m fun s _ s' => ∃ new, s'.symbols.symbols = s.symbols.symbols ++ new ∧ ∀ x ∈ new, P x

namespace Introduces

variable {m : Check α}

theorem quiet (h : Performs m fun s _ s' => s'.symbols = s.symbols) : Introduces P m :=
  fun s => ⟨[], by rw [h s, List.append_nil], by simp⟩

theorem pure (a : α) : Introduces P (pure a : Check α) := .quiet fun _ => rfl

theorem report (d : Diagnostic) : Introduces P (report d) := .quiet fun _ => rfl

theorem settle (outcome : Except Diagnostic α) : Introduces P (settle outcome) := by
  cases outcome with
  | ok a => exact .pure _
  | error d => exact .quiet fun _ => rfl

theorem addLocal (v : StackVariable) : Introduces P (addLocal v) := .quiet fun _ => rfl

theorem env (ctx : Context) : Introduces P (env ctx) := .quiet fun _ => rfl

theorem bind {k : α → Check β} (hm : Introduces P m) (hk : ∀ a, Introduces P (k a)) :
    Introduces P (m >>= k) := by
  intro s
  obtain ⟨new, hsymbols, hnew⟩ := hm s
  obtain ⟨new', hsymbols', hnew'⟩ := hk (m s).1 (m s).2
  refine ⟨new ++ new', ?_, fun x hx => (List.mem_append.1 hx).elim (hnew x) (hnew' x)⟩
  rw [← List.append_assoc, ← hsymbols]
  exact hsymbols'

theorem mono (h : Introduces P m) (hPQ : ∀ x, P x → Q x) : Introduces Q m := by
  intro s
  obtain ⟨new, hsymbols, hnew⟩ := h s
  exact ⟨new, hsymbols, fun x hx => hPQ x (hnew x hx)⟩

theorem ite {c : Prop} [Decidable c] {n : Check α} (hm : Introduces P m) (hn : Introduces P n) :
    Introduces P (if c then m else n) := by
  split
  · exact hm
  · exact hn

theorem declare {x : Symbol} (h : P x) : Introduces P (declare x) := by
  intro s
  rcases s.symbols.declare_cases x with ⟨-, hok⟩ | ⟨existing, -, herror⟩
  · rw [declare_of_ok hok]
    exact ⟨[x], rfl, by simpa using h⟩
  · rw [declare_of_error herror]
    exact ⟨[], (List.append_nil _).symm, by simp⟩

theorem mapM {g : α → Check β} {l : List α} (h : ∀ a ∈ l, Introduces P (g a)) :
    Introduces P (l.mapM g) := by
  induction l with
  | nil => exact .pure _
  | cons a rest ih =>
    rw [List.mapM_cons]
    exact .bind (h a (by simp)) fun _ => .bind (ih fun b hb => h b (by simp [hb])) fun _ => .pure _

theorem forM {g : α → Check Unit} {l : List α} (h : ∀ a ∈ l, Introduces P (g a)) :
    Introduces P (l.forM g) := by
  induction l with
  | nil => exact .pure _
  | cons a rest ih => exact .bind (h a (by simp)) fun _ => ih fun b hb => h b (by simp [hb])

end Introduces

theorem introduces_checkExpr (scope : ScopePath) (hint : Ty) (e : Expr) :
    Introduces P (checkExpr ctx scope hint e) :=
  .bind (.env ctx) fun _ => .bind (.settle _) fun _ => .pure _

theorem introduces_checkExact (scope : ScopePath) (expected : Ty) (e : Expr) :
    Introduces P (checkExact ctx scope expected e) :=
  .bind (.env ctx) fun _ => .bind (.settle _) fun _ => .pure _

theorem introduces_declareType (ty : Located Ty) : Introduces P (declareType ctx ty) :=
  .bind (.env ctx) fun _ => .settle _

/-- The type is made from one of the names. -/
def Ty.MadeFrom (types : List String) (t : Ty) : Prop :=
  t.IsData ∧ ∃ name ∈ types, t.name? = some name

theorem Ty.MadeFrom.withModifier {types : List String} {t : Ty} (h : Ty.MadeFrom types t) :
    Ty.MadeFrom types (t.withModifier .pointer) := by
  cases t <;> exact h

theorem Declared.madeFrom {ty : Located Ty} (h : Declared ctx ty) (hd : ty.value.IsData) :
    Ty.MadeFrom ctx.types ty.value := by
  refine ⟨hd, ?_⟩
  unfold Declared checkTypeExists at h
  split at h
  · rename_i name hname
    split at h
    · rename_i hin
      exact ⟨name, List.contains_iff_mem.1 hin, hname⟩
    · cases h
  · cases h

/-- A variable of a function. Its type is made from one of the names, or that of a parameter. -/
structure IsVariable (types : List String) (f : Function) (x : Symbol) : Prop where
  kind : x.kind.isStack
  owned : Owned f.name.value x.mangled
  type : Ty.MadeFrom types x.ty ∨ ∃ q ∈ f.parameters, x.ty = q.ty.value

end Introductions

section Bodies

variable {ctx : Context} {f : Function} {scope : ScopePath} (hscope : scope.function = f.name.value)

include hscope in
theorem introduces_checkLet (span : Span) (allocate : Bool) {ty : Located Ty}
    (hd : ty.value.IsData) (name : Located String) (value : Expr) (mangled : Option String) :
    Introduces (IsVariable ctx.types f)
      (checkLet ctx scope span allocate ty name value mangled) := by
  unfold checkLet
  rcases declareType_cases ctx ty with ⟨hdeclared, hrun⟩ | ⟨d, hrun⟩
  · have hmade := hdeclared.madeFrom hd
    have htype : Ty.MadeFrom ctx.types
        (if allocate then ty.value.withModifier .pointer else ty.value) := by
      split
      · exact hmade.withModifier
      · exact hmade
    rw [hrun, pure_bind]
    refine .bind (introduces_checkExpr scope ty.value value) fun r =>
      .bind (.declare ⟨rfl, hscope ▸ owned_mangle scope _, .inl htype⟩) fun ok => ?_
    cases ok with
    | false => exact .pure _
    | true =>
      refine .bind (.addLocal _) fun _ => ?_
      cases r.2 with
      | none => exact .pure _
      | some actual => exact .ite (.bind (.report _) fun _ => .pure _) (.pure _)
  · rw [hrun, bind_assoc]
    refine .bind (.report d) fun _ => ?_
    rw [pure_bind]
    exact .pure _

theorem introduces_checkMut {P : Symbol → Prop} (scope : ScopePath) (span : Span)
    (target : Located Place) (value : Expr) :
    Introduces P (checkMut ctx scope span target value) := by
  refine .ite (.bind (.report _) fun _ => .pure _) (.bind (.env ctx) fun _ =>
    .bind (.settle _) fun r => ?_)
  cases r with
  | none => exact .pure _
  | some expected => exact .bind (introduces_checkExact scope expected value) fun _ => .pure _

theorem introduces_checkCall {P : Symbol → Prop} (scope : ScopePath) (span : Span) (value : Expr) :
    Introduces P (checkCall ctx scope span value) :=
  .ite (.bind (introduces_checkExpr scope _ value) fun _ => .pure _)
    (.bind (.report _) fun _ => .pure _)

theorem introduces_checkCollect {P : Symbol → Prop} (scope : ScopePath) (span : Span)
    (value : Expr) : Introduces P (checkCollect ctx scope span value) := by
  refine .bind (introduces_checkExpr scope _ value) fun r => ?_
  obtain ⟨checked, actual⟩ := r
  cases actual with
  | none => exact .pure _
  | some t => exact .ite (.bind (.report _) fun _ => .pure _) (.pure _)

theorem introduces_checkReturn {P : Symbol → Prop} (scope : ScopePath) (result : Located Ty)
    (span : Span) (value : Option Expr) :
    Introduces P (checkReturn ctx scope result span value) := by
  cases value with
  | none => exact .ite (.bind (.report _) fun _ => .pure _) (.pure _)
  | some value =>
    refine .ite (.bind (.report _) fun _ => .pure _)
      (.bind (introduces_checkExpr scope _ value) fun r => ?_)
    obtain ⟨checked, actual⟩ := r
    cases actual with
    | none => exact .pure _
    | some t => exact .ite (.bind (.report _) fun _ => .pure _) (.pure _)

theorem introduces_checkInLoop {P : Symbol → Prop} (inLoop : Bool) (span : Span)
    (keyword : String) : Introduces P (checkInLoop inLoop span keyword) :=
  .ite (.report _) (.pure _)

include hscope in
theorem introduces_declareIterator (hint : "int" ∈ ctx.types) (iterator : Located String) :
    Introduces (IsVariable ctx.types f) (declareIterator scope iterator) :=
  .bind (.declare ⟨rfl, hscope ▸ owned_mangle scope _, .inl ⟨trivial, "int", hint, rfl⟩⟩) fun _ =>
    .bind (.addLocal _) fun _ => .pure _

mutual
theorem introduces_checkStmt (hint : "int" ∈ ctx.types) (result : Located Ty) {scope : ScopePath}
    (hscope : scope.function = f.name.value) (inLoop : Bool) (counters : SegmentCounters) :
    (st : Stmt) → st.Tidy →
      Introduces (IsVariable ctx.types f) (checkStmt ctx result scope inLoop counters st)
  | .let_ span allocate ty name value mangled, h => by
    unfold checkStmt
    exact .bind (introduces_checkLet hscope span allocate h.1 name value mangled) fun _ => .pure _
  | .mut_ span target value, _ => by
    unfold checkStmt
    exact .bind (introduces_checkMut scope span target value) fun _ => .pure _
  | .call span value, _ => by
    unfold checkStmt
    exact .bind (introduces_checkCall scope span value) fun _ => .pure _
  | .collect span value, _ => by
    unfold checkStmt
    exact .bind (introduces_checkCollect scope span value) fun _ => .pure _
  | .return_ span value, _ => by
    unfold checkStmt
    exact .bind (introduces_checkReturn scope result span value) fun _ => .pure _
  | .break_ span, _ | .continue_ span, _ => by
    unfold checkStmt
    exact .bind (introduces_checkInLoop inLoop span _) fun _ => .pure _
  | .if_ span condition yes, h => by
    unfold checkStmt
    exact .bind (introduces_checkExact scope _ condition) fun _ =>
      .bind (introduces_checkBlock hint result (function_child hscope) inLoop yes h.2)
        fun _ => .pure _
  | .ifElse span condition yes no, h => by
    unfold checkStmt
    exact .bind (introduces_checkExact scope _ condition) fun _ =>
      .bind (introduces_checkBlock hint result (function_child hscope) inLoop yes h.2.1) fun _ =>
      .bind (introduces_checkBlock hint result (function_child hscope) inLoop no h.2.2)
        fun _ => .pure _
  | .while_ span condition body, h => by
    unfold checkStmt
    exact .bind (introduces_checkExact scope _ condition) fun _ =>
      .bind (introduces_checkBlock hint result (function_child hscope) true body h.2)
        fun _ => .pure _
  | .doWhile span body condition, h => by
    unfold checkStmt
    exact .bind (introduces_checkBlock hint result (function_child hscope) true body h.2) fun _ =>
      .bind (introduces_checkExact scope _ condition) fun _ => .pure _
  | .for_ span iterator start stop body mangled, h => by
    unfold checkStmt
    exact .bind (introduces_checkExact scope _ start) fun _ =>
      .bind (introduces_checkExact scope _ stop) fun _ =>
      .bind (introduces_declareIterator (function_child hscope) hint iterator) fun _ =>
      .bind (introduces_checkBlock hint result (function_child hscope) true body h.2.2.2)
        fun _ => .pure _
  | .block span body, h => by
    unfold checkStmt
    exact .bind (introduces_checkBlock hint result (function_child hscope) inLoop body h)
      fun _ => .pure _

theorem introduces_checkStmts (hint : "int" ∈ ctx.types) (result : Located Ty) {scope : ScopePath}
    (hscope : scope.function = f.name.value) (inLoop : Bool) (counters : SegmentCounters) :
    (statements : List Stmt) → Stmt.AllTidy statements →
      Introduces (IsVariable ctx.types f) (checkStmts ctx result scope inLoop counters statements)
  | [], _ => by
    unfold checkStmts
    exact .pure _
  | first :: rest, h => by
    unfold checkStmts
    exact .bind (introduces_checkStmt hint result hscope inLoop counters first h.1) fun r =>
      .bind (introduces_checkStmts hint result hscope inLoop r.2 rest h.2) fun _ => .pure _

theorem introduces_checkBlock (hint : "int" ∈ ctx.types) (result : Located Ty) {scope : ScopePath}
    (hscope : scope.function = f.name.value) (inLoop : Bool) :
    (b : Block) → b.Tidy → Introduces (IsVariable ctx.types f)
    (checkBlock ctx result scope inLoop b)
  | .mk _ _ statements, h => by
    unfold checkBlock
    exact .bind (introduces_checkStmts hint result hscope inLoop .zero statements h)
      fun _ => .pure _
end

theorem introduces_checkFunction (hint : "int" ∈ ctx.types) (hf : f.Tidy) :
    Introduces (IsVariable ctx.types f) (checkFunction ctx f) := by
  have hparameters : ∀ q ∈ f.parameters, Introduces (IsVariable ctx.types f)
      (checkParameter (ScopePath.ofFunction f.name.value) q) := fun q hq =>
    .bind (.declare ⟨rfl, owned_mangle (ScopePath.ofFunction f.name.value) _, .inr ⟨q, hq, rfl⟩⟩)
      fun _ => .pure _
  have hlast (vs : List StackVariable) (body : Block) : Introduces (IsVariable ctx.types f) (do
      let s ← get
      return { f with body := body, stack := ⟨vs, s.locals⟩ } : Check Function) :=
    .quiet fun _ => rfl
  refine .bind (.quiet fun _ => rfl) fun _ => .bind (.mapM hparameters) fun vs =>
    .bind (introduces_checkBlock hint f.result rfl false f.body hf.body) fun body => ?_
  exact .ite (.bind (.report _) fun _ => hlast vs body) (hlast vs body)

end Bodies

section Programs

variable {ctx : Context} {P : Symbol → Prop}

theorem introduces_discard (ty : Located Ty) :
    Introduces P (do let _ ← declareType ctx ty) :=
  .bind (introduces_declareType ty) fun _ => .pure _

theorem introduces_checkRecords (records : List Record) (errors : List (Nat × LayoutError)) :
    Introduces P (checkRecords ctx records errors) := by
  refine .bind (.forM fun r _ => .forM fun m _ => introduces_discard m.ty) fun _ =>
    .forM fun x _ => ?_
  dsimp only
  cases records[x.1]? with
  | none => exact .pure _
  | some r =>
    cases hd : recordDiagnostic records x.1 r.name x.2 with
    | none =>
      simp only [hd]
      exact .pure _
    | some d =>
      simp only [hd]
      exact .report d

theorem introduces_checkForeignParameters (parameters : List ForeignParameter) :
    Introduces P (checkForeignParameters ctx parameters) := by
  induction parameters with
  | nil => exact .pure _
  | cons q rest ih =>
    cases q with
    | typed ty name => exact .bind (introduces_declareType ty) fun _ => ih
    | variadic span =>
      unfold checkForeignParameters
      exact .ite (.bind (.report _) fun _ => ih) ih

theorem introduces_declareFunction (f : Function) (h : P (Function.symbol f)) :
    Introduces P (declareFunction ctx f) :=
  .bind (.forM fun q _ => introduces_discard q.ty) fun _ =>
    .bind (introduces_declareType f.result) fun _ => .bind (.declare h) fun _ => .pure _

theorem introduces_declareForeign (f : ForeignFunction) (h : P (ForeignFunction.symbol f)) :
    Introduces P (declareForeign ctx f) :=
  .bind (introduces_checkForeignParameters f.parameters) fun _ =>
    .bind (introduces_declareType f.result) fun _ => .bind (.declare h) fun _ => .pure _

theorem introduces_declareEmbed (isFile : String → Bool) (base : String) (e : Embed)
    (h : P (Embed.symbol e)) : Introduces P (declareEmbed isFile base e) :=
  .ite (.bind (.report _) fun _ => .bind (.declare h) fun _ => .pure _)
    (.bind (.declare h) fun _ => .pure _)

theorem introduces_checkEntryPoint (functions : List Function) :
    Introduces P (checkEntryPoint functions) := by
  unfold checkEntryPoint
  cases functions.find? (·.name.value == "main") with
  | none => exact .report _
  | some main => exact .ite (.report _) (.pure _)

/-- A symbol that a program declares, under some names of types. -/
def Declaration (types : List String) (p : Program) (x : Symbol) : Prop :=
  x ∈ globals p ∨ ∃ f ∈ p.functions, IsVariable types f x

theorem introduces_checkDeclarations (isFile : String → Bool) (base : String) {p : Program}
    (hp : p.Tidy) (hint : "int" ∈ ctx.types) (errors : List (Nat × LayoutError)) :
    Introduces (Declaration ctx.types p) (checkDeclarations ctx isFile base p errors) := by
  refine .bind (introduces_checkRecords p.records errors) fun _ =>
    .bind (.forM fun f hf => introduces_declareFunction f (.inl ?_)) fun _ =>
    .bind (.forM fun f hf => introduces_declareForeign f (.inl ?_)) fun _ =>
    .bind (.mapM fun e he => introduces_declareEmbed isFile base e (.inl ?_)) fun embeds =>
    .bind (introduces_checkEntryPoint p.functions) fun _ =>
    .bind (.mapM fun f hf => (introduces_checkFunction hint (hp.functions f hf)).mono fun x hx =>
      .inr ⟨f, hf, hx⟩) fun functions => .pure _
  · simp only [globals, List.mem_append, List.mem_map]
    exact .inl (.inl ⟨f, hf, rfl⟩)
  · simp only [globals, List.mem_append, List.mem_map]
    exact .inl (.inr ⟨f, hf, rfl⟩)
  · simp only [globals, List.mem_append, List.mem_map]
    exact .inr ⟨e, he, rfl⟩

end Programs

/-- What is known after some programs were analyzed one after the other. -/
def analyzeAll (isFile : String → Bool) (base : String) (programs : List Program) : Knowledge :=
  programs.foldl (fun k p => (analyze isFile base k p).2) .initial

def shapes (programs : List Program) : List RecordShape :=
  programs.flatMap fun p => p.records.map recordShape

/-- Whatever was wrong with the earlier programs, all that is known comes from them. -/
structure Knowledge.After (k : Knowledge) (earlier : List Program) : Prop where
  builtin : Registry.initial.Le k.layouts
  initial : initialTypes ⊆ k.types
  types : ∀ name ∈ k.types, name ∈ initialTypes ∨ ∃ p ∈ earlier, ∃ r ∈ p.records,
    r.name.value = name
  records : k.layouts.Sound (shapes earlier)
  symbols : ∀ x ∈ k.symbols.symbols, ∃ p ∈ earlier, Declaration k.types p x

/-- The records of a program, the variables, parameters and results of its functions and all of its
expressions have layouts. -/
structure Complete (layouts : Registry) (p : Program) : Prop where
  records : ∀ r ∈ p.records, ∃ l, layouts.get? r.name.value = some l
  frames : ∀ f ∈ p.functions, ∀ v ∈ f.stack.parameters ++ f.stack.locals,
    ∃ l, layouts.layoutOf v.ty = .ok l
  parameters : ∀ f ∈ p.functions, ∀ q ∈ f.parameters, ∃ l, layouts.layoutOf q.ty.value = .ok l
  results : ∀ f ∈ p.functions, ∃ l, layouts.layoutOf f.result.value = .ok l
  expressions : ∀ f ∈ p.functions, ∀ e, f.Mentions e →
    ∃ t, e.ty = some t ∧ t.isValid ∧ ∃ l, layouts.layoutOf t = .ok l

section Steps

variable {k : Knowledge} {earlier : List Program} {p : Program} {r s : Registry}

theorem Ty.MadeFrom.mono {types more : List String} {t : Ty} (h : Ty.MadeFrom types t)
    (hmore : types ⊆ more) : Ty.MadeFrom more t := by
  obtain ⟨hd, name, hin, hname⟩ := h
  exact ⟨hd, name, hmore hin, hname⟩

theorem Declaration.mono {types more : List String} {x : Symbol} (h : Declaration types p x)
    (hmore : types ⊆ more) : Declaration more p x := by
  refine h.imp_right fun ⟨f, hf, hx⟩ => ⟨f, hf, hx.kind, hx.owned, ?_⟩
  exact hx.type.imp_left fun h => h.mono hmore

theorem known_mono (h : r.Le s) : ∀ {t : Ty}, t.Known r → t.Known s
  | .base _, ht => h.contains ht
  | .pointer t, ht => known_mono (t := t) h ht
  | .array t _, ht => known_mono (t := t) h ht

theorem Settled.mono (h : Settled r p) (hle : r.Le s) : Settled s p where
  records x hx := hle.contains (h.records x hx)
  members x hx m hm := known_mono hle (h.members x hx m hm)
  functions f hf := ⟨fun q hq => known_mono hle ((h.functions f hf).1 q hq),
    known_mono hle (h.functions f hf).2⟩
  foreign f hf := ⟨fun q hq t ht => known_mono hle ((h.foreign f hf).1 q hq t ht),
    known_mono hle (h.foreign f hf).2⟩

theorem after_initial : Knowledge.initial.After [] where
  builtin := .refl _
  initial := List.Subset.refl _
  types _ h := .inl h
  records := Registry.initial_sound _
  symbols x hx := by simp [Knowledge.initial, SymbolTable.empty] at hx

theorem Knowledge.After.analyze (h : k.After earlier) (isFile : String → Bool) (base : String)
    (hp : p.Tidy) : (analyze isFile base k p).2.After (earlier ++ [p]) where
  builtin := h.builtin.trans Registry.registerRecords_le
  initial := List.Subset.trans h.initial (List.subset_append_left _ _)
  types := by
    intro name hname
    rcases List.mem_append.1 hname with hold | hrecord
    · refine (h.types name hold).imp_right ?_
      rintro ⟨q, hq, hr⟩
      exact ⟨q, List.mem_append_left _ hq, hr⟩
    · obtain ⟨r, hr, rfl⟩ := List.mem_map.1 hrecord
      exact .inr ⟨p, by simp, r, hr, rfl⟩
  records := by
    have hshapes : shapes (earlier ++ [p]) = shapes earlier ++ p.records.map recordShape := by
      simp [shapes]
    rw [hshapes]
    exact Registry.registerRecords_sound (h.records.mono (List.subset_append_left _ _))
      (List.subset_append_right _ _)
  symbols := by
    have htypes : k.types ⊆ (k.context p).types := List.subset_append_left _ _
    have hint : "int" ∈ (k.context p).types := htypes (h.initial (by decide))
    obtain ⟨new, hsymbols, hnew⟩ := @introduces_checkDeclarations (k.context p) isFile base p hp
      hint (k.layouts.registerRecords (p.records.map recordShape)).2 ⟨k.symbols, k.diagnostics, []⟩
    intro x hx
    have hx : x ∈ k.symbols.symbols ++ new := hsymbols ▸ hx
    rcases List.mem_append.1 hx with hx | hx
    · obtain ⟨q, hq, hdeclared⟩ := h.symbols x hx
      exact ⟨q, List.mem_append_left _ hq, hdeclared.mono htypes⟩
    · exact ⟨p, by simp, hnew x hx⟩

theorem after_analyzeAll (isFile : String → Bool) (base : String) {programs : List Program}
    (hprograms : ∀ p ∈ programs, p.Tidy) : (analyzeAll isFile base programs).After programs := by
  -- The induction is on the end of the list: each program is analyzed after all before it.
  induction programs using List.reverseRecOn with
  | nil => exact after_initial
  | append_singleton earlier p ih =>
    rw [analyzeAll, List.foldl_append]
    exact (ih fun q hq => hprograms q (by simp [hq])).analyze isFile base (hprograms p (by simp))

section Settled

variable (h : k.After earlier) (hsettled : ∀ q ∈ earlier, Settled r q)

include h hsettled

theorem Knowledge.After.members {name : String} {l : Layout} (hl : k.layouts.get? name = some l) :
    ∀ m ∈ l.members, m.ty.Known r := by
  intro m hm
  obtain ⟨shape, hshape, hmember⟩ := (h.records name l hl).1 m hm
  obtain ⟨q, hq, hshape⟩ := List.mem_flatMap.1 hshape
  obtain ⟨x, hx, rfl⟩ := List.mem_map.1 hshape
  obtain ⟨y, hy, heq⟩ := List.mem_map.1 hmember
  rw [← (Prod.mk.inj heq).2]
  exact (hsettled q hq).members x hx y hy

variable (hbuiltin : Registry.initial.Le r)

include hbuiltin

theorem Knowledge.After.contains : ∀ name ∈ k.types, r.contains name := by
  intro name hname
  rcases h.types name hname with hinitial | ⟨q, hq, x, hx, rfl⟩
  · exact hbuiltin.contains (initial_contains name hinitial)
  · exact (hsettled q hq).records x hx

/-- What was declared earlier has layouts now, and no variable is taken for a global. -/
theorem Knowledge.After.declarable : ∀ x ∈ k.symbols.symbols,
    Declarable r x.ty ∧ (x.kind.isStack → '$' ∈ x.mangled.toList) := by
  intro x hx
  obtain ⟨q, hq, hglobal | ⟨f, hf, hvariable⟩⟩ := h.symbols x hx
  · simp only [globals, List.mem_append, List.mem_map] at hglobal
    rcases hglobal with (⟨f, hf, rfl⟩ | ⟨f, hf, rfl⟩) | ⟨e, -, rfl⟩
    · exact ⟨declarable_signature ((hsettled q hq).functions f hf),
        by simp [Function.symbol, SymbolKind.isStack]⟩
    · exact ⟨declarable_foreignSignature ((hsettled q hq).foreign f hf),
        by simp [ForeignFunction.symbol, SymbolKind.isStack]⟩
    · exact ⟨.inl (Ty.known_bytes hbuiltin), by simp [Embed.symbol, SymbolKind.isStack]⟩
  · refine ⟨.inl ?_, fun _ => hvariable.owned.dollar_mem⟩
    rcases hvariable.type with ⟨hd, name, hin, hname⟩ | ⟨parameter, hparameter, hty⟩
    · exact Ty.known_of_name? (h.contains hsettled hbuiltin name hin) _ hd hname
    · rw [hty]
      exact ((hsettled q hq).functions f hf).1 parameter hparameter

end Settled

def Knowledge.decls (k : Knowledge) : Decls where
  layouts := k.layouts
  declares b t := ∃ x ∈ k.symbols.symbols, x.mangled = b.mangled ∧ x.kind = b.kind ∧ x.ty = t

/-- Where the earlier programs are settled, a program without problems of its own is complete, and
is settled as well. -/
theorem Knowledge.After.complete (h : k.After earlier)
    (hsettled : ∀ q ∈ earlier, Settled k.layouts q) (hp : p.Tidy) {isFile : String → Bool}
    {base : String} (hclean : (Typing.analyze isFile base k p).2.diagnostics = k.diagnostics) :
    Complete (Typing.analyze isFile base k p).2.layouts (Typing.analyze isFile base k p).1 ∧
      Settled (Typing.analyze isFile base k p).2.layouts p := by
  have hle : k.layouts.Le (k.context p).layouts := Registry.registerRecords_le
  have hchecked := (@clean_checkDeclarations (k.context p) isFile base p hp
    (k.layouts.registerRecords (p.records.map recordShape)).2).run
    ⟨k.symbols, k.diagnostics, []⟩ hclean
  obtain ⟨hctx, hnew⟩ := hchecked.settled hp h.builtin (h.contains hsettled h.builtin)
  refine ⟨?_, hnew⟩
  have hafter := h.analyze isFile base hp
  have hall : ∀ q ∈ earlier ++ [p], Settled (k.context p).layouts q := by
    intro q hq
    rcases List.mem_append.1 hq with hq | hq
    · exact (hsettled q hq).mono hle
    · rw [List.mem_singleton.1 hq]
      exact hnew
  -- The table at the end declares what every function refers to.
  have hdeclarable := hafter.declarable hall hctx.builtin
  have hsound : (Typing.analyze isFile base k p).2.decls.Sound := by
    refine Decls.sound_of_declarable hctx.builtin (fun hl => hafter.members hall hl) ?_
    rintro b t ⟨x, hx, -, -, rfl⟩
    exact (hdeclarable x hx).1
  obtain ⟨mid, -, hfunctions⟩ := hchecked.functions
  have hbodies : ∀ f' ∈ (Typing.analyze isFile base k p).1.functions, ∃ f ∈ p.functions,
      f'.parameters = f.parameters ∧ f'.result = f.result ∧
      (∀ v ∈ f'.stack.parameters ++ f'.stack.locals, v.ty.Known (k.context p).layouts) ∧
      BlockOk (Typing.analyze isFile base k p).2.decls f.result.value false f'.body := by
    intro f' hf'
    obtain ⟨f, hf, s₁, s₂, hf', hsub⟩ := hfunctions.checked f' hf'
    have hready : Ready (k.context p) f := ⟨hctx, (hnew.functions f hf).1, (hnew.functions f hf).2⟩
    refine ⟨f, hf, hf'.parameters, hf'.result, fun v hv => ?_, hf'.body hready _ ?_⟩
    · obtain ⟨own, -, hstack, hown⟩ := hf'.own
      rw [hstack] at hv
      obtain ⟨x, hx, rfl⟩ := List.mem_map.1 hv
      exact (hown x hx).2.2 hready
    · exact ⟨rfl, hsound, hctx.types, fun x hx => (hdeclarable x (hsub hx)).2,
        fun x hx _ => ⟨x, hsub hx, rfl, rfl, rfl⟩⟩
  constructor
  case records => exact fun r hr => Option.isSome_iff_exists.1 (hnew.records r hr)
  case frames =>
    intro f' hf' v hv
    obtain ⟨f, -, -, -, hknown, -⟩ := hbodies f' hf'
    exact (hknown v hv).layoutOf
  case parameters =>
    intro f' hf' q hq
    obtain ⟨f, hf, hparameters, -⟩ := hbodies f' hf'
    exact ((hnew.functions f hf).1 q (hparameters ▸ hq)).layoutOf
  case results =>
    intro f' hf'
    obtain ⟨f, hf, -, hresult, -⟩ := hbodies f' hf'
    rw [hresult]
    exact (hnew.functions f hf).2.layoutOf
  case expressions =>
    intro f' hf' e he
    obtain ⟨f, -, -, -, -, hbody⟩ := hbodies f' hf'
    obtain ⟨t, ht⟩ := hbody.mentions he
    have hknown := ht.known hsound
    exact ⟨t, ht.ty_eq, hknown.isValid, hknown.layoutOf⟩

theorem analyze_diagnostics (isFile : String → Bool) (base : String) (k : Knowledge)
    (hp : p.Tidy) : ∃ ds, (Typing.analyze isFile base k p).2.diagnostics = k.diagnostics ++ ds :=
  (@clean_checkDeclarations (k.context p) isFile base p hp
    (k.layouts.registerRecords (p.records.map recordShape)).2).honest ⟨k.symbols, k.diagnostics, []⟩

/-- A step of a session is complete if it adds no diagnostic and the programs before it are settled,
whatever else was wrong with them. Without the second condition it need not be: the names of all
earlier records are known, and an unknown type in a record is not reported where its name is. -/
theorem session_complete {isFile : String → Bool} {base : String} {earlier : List Program}
    {p : Program} (hearlier : ∀ q ∈ earlier, q.Tidy) (hp : p.Tidy)
    (hsettled : ∀ q ∈ earlier, Settled (analyzeAll isFile base earlier).layouts q)
    (hclean : (Typing.analyze isFile base (analyzeAll isFile base earlier) p).2.diagnostics =
      (analyzeAll isFile base earlier).diagnostics) :
    Complete (Typing.analyze isFile base (analyzeAll isFile base earlier) p).2.layouts
        (Typing.analyze isFile base (analyzeAll isFile base earlier) p).1 ∧
      ∀ q ∈ earlier ++ [p],
        Settled (Typing.analyze isFile base (analyzeAll isFile base earlier) p).2.layouts q := by
  have hafter := after_analyzeAll isFile base hearlier
  obtain ⟨hcomplete, hnew⟩ := hafter.complete hsettled hp hclean
  refine ⟨hcomplete, fun q hq => ?_⟩
  rcases List.mem_append.1 hq with hq | hq
  · exact (hsettled q hq).mono Registry.registerRecords_le
  · rw [List.mem_singleton.1 hq]
    exact hnew

def read (text : String) : Program := (Parse.source "main.bz" text).program

theorem read_tidy (text : String) : (read text).Tidy := Parse.source_program_tidy "main.bz" text

/-- What a text leaves, and what a second text leaves on top of it. -/
def first (text : String) : Knowledge := analyzeAll (fun _ => false) "" [read text]

def second (library text : String) : Program × Knowledge :=
  Typing.analyze (fun _ => false) "" (first library) (read text)

/-- Whether the second of two texts adds no diagnostic. -/
def addsNone (library text : String) : Bool :=
  (second library text).2.diagnostics.length == (first library).diagnostics.length

theorem clean_of_addsNone {library text : String} (h : addsNone library text) :
    (second library text).2.diagnostics = (first library).diagnostics := by
  obtain ⟨ds, hds⟩ := analyze_diagnostics (fun _ => false) "" (first library) (read_tidy text)
  have hds : (second library text).2.diagnostics = (first library).diagnostics ++ ds := hds
  have hlength := eq_of_beq h
  rw [hds, List.length_append] at hlength
  rw [hds, List.eq_nil_of_length_eq_zero (by omega : ds.length = 0), List.append_nil]

/-- Whether a program has settled records and nothing else. -/
def hasSettledRecords (layouts : Registry) (p : Program) : Bool :=
  p.functions.isEmpty && p.foreign.isEmpty && p.records.all fun r =>
    layouts.contains r.name.value && r.members.all fun m => m.ty.value.name?.any layouts.contains

theorem settled_of_hasSettledRecords (hp : p.Tidy) (h : hasSettledRecords r p) : Settled r p := by
  simp only [hasSettledRecords, Bool.and_eq_true, List.isEmpty_iff, List.all_eq_true] at h
  obtain ⟨⟨hfunctions, hforeign⟩, hrecords⟩ := h
  refine ⟨fun x hx => (hrecords x hx).1, fun x hx m hm => ?_, by simp [hfunctions],
    by simp [hforeign]⟩
  obtain ⟨name, hname, hcontains⟩ := (Option.any_eq_true ..).1 ((hrecords x hx).2 m hm)
  exact Ty.known_of_name? hcontains _ (hp.records x hx m hm) hname

/-- A record, and a program that uses it. -/
def library : String := "type A \x7b int x \x7d"

def client : String :=
  "type C \x7b A a \x7d fn f(C c) int \x7b ret c.a.x \x7d fn main() \x7b \x7d"

theorem client_addsNone : addsNone library client = true := by decide +kernel

theorem library_settled :
    hasSettledRecords (first library).layouts (read library) = true := by decide +kernel

theorem session_complete_client :
    (second library client).2.diagnostics = (first library).diagnostics ∧
    (∀ q ∈ [read library], Settled (first library).layouts q) ∧
    Complete (second library client).2.layouts (second library client).1 := by
  have htidy : ∀ q ∈ [read library], q.Tidy := List.forall_mem_singleton.2 (read_tidy library)
  have hsettled : ∀ q ∈ [read library], Settled (first library).layouts q :=
    List.forall_mem_singleton.2 (settled_of_hasSettledRecords (read_tidy library) library_settled)
  have hclean := clean_of_addsNone client_addsNone
  exact ⟨hclean, hsettled, (session_complete htidy (read_tidy client) hsettled hclean).1⟩

/-- A record with a member of unknown type. Its name is known all the same. -/
def brokenLibrary : String := "type A \x7b B b \x7d"

def misledClient : String := "type C \x7b A a \x7d fn main() \x7b \x7d"

theorem misledClient_addsNone : addsNone brokenLibrary misledClient = true := by decide +kernel

theorem misledClient_missing : ((read misledClient).records.any fun r =>
    !(second brokenLibrary misledClient).2.layouts.contains r.name.value) = true := by
  decide +kernel

/-- The record of the second program has no layout, and nothing is reported. -/
theorem session_incomplete :
    (second brokenLibrary misledClient).2.diagnostics = (first brokenLibrary).diagnostics ∧
    ∃ r ∈ (read misledClient).records,
      (second brokenLibrary misledClient).2.layouts.get? r.name.value = none := by
  obtain ⟨r, hr, hmissing⟩ := List.any_eq_true.1 misledClient_missing
  exact ⟨clean_of_addsNone misledClient_addsNone, r, hr,
    by simpa [Registry.contains] using hmissing⟩

end Steps

end RegionCompiler.Typing
