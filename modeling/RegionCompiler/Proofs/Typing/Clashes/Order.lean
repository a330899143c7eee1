import RegionCompiler.Proofs.Parse.Sites
import RegionCompiler.Proofs.Typing.Clashes.Silence

/-! Declarations of one kind are met in the order of the tree. A name that is taken is taken by a
symbol from before or by one from an earlier place. -/
namespace RegionCompiler.Typing

/-- The report on a symbol whose name another one has. -/
def taken (x y : Symbol) : Diagnostic :=
  ⟨x.span, .alreadyExists x.name, [⟨y.span, .firstDeclared y.name⟩]⟩

/-- A symbol at one of the places is refused, because its name is that of a symbol of the table or
of one at an earlier place. -/
def Collides (P : Symbol → Prop) (sites : List Span) (t : SymbolTable) (d : Diagnostic) : Prop :=
  ∃ x y before after, d = taken x y ∧ P x ∧ y.mangled = x.mangled ∧
    sites = before ++ x.span :: after ∧ (y ∈ t.symbols ∨ P y ∧ y.span ∈ before)

/-- Symbols with a property are declared at the places, one after the other. -/
structure Entered (P : Symbol → Prop) (sites : List Span) (s s' : Progress) : Prop where
  symbols : ∃ new, s'.symbols.symbols = s.symbols.symbols ++ new ∧
    ∀ x ∈ new, P x ∧ x.span ∈ sites
  problems : ∃ ds, s'.diagnostics = s.diagnostics ++ ds ∧
    ∀ d ∈ ds, d.isClash → Collides P sites s.symbols d

def Enters {α : Type} (P : Symbol → Prop) (sites : List Span) (m : Check α) : Prop :=
  Performs m fun s _ s' => Entered P sites s s'

section Combinators

variable {α β : Type} {P : Symbol → Prop} {sites others : List Span} {s s' s'' : Progress}

theorem Collides.later {t : SymbolTable} {d : Diagnostic} (h : Collides P sites t d) :
    Collides P (sites ++ others) t d := by
  obtain ⟨x, y, before, after, hd, hx, hname, rfl, hy⟩ := h
  exact ⟨x, y, before, after ++ others, hd, hx, hname, by simp, hy⟩

theorem Entered.append (h : Entered P sites s s') (h' : Entered P others s' s'') :
    Entered P (sites ++ others) s s'' := by
  obtain ⟨new, hsymbols, hnew⟩ := h.symbols
  obtain ⟨new', hsymbols', hnew'⟩ := h'.symbols
  obtain ⟨ds, hds, hclash⟩ := h.problems
  obtain ⟨ds', hds', hclash'⟩ := h'.problems
  constructor
  case symbols =>
    refine ⟨new ++ new', by rw [hsymbols', hsymbols, List.append_assoc], fun x hx => ?_⟩
    rcases List.mem_append.1 hx with hx | hx
    · exact ⟨(hnew x hx).1, List.mem_append_left _ (hnew x hx).2⟩
    · exact ⟨(hnew' x hx).1, List.mem_append_right _ (hnew' x hx).2⟩
  case problems =>
    refine ⟨ds ++ ds', by rw [hds', hds, List.append_assoc], fun d hd hclashes => ?_⟩
    rcases List.mem_append.1 hd with hd | hd
    · exact (hclash d hd hclashes).later
    · obtain ⟨x, y, before, after, hd, hx, hname, rfl, hy⟩ := hclash' d hd hclashes
      refine ⟨x, y, sites ++ before, after, hd, hx, hname, by simp, ?_⟩
      rw [hsymbols, List.mem_append, or_assoc] at hy
      refine hy.imp_right ?_
      rintro (hy | ⟨hPy, hy⟩)
      · exact ⟨(hnew y hy).1, List.mem_append_left _ (hnew y hy).2⟩
      · exact ⟨hPy, List.mem_append_right _ hy⟩

theorem Inert.enters {m : Check α} (h : Inert (fun _ => False) m) (sites : List Span) :
    Enters P sites m := by
  intro s
  obtain ⟨hsymbols, ds, hds, hnone⟩ := h s
  exact ⟨⟨[], by rw [hsymbols, List.append_nil], nofun⟩,
    ⟨ds, hds, fun d hd hclash => (hnone d hd hclash).elim⟩⟩

namespace Enters

variable {m n : Check α}

theorem pure (a : α) (sites : List Span) : Enters P sites (pure a : Check α) :=
  Inert.enters (.pure a) sites

theorem bind {k : α → Check β} (hm : Enters P sites m) (hk : ∀ a, Enters P others (k a)) :
    Enters P (sites ++ others) (m >>= k) :=
  fun s => (hm s).append (hk (m s).1 (m s).2)

theorem after {k : α → Check β} (hm : Inert (fun _ => False) m) (hk : ∀ a, Enters P sites (k a)) :
    Enters P sites (m >>= k) :=
  bind (hm.enters []) hk

theorem andThen {k : α → Check β} (hm : Enters P sites m)
    (hk : ∀ a, Inert (fun _ => False) (k a)) : Enters P sites (m >>= k) := by
  have hboth := hm.bind fun a => (hk a).enters []
  rwa [List.append_nil] at hboth

theorem ite {c : Prop} [Decidable c] (hm : Enters P sites m) (hn : Enters P sites n) :
    Enters P sites (if c then m else n) := by
  split
  · exact hm
  · exact hn

theorem declare {x : Symbol} (hx : P x) : Enters P [x.span] (declare x) := by
  intro s
  rcases s.symbols.declare_cases x with ⟨-, hok⟩ | ⟨y, hy, herror⟩
  · rw [declare_of_ok hok]
    exact ⟨⟨[x], rfl, by simpa using hx⟩, ⟨[], (List.append_nil _).symm, nofun⟩⟩
  · rw [declare_of_error herror]
    obtain ⟨hmem, hname⟩ := SymbolTable.mem_of_get? hy
    refine ⟨⟨[], (List.append_nil _).symm, nofun⟩, ⟨[taken x y], rfl, fun d hd _ => ?_⟩⟩
    exact ⟨x, y, [], [], List.mem_singleton.1 hd, hx, hname, rfl, .inl hmem⟩

theorem mapM {g : α → Check β} {place : α → List Span} {l : List α}
    (h : ∀ a ∈ l, Enters P (place a) (g a)) : Enters P (l.flatMap place) (l.mapM g) := by
  induction l with
  | nil => exact .pure [] []
  | cons a rest ih =>
    obtain ⟨ha, hrest⟩ := List.forall_mem_cons.1 h
    rw [List.mapM_cons]
    exact ha.bind fun _ => (ih hrest).andThen fun _ => .pure _

theorem forM {g : α → Check Unit} {place : α → List Span} {l : List α}
    (h : ∀ a ∈ l, Enters P (place a) (g a)) : Enters P (l.flatMap place) (l.forM g) := by
  induction l with
  | nil => exact .pure () []
  | cons a rest ih =>
    obtain ⟨ha, hrest⟩ := List.forall_mem_cons.1 h
    exact ha.bind fun _ => ih hrest

end Enters

end Combinators

/-! ### Bodies -/

/-- A symbol that is put under the path of a scope. -/
def IsScoped (x : Symbol) : Prop := '$' ∈ x.mangled.toList

theorem isScoped_mangle (scope : ScopePath) (name : String) :
    '$' ∈ (scope.mangle name).toList :=
  (owned_mangle scope name).dollar_mem

section Bodies

variable {ctx : Context}

theorem enters_checkLet (scope : ScopePath) (span : Span) (allocate : Bool) (ty : Located Ty)
    (name : Located String) (value : Expr) (mangled : Option String) :
    Enters IsScoped [name.span] (checkLet ctx scope span allocate ty name value mangled) := by
  refine .after (inert_declareType ty) fun declared => ?_
  cases declared with
  | none => exact .pure _ _
  | some _ =>
    refine .after (inert_checkExpr ty.value value) fun (checked, actual) => ?_
    refine (Enters.declare (isScoped_mangle scope name.value)).andThen fun ok =>
      .ite (.bind (.addLocal _) fun _ => ?_) (.pure _)
    cases actual with
    | none => exact .pure _
    | some t => exact .ite (.bind (.complain _ rfl _) fun _ => .pure _) (.pure _)

theorem enters_declareIterator (scope : ScopePath) (iterator : Located String) :
    Enters IsScoped [iterator.span] (declareIterator scope iterator) :=
  (Enters.declare (isScoped_mangle scope iterator.value)).andThen fun _ =>
    .bind (.addLocal _) fun _ => .pure _

mutual
theorem enters_checkStmt (result : Located Ty) (scope : ScopePath) (inLoop : Bool)
    (counters : SegmentCounters) :
    (st : Stmt) → Enters IsScoped st.sites (checkStmt ctx result scope inLoop counters st)
  | .let_ span allocate ty name value mangled => by
    unfold checkStmt
    exact (enters_checkLet scope span allocate ty name value mangled).andThen fun _ => .pure _
  | .mut_ span target value => by
    unfold checkStmt
    exact Inert.enters (.bind (inert_checkMut span target value) fun _ => .pure _) _
  | .call span value => by
    unfold checkStmt
    exact Inert.enters (.bind (inert_checkCall span value) fun _ => .pure _) _
  | .collect span value => by
    unfold checkStmt
    exact Inert.enters (.bind (inert_checkCollect span value) fun _ => .pure _) _
  | .return_ span value => by
    unfold checkStmt
    exact Inert.enters (.bind (inert_checkReturn result span value) fun _ => .pure _) _
  | .break_ span | .continue_ span => by
    unfold checkStmt
    exact Inert.enters (.bind (inert_checkInLoop inLoop span _) fun _ => .pure _) _
  | .if_ span condition yes => by
    unfold checkStmt
    exact .after (inert_checkExact Ty.bool condition) fun _ =>
      (enters_checkBlock result _ inLoop yes).andThen fun _ => .pure _
  | .ifElse span condition yes no => by
    unfold checkStmt
    exact .after (inert_checkExact Ty.bool condition) fun _ =>
      (enters_checkBlock result _ inLoop yes).bind fun _ =>
      (enters_checkBlock result _ inLoop no).andThen fun _ => .pure _
  | .while_ span condition body => by
    unfold checkStmt
    exact .after (inert_checkExact Ty.bool condition) fun _ =>
      (enters_checkBlock result _ true body).andThen fun _ => .pure _
  | .doWhile span body condition => by
    unfold checkStmt
    exact (enters_checkBlock result _ true body).andThen fun _ =>
      .bind (inert_checkExact Ty.bool condition) fun _ => .pure _
  | .for_ span iterator start stop body _ => by
    unfold checkStmt
    exact .after (inert_checkExact Ty.int start) fun _ =>
      .after (inert_checkExact Ty.int stop) fun _ =>
      (enters_declareIterator _ iterator).bind fun _ =>
      (enters_checkBlock result _ true body).andThen fun _ => .pure _
  | .block span body => by
    unfold checkStmt
    exact (enters_checkBlock result _ inLoop body).andThen fun _ => .pure _

theorem enters_checkStmts (result : Located Ty) (scope : ScopePath) (inLoop : Bool)
    (counters : SegmentCounters) : (statements : List Stmt) → Enters IsScoped
      (Stmt.allSites statements) (checkStmts ctx result scope inLoop counters statements)
  | [] => by
    unfold checkStmts
    exact .pure [] _
  | first :: rest => by
    unfold checkStmts
    exact (enters_checkStmt result scope inLoop counters first).bind fun r =>
      (enters_checkStmts result scope inLoop r.2 rest).andThen fun _ => .pure _

theorem enters_checkBlock (result : Located Ty) (scope : ScopePath) (inLoop : Bool) :
    (b : Block) → Enters IsScoped b.sites (checkBlock ctx result scope inLoop b)
  | .mk _ _ statements => by
    unfold checkBlock
    exact (enters_checkStmts result scope inLoop .zero statements).andThen fun _ => .pure _
end

theorem enters_checkFunction (f : Function) :
    Enters IsScoped f.sites (checkFunction ctx f) := by
  have hstart : Inert (fun _ => False) (modify fun s => { s with locals := [] } : Check Unit) :=
    fun s => ⟨rfl, [], (List.append_nil s.diagnostics).symm, nofun⟩
  have hlast (body : Block) (vs : List StackVariable) : Inert (fun _ => False) (do
      let s ← get
      return { f with body, stack := ⟨vs, s.locals⟩ } : Check Function) :=
    fun s => ⟨rfl, [], (List.append_nil s.diagnostics).symm, nofun⟩
  have hparameters : Enters IsScoped (f.parameters.map (·.name.span))
      (f.parameters.mapM (checkParameter (.ofFunction f.name.value))) := by
    rw [List.map_eq_flatMap]
    refine .mapM fun p _ => ?_
    exact (Enters.declare (isScoped_mangle _ p.name.value)).andThen fun _ => .pure _
  refine .after hstart fun _ => hparameters.bind fun vs => ?_
  refine (enters_checkBlock f.result _ false f.body).andThen fun body => ?_
  exact .ite (.bind (.complain _ rfl _) fun _ => hlast body vs) (hlast body vs)

end Bodies

/-! ### Declarations outside of bodies -/

section Globals

variable {ctx : Context}

theorem enters_declareFunctions (functions : List Function) :
    Enters (· ∈ functions.map Function.symbol) (functions.map (·.name.span))
      (functions.forM (declareFunction ctx)) := by
  rw [List.map_eq_flatMap (f := fun x : Function => x.name.span)]
  refine .forM fun f hf => .after (.forM fun p _ => inert_discard p.ty) fun _ => ?_
  refine .after (inert_declareType f.result) fun _ => ?_
  exact (Enters.declare (List.mem_map_of_mem (f := Function.symbol) hf)).andThen fun _ => .pure ()

theorem enters_declareForeigns (functions : List ForeignFunction) :
    Enters (· ∈ functions.map ForeignFunction.symbol) (functions.map (·.name.span))
      (functions.forM (declareForeign ctx)) := by
  rw [List.map_eq_flatMap (f := fun x : ForeignFunction => x.name.span)]
  refine .forM fun f hf => .after (inert_checkForeignParameters f.parameters) fun _ => ?_
  refine .after (inert_declareType f.result) fun _ => ?_
  exact (Enters.declare (List.mem_map_of_mem (f := ForeignFunction.symbol) hf)).andThen
    fun _ => .pure ()

theorem enters_declareEmbeds (isFile : String → Bool) (base : String) (embeds : List Embed) :
    Enters (· ∈ embeds.map Embed.symbol) (embeds.map (·.name.span))
      (embeds.mapM (declareEmbed isFile base)) := by
  rw [List.map_eq_flatMap (f := fun x : Embed => x.name.span)]
  refine .mapM fun e he => ?_
  have hdeclare (e' : Embed) : Enters (· ∈ embeds.map Embed.symbol) [e.name.span]
      (do let _ ← declare (Embed.symbol e); return e') :=
    (Enters.declare (List.mem_map_of_mem (f := Embed.symbol) he)).andThen fun _ => .pure e'
  exact .ite (.after (.complain _ rfl _) fun _ => hdeclare _) (hdeclare _)

end Globals

end RegionCompiler.Typing
