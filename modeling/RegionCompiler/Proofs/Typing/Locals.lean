import RegionCompiler.Proofs.Typing.Infer

/-! What checking the body of a function adds to the declarations. Diagnostics are never taken
back; while there are none, every new symbol is a local of the function, under a mangled name that
starts with that of the function. -/
namespace RegionCompiler

def Owned (function mangled : String) : Prop := function.toList ++ ['$'] <+: mangled.toList

theorem Owned.dollar_mem {f m : String} (h : Owned f m) : '$' ∈ m.toList :=
  h.subset (by simp)

theorem Owned.takeWhile {f m : String} (h : Owned f m) (hf : IsName f) :
    m.toList.takeWhile (· != '$') = f.toList := by
  obtain ⟨rest, hrest⟩ := h
  rw [← hrest, List.append_assoc, List.takeWhile_append_of_pos]
  · simp
  · intro c hc
    simp only [bne_iff_ne, ne_eq]
    rintro rfl
    exact hf hc

/-- Functions with different names share no mangled names. -/
theorem Owned.unique {f g m : String} (hf : Owned f m) (hg : Owned g m) (hfn : IsName f)
    (hgn : IsName g) : f = g :=
  String.toList_inj.1 ((hf.takeWhile hfn).symm.trans (hg.takeWhile hgn))

theorem owned_mangleIn (f : String) (blocks : List String) (name : String) :
    Owned f (ScopePath.mangleIn (f :: blocks) name) := by
  refine ⟨(String.join (blocks.map (· ++ "$")) ++ name).toList, ?_⟩
  simp [ScopePath.mangleIn, String.join_cons, String.toList_append, List.append_assoc]

theorem owned_mangle (scope : ScopePath) (name : String) :
    Owned scope.function (scope.mangle name) :=
  owned_mangleIn _ _ _

theorem owned_candidates {scope : ScopePath} {name m : String} (h : m ∈ scope.candidates name) :
    Owned scope.function m := by
  obtain ⟨n, -, rfl⟩ := List.mem_map.1 h
  exact owned_mangleIn _ _ _

theorem function_child {scope : ScopePath} {f : String} {kind : SegmentKind} {index : Nat}
    (h : scope.function = f) : (scope.child kind index).function = f := h

theorem SymbolTable.mem_of_get? {t : SymbolTable} {m : String} {s : Symbol}
    (h : t.get? m = some s) : s ∈ t.symbols ∧ s.mangled = m :=
  ⟨List.mem_of_find?_eq_some h, by simpa using List.find?_some h⟩

theorem SymbolTable.resolve_some {t : SymbolTable} {scope : ScopePath} {name : String} {s : Symbol}
    (h : t.resolve scope name = some s) :
    s ∈ t.symbols ∧ (Owned scope.function s.mangled ∨ s.mangled = name) := by
  obtain ⟨m, hm, hget⟩ := List.exists_of_findSome?_eq_some h
  obtain ⟨hs, rfl⟩ := SymbolTable.mem_of_get? hget
  refine ⟨hs, ?_⟩
  rcases List.mem_append.1 hm with hm | hm
  · exact .inl (owned_candidates hm)
  · exact .inr (by simpa using hm)

def Symbol.variable (s : Symbol) : StackVariable := ⟨s.ty, s.mangled, none⟩

/-- Mangled names are declared once. -/
def SymbolTable.Distinct (t : SymbolTable) : Prop := (t.symbols.map (·.mangled)).Nodup

theorem SymbolTable.declare_ok {t u : SymbolTable} {s : Symbol} (h : t.declare s = .ok u) :
    u.symbols = t.symbols ++ [s] ∧ (t.Distinct → u.Distinct) := by
  unfold SymbolTable.declare at h
  split at h
  · cases h
  · rename_i hnone
    cases h
    refine ⟨rfl, fun hd => ?_⟩
    have hnew : ∀ x ∈ t.symbols, x.mangled ≠ s.mangled := by
      simpa [SymbolTable.get?] using hnone
    unfold SymbolTable.Distinct
    rw [List.map_append, List.nodup_append]
    refine ⟨hd, by simp, ?_⟩
    intro a ha b hb
    obtain ⟨x, hx, rfl⟩ := List.mem_map.1 ha
    obtain rfl : b = s.mangled := by simpa using hb
    exact hnew x hx

namespace Typing

variable {ctx : Context} {f : String} {α β : Type}

/-- A check that only adds diagnostics. A run that adds none relates what it starts from to what it
gives and leaves. -/
structure Clean (m : Check α) (R : Progress → α → Progress → Prop) : Prop where
  honest : ∀ s, ∃ ds, (m s).2.diagnostics = s.diagnostics ++ ds
  run : ∀ s, (m s).2.diagnostics = s.diagnostics → R s (m s).1 (m s).2

namespace Clean

variable {m : Check α} {R S : Progress → α → Progress → Prop}

theorem mono (h : Clean m R) (hRS : ∀ s a s', R s a s' → S s a s') : Clean m S :=
  { h with run := fun s hs => hRS _ _ _ (h.run s hs) }

theorem pure {a : α} (h : ∀ s, R s a s) : Clean (pure a) R where
  honest _ := ⟨[], (List.append_nil _).symm⟩
  run s _ := h s

theorem bind {k : α → Check β} {T : Progress → β → Progress → Prop} (hm : Clean m R)
    (hk : ∀ a, Clean (k a) fun s' b s'' => ∀ s, R s a s' → T s b s'') : Clean (m >>= k) T where
  honest s := by
    obtain ⟨ds, hds⟩ := hm.honest s
    obtain ⟨ds', hds'⟩ := (hk (m s).1).honest (m s).2
    refine ⟨ds ++ ds', ?_⟩
    rw [← List.append_assoc, ← hds]
    exact hds'
  run s h := by
    obtain ⟨ds, hds⟩ := hm.honest s
    obtain ⟨ds', hds'⟩ := (hk (m s).1).honest (m s).2
    have hlast : (k (m s).1 (m s).2).2.diagnostics = s.diagnostics := h
    have hfirst : (m s).2.diagnostics = s.diagnostics := by
      rw [hds', hds, List.append_assoc, List.append_right_eq_self, List.append_eq_nil_iff] at hlast
      rw [hds, hlast.1, List.append_nil]
    exact (hk (m s).1).run (m s).2 (hlast.trans hfirst.symm) s (hm.run s hfirst)

theorem ite {c : Prop} [Decidable c] {n : Check α} (hm : c → Clean m R)
    (hn : ¬c → Clean n R) : Clean (if c then m else n) R := by
  split
  · exact hm ‹_›
  · exact hn ‹_›

theorem report (d : Diagnostic) : Clean (report d) fun _ _ _ => False where
  honest _ := ⟨[d], rfl⟩
  run s h := by
    have hne : s.diagnostics ++ [d] = s.diagnostics := h
    simp at hne

theorem report_bind (d : Diagnostic) {k : Unit → Check α}
    (hk : ∀ s, ∃ ds, (k () s).2.diagnostics = s.diagnostics ++ ds) :
    Clean (Typing.report d >>= k) R :=
  .bind (.report d) fun _ => ⟨hk, fun _ _ _ h => h.elim⟩

end Clean

theorem declare_of_ok {symbol : Symbol} {s : Progress} {u : SymbolTable}
    (h : s.symbols.declare symbol = .ok u) :
    declare symbol s = (true, { s with symbols := u }) := by
  simp only [declare, bind, StateT.bind, get, getThe, MonadStateOf.get, StateT.get, pure, h]
  rfl

theorem declare_of_error {symbol existing : Symbol} {s : Progress}
    (h : s.symbols.declare symbol = .error existing) :
    declare symbol s = (false, (report ⟨symbol.span, .alreadyExists symbol.name,
      [⟨existing.span, .firstDeclared existing.name⟩]⟩ s).2) := by
  simp only [declare, bind, StateT.bind, get, getThe, MonadStateOf.get, StateT.get, pure, h]
  rfl

theorem clean_declare (symbol : Symbol) : Clean (declare symbol) fun s ok s' =>
    ok = true ∧ s'.locals = s.locals ∧ s'.symbols.symbols = s.symbols.symbols ++ [symbol] ∧
      (s.symbols.Distinct → s'.symbols.Distinct) where
  honest s := by
    cases hd : s.symbols.declare symbol with
    | ok u => exact ⟨[], by rw [declare_of_ok hd, List.append_nil]⟩
    | error existing => exact ⟨_, by rw [declare_of_error hd]; rfl⟩
  run s h := by
    cases hd : s.symbols.declare symbol with
    | ok u =>
      rw [declare_of_ok hd]
      exact ⟨rfl, rfl, SymbolTable.declare_ok hd⟩
    | error existing =>
      rw [declare_of_error hd] at h
      exact ((Clean.report _).run s h).elim

/-- A context whose type names all have layouts. -/
structure Context.Sound (ctx : Context) : Prop where
  builtin : Registry.initial.Le ctx.layouts
  types : ∀ name, ctx.types.contains name → ctx.layouts.contains name

/-- A variable that the body of the function declares. -/
structure IsLocal (ctx : Context) (f : String) (s : Symbol) : Prop where
  kind : s.kind = .local_ ∨ s.kind = .iterator
  owned : Owned f s.mangled
  known : ctx.Sound → s.ty.Known ctx.layouts

theorem IsLocal.isStack {s : Symbol} (h : IsLocal ctx f s) :
    s.kind.isStack := by
  rcases h.kind with hk | hk <;> rw [hk] <;> rfl

/-- What the body of a function may do while nothing is wrong. -/
structure Declares (ctx : Context) (f : String) (s s' : Progress) : Prop where
  locals : ∃ new : List Symbol, s'.symbols.symbols = s.symbols.symbols ++ new ∧
    s'.locals = s.locals ++ new.map Symbol.variable ∧ ∀ x ∈ new, IsLocal ctx f x
  distinct : s.symbols.Distinct → s'.symbols.Distinct

theorem Declares.refl (s : Progress) : Declares ctx f s s :=
  ⟨⟨[], by simp⟩, id⟩

theorem Declares.trans {s s' s'' : Progress} (h : Declares ctx f s s')
    (h' : Declares ctx f s' s'') : Declares ctx f s s'' := by
  obtain ⟨new, hs, hl, hn⟩ := h.locals
  obtain ⟨new', hs', hl', hn'⟩ := h'.locals
  refine ⟨⟨new ++ new', by simp [hs', hs], by simp [hl', hl], fun x hx => ?_⟩, ?_⟩
  · rcases List.mem_append.1 hx with hx | hx
    · exact hn x hx
    · exact hn' x hx
  · exact fun hd => h'.distinct (h.distinct hd)

theorem Declares.subset {s s' : Progress} (h : Declares ctx f s s') :
    s.symbols.symbols ⊆ s'.symbols.symbols := by
  obtain ⟨new, hs, -, -⟩ := h.locals
  rw [hs]
  exact List.subset_append_left _ _

/-- The declarations of a function cover a table: they hold its globals and the symbols of the
function itself. -/
structure Covers (ctx : Context) (D : Decls) (f : String) (t : SymbolTable) : Prop where
  layouts : D.layouts = ctx.layouts
  sound : D.Sound
  types : ∀ name, ctx.types.contains name → D.layouts.contains name
  marked : ∀ s ∈ t.symbols, s.kind.isStack → '$' ∈ s.mangled.toList
  declares : ∀ s ∈ t.symbols, (s.kind.isStack → Owned f s.mangled) →
    D.declares ⟨s.mangled, s.kind⟩ s.ty

variable {D : Decls} {scope : ScopePath}

theorem Covers.mono {t u : SymbolTable} (h : Covers ctx D f u) (hs : t.symbols ⊆ u.symbols) :
    Covers ctx D f t :=
  { h with
    marked := fun s hm => h.marked s (hs hm)
    declares := fun s hm => h.declares s (hs hm) }

theorem Covers.context {t : SymbolTable} (h : Covers ctx D f t) : ctx.Sound :=
  ⟨h.layouts ▸ h.sound.builtin, h.layouts ▸ h.types⟩

theorem Covers.fits {t : SymbolTable} (h : Covers ctx D f t) (hf : scope.function = f) :
    Fits ⟨ctx.layouts, t, ctx.types⟩ scope D where
  layouts := h.layouts
  sound := h.sound
  types := h.types
  resolves := by
    intro name symbol hname hresolve
    obtain ⟨hmem, howned⟩ := SymbolTable.resolve_some hresolve
    refine h.declares symbol hmem fun hstack => ?_
    rcases howned with howned | rfl
    · exact hf ▸ howned
    · exact absurd (h.marked symbol hmem hstack) hname

/-- A check in the body of a function that declares only locals of it. What it gives has the
property under all declarations that cover the table it leaves. -/
def Yields (ctx : Context) (f : String) (m : Check α) (Q : Decls → α → Prop) : Prop :=
  Clean m fun s a s' => Declares ctx f s s' ∧ ∀ D, Covers ctx D f s'.symbols → Q D a

namespace Yields

variable {m : Check α} {P Q : Decls → α → Prop}

theorem mono (h : Yields ctx f m P) (hPQ : ∀ D a, P D a → Q D a) : Yields ctx f m Q :=
  Clean.mono h fun _ _ _ hs => ⟨hs.1, fun D hD => hPQ D _ (hs.2 D hD)⟩

theorem pure {a : α} (h : ∀ D, D.layouts = ctx.layouts → ctx.Sound → Q D a) :
    Yields ctx f (pure a) Q :=
  Clean.pure fun s => ⟨Declares.refl s, fun D hD => h D hD.layouts hD.context⟩

theorem bind {k : α → Check β} {R : Decls → β → Prop} (hm : Yields ctx f m P)
    (hk : ∀ a, Yields ctx f (k a) fun D b => P D a → R D b) : Yields ctx f (m >>= k) R := by
  refine Clean.bind hm fun a => Clean.mono (hk a) fun s' b s'' h s hs => ?_
  exact ⟨hs.1.trans h.1, fun D hD => h.2 D hD (hs.2 D (hD.mono h.1.subset))⟩

theorem ite {c : Prop} [Decidable c] {n : Check α} (hm : c → Yields ctx f m Q)
    (hn : ¬c → Yields ctx f n Q) : Yields ctx f (if c then m else n) Q :=
  Clean.ite hm hn

theorem report (d : Diagnostic) : Yields ctx f (report d) fun _ _ => False :=
  (Clean.report d).mono fun _ _ _ h => h.elim

theorem settle (outcome : Except Diagnostic α) :
    Yields ctx f (settle outcome) fun _ r => ∃ a, outcome = .ok a ∧ r = some a := by
  cases outcome with
  | ok a => exact .pure fun _ _ _ => ⟨a, rfl, rfl⟩
  | error d => exact .bind (.report d) fun _ => .pure fun _ _ _ h => h.elim

theorem env (hf : scope.function = f) : Yields ctx f (env ctx) fun D e => Fits e scope D where
  honest _ := ⟨[], (List.append_nil _).symm⟩
  run s _ := ⟨Declares.refl s, fun _ hD => hD.fits hf⟩

end Yields

theorem Yields.declare_bind {symbol : Symbol} {k : Bool → Check α} {rest : Check α}
    {Q : Decls → α → Prop} (hlocal : IsLocal ctx f symbol)
    (htrue : k true = (addLocal symbol.variable >>= fun _ => rest))
    (hrest : Yields ctx f rest
      fun D a => D.declares ⟨symbol.mangled, symbol.kind⟩ symbol.ty → Q D a)
    (hfalse : ∀ s, ∃ ds, (k false s).2.diagnostics = s.diagnostics ++ ds) :
    Yields ctx f (declare symbol >>= k) Q := by
  refine (clean_declare symbol).bind fun ok => ?_
  cases ok with
  | false => exact ⟨hfalse, fun _ _ _ h => by cases h.1⟩
  | true =>
    rw [htrue]
    refine ⟨fun s => hrest.honest { s with locals := s.locals ++ [symbol.variable] }, ?_⟩
    rintro s' h s ⟨-, hlocals, hsymbols, hdistinct⟩
    obtain ⟨hdeclares, hsound⟩ := hrest.run { s' with locals := s'.locals ++ [symbol.variable] } h
    constructor
    · refine Declares.trans ?_ hdeclares
      exact ⟨⟨[symbol], hsymbols, by simp [hlocals], by simpa using hlocal⟩, hdistinct⟩
    · intro D hD
      refine hsound D hD (hD.declares symbol ?_ fun _ => hlocal.owned)
      exact hdeclares.subset (by simp [hsymbols])

end Typing

end RegionCompiler
