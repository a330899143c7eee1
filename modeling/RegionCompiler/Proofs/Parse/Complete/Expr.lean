import RegionCompiler.Proofs.Parse.Sound.Expr

/-! Whatever derives from the grammar is read as the tree it derives, if nothing that could belong
to it follows. Loops that lean to the left are followed by what is still to be read. -/
namespace RegionCompiler.Parse

open Grammar

open Token (Kind)

/-- The parser succeeds, with a result and a cursor as given. -/
def Yields {α : Type} (p : Parser α) (c : Cursor) (P : α → Cursor → Prop) : Prop :=
  ∃ a next, p c = .ok a next ∧ next.kinds.length ≤ c.kinds.length ∧ P a next

namespace Yields

variable {α β : Type} {p : Parser α} {k : α → Parser β} {c : Cursor} {P Q : α → Cursor → Prop}
  {R : β → Cursor → Prop}

theorem pure {a : α} (h : P a c) : Yields (pure a) c P :=
  ⟨a, c, rfl, Nat.le_refl _, h⟩

theorem bind (hp : Yields p c P) (hk : ∀ a next, next.kinds.length ≤ c.kinds.length → P a next →
    Yields (k a) next R) : Yields (p >>= k) c R := by
  obtain ⟨a, middle, hread, hlength, ha⟩ := hp
  obtain ⟨b, next, hread', hlength', hb⟩ := hk a middle hlength ha
  refine ⟨b, next, ?_, Nat.le_trans hlength' hlength, hb⟩
  change EStateM.bind p k c = .ok b next
  unfold EStateM.bind
  rw [hread]
  exact hread'

theorem bounded {p : Nat → Parser α} (h : Yields (p c.kinds.length) c P) :
    Yields (Parse.bounded p) c P := by
  rw [Cursor.length_kinds] at h
  exact h

theorem pos {b : Prop} [Decidable b] {q : Parser α} (hb : b) (h : Yields p c P) :
    Yields (if b then p else q) c P := by
  rw [if_pos hb]
  exact h

theorem neg {b : Prop} [Decidable b] {q : Parser α} (hb : ¬b) (h : Yields q c P) :
    Yields (if b then p else q) c P := by
  rw [if_neg hb]
  exact h

end Yields

section Primitives

variable {c : Cursor} {kind : Kind} {rest : List Kind}

theorem yields_consume (hc : c.kinds = kind :: rest) :
    Yields consume c fun t next => t.kind = kind ∧ next.kinds = rest := by
  obtain ⟨tokens, last⟩ := c
  cases tokens with
  | nil => cases hc
  | cons t tokens =>
    cases hc
    exact ⟨t, ⟨tokens, t.span⟩, rfl, Nat.le_succ _, rfl, rfl⟩

theorem yields_peek (hc : c.kinds = kind :: rest) :
    Yields peek c fun t next => t.kind = kind ∧ c = next := by
  obtain ⟨tokens, last⟩ := c
  cases tokens with
  | nil => cases hc
  | cons t tokens =>
    cases hc
    exact ⟨t, ⟨t :: tokens, last⟩, rfl, Nat.le_refl _, rfl, rfl⟩

theorem yields_position (c : Cursor) : Yields position c fun _ next => c = next :=
  ⟨_, c, rfl, Nat.le_refl _, rfl⟩

theorem yields_ahead (c : Cursor) (n : Nat) :
    Yields (ahead? n) c fun found next => found = c.kinds[n]? ∧ c = next :=
  ⟨_, c, rfl, Nat.le_refl _, by simp [Cursor.kinds], rfl⟩

theorem yields_nextIs (c : Cursor) (kind : Kind) :
    Yields (nextIs kind) c fun answer next =>
      (answer = true ↔ c.kinds.head? = some kind) ∧ c = next := by
  apply (yields_ahead c 0).bind
  rintro found next - ⟨rfl, rfl⟩
  apply Yields.pure
  rw [beq_iff_eq, List.head?_eq_getElem?]
  exact ⟨Iff.rfl, rfl⟩

theorem yields_expectMark {mark : Punctuator} (context : String)
    (hc : c.kinds = .punctuator mark :: rest) :
    Yields (expectMark mark context) c fun _ next => next.kinds = rest := by
  apply (yields_consume hc).bind
  rintro t next - ⟨hkind, hnext⟩
  exact .neg (fun h => h hkind) (.pure hnext)

theorem yields_expectWord {word : Keyword} (context : String)
    (hc : c.kinds = .keyword word :: rest) :
    Yields (expectWord word context) c fun _ next => next.kinds = rest := by
  apply (yields_consume hc).bind
  rintro t next - ⟨hkind, hnext⟩
  exact .neg (fun h => h hkind) (.pure hnext)

theorem yields_expectName {name : String} (context : String)
    (hc : c.kinds = .identifier name :: rest) :
    Yields (expectName context) c fun n next => n.value = name ∧ next.kinds = rest := by
  apply (yields_consume hc).bind
  rintro t next - ⟨hkind, hnext⟩
  rw [hkind]
  exact .pure ⟨rfl, hnext⟩

theorem yields_expectString {value : String} (context : String)
    (hc : c.kinds = .string value :: rest) :
    Yields (expectString context) c fun v next => v.value = value ∧ next.kinds = rest := by
  apply (yields_consume hc).bind
  rintro t next - ⟨hkind, hnext⟩
  rw [hkind]
  exact .pure ⟨rfl, hnext⟩

theorem yields_another_comma (close : Punctuator) (context : String)
    (hc : c.kinds = .punctuator .comma :: rest) :
    Yields (another close context) c fun more next => more = true ∧ next.kinds = rest := by
  apply (yields_consume hc).bind
  rintro t next - ⟨hkind, hnext⟩
  exact .pos hkind (.pure ⟨rfl, hnext⟩)

theorem yields_another_close {close : Punctuator} (context : String) (hclose : close ≠ .comma)
    (hc : c.kinds = .punctuator close :: rest) :
    Yields (another close context) c fun more next => more = false ∧ next.kinds = rest := by
  apply (yields_consume hc).bind
  rintro t next - ⟨hkind, hnext⟩
  refine .neg ?_ (.pos hkind (.pure ⟨rfl, hnext⟩))
  rw [hkind]
  intro h
  exact hclose (Token.Kind.punctuator.inj h)

end Primitives

/-- The tokens that are left start with none that a parser would take. -/
def Stops (stop : Kind → Bool) (rest : List Kind) : Prop :=
  ∀ kind, rest.head? = some kind → stop kind = true

theorem Stops.cons {stop : Kind → Bool} {kind : Kind} (rest : List Kind) (h : stop kind = true) :
    Stops stop (kind :: rest) := by
  rintro _ ⟨⟩
  exact h

theorem Stops.mono {stop stop' : Kind → Bool} {rest : List Kind} (h : Stops stop rest)
    (hstop : ∀ kind, stop kind = true → stop' kind = true) : Stops stop' rest :=
  fun kind hkind => hstop kind (h kind hkind)

/-- Whatever derives from the grammar starts with a token that the test admits. -/
def Starts {α : Type} (admits : Kind → Bool) (G : Grammar α) : Prop :=
  ∀ x before after, G x before after → ∃ kind rest, before = kind :: rest ∧ admits kind = true

/-- From at most `n` tokens, the parser reads what derives from the grammar. -/
def Completes {α β : Type} (n : Nat) (p : Parser α) (view : α → β) (G : Grammar β)
    (stop : Kind → Bool) : Prop :=
  ∀ c x rest, c.kinds.length ≤ n → G x c.kinds rest → Stops stop rest →
    Yields p c fun a next => view a = x ∧ next.kinds = rest

theorem Starts.separated {α : Type} {admits : Kind → Bool} {G : Grammar α} {close : Punctuator}
    (h : Starts admits G) : Starts admits (Separated G close) := by
  intro xs before after hxs
  cases hxs with
  | last hx => exact h _ _ _ hx
  | more hx _ => exact h _ _ _ hx

section Lists

variable {α β : Type} {n : Nat} {item : Parser α} {view : α → β} {G : Grammar β}
  {stop admits : Kind → Bool} {close : Punctuator} {context : String}

/-- From at most `n` tokens, the parser reads the items of a list. -/
def CompletesItem (n : Nat) (item : Parser α) (view : α → β) (G : Grammar β)
    (close : Punctuator) : Prop :=
  ∀ c x mark rest, mark = .comma ∨ mark = close → c.kinds.length ≤ n →
    G x c.kinds (.punctuator mark :: rest) →
    Yields item c fun a next => view a = x ∧ next.kinds = .punctuator mark :: rest

theorem Completes.inList (h : Completes n item view G stop)
    (hcomma : stop (.punctuator .comma) = true) (hclose : stop (.punctuator close) = true) :
    CompletesItem n item view G close := by
  rintro c x mark rest (rfl | rfl) hn hx
  · exact h c x _ hn hx (.cons _ hcomma)
  · exact h c x _ hn hx (.cons _ hclose)

theorem yields_itemsAt (h : CompletesItem n item view G close) (hstart : Starts admits G)
    (hne : close ≠ .comma) {xs : List β} {before after : List Kind}
    (hxs : Separated G close xs before after) {c : Cursor} {fuel : Nat} (hc : c.kinds = before)
    (hn : before.length ≤ n) (hfuel : before.length ≤ fuel) :
    Yields (itemsAt item close context fuel) c fun ys next =>
      ys.map view = xs ∧ next.kinds = after := by
  induction hxs generalizing c fuel with
  | last hx =>
    obtain ⟨kind, rest, rfl, -⟩ := hstart _ _ _ hx
    obtain ⟨fuel, rfl⟩ := Nat.exists_eq_add_of_le' (Nat.le_trans (Nat.succ_pos _) hfuel)
    apply (h c _ _ _ (.inr rfl) (hc ▸ hn) (hc ▸ hx)).bind
    rintro y next - ⟨rfl, hnext⟩
    apply (yields_another_close context hne hnext).bind
    rintro more last - ⟨rfl, hlast⟩
    exact .pure ⟨rfl, hlast⟩
  | more hx hxs ih =>
    obtain ⟨kind, rest, rfl, -⟩ := hstart _ _ _ hx
    obtain ⟨fuel, rfl⟩ := Nat.exists_eq_add_of_le' (Nat.le_trans (Nat.succ_pos _) hfuel)
    apply (h c _ _ _ (.inl rfl) (hc ▸ hn) (hc ▸ hx)).bind
    rintro y next hlength ⟨rfl, hnext⟩
    apply (yields_another_comma close context hnext).bind
    rintro more last - ⟨rfl, hlast⟩
    rw [hc, hnext, List.length_cons, List.length_cons] at hlength
    rw [List.length_cons] at hn hfuel
    apply (ih hlast (by omega) (by omega)).bind
    rintro ys final - ⟨rfl, hfinal⟩
    exact .pure ⟨rfl, hfinal⟩

theorem completes_items (h : CompletesItem n item view G close) (hstart : Starts admits G)
    (hadmits : admits (.punctuator close) = false)
    (hne : close ≠ .comma) :
    Completes n (items item close context) (List.map view) (Listed G close) fun _ => true := by
  intro c xs after hn hxs _
  apply (yields_nextIs c _).bind
  rintro empty _ - ⟨hempty, rfl⟩
  generalize hbefore : c.kinds = before at hxs
  cases hxs with
  | none =>
    rw [hbefore] at hempty
    refine .pos (hempty.2 rfl) ?_
    apply (yields_consume hbefore).bind
    rintro t next - ⟨-, hnext⟩
    exact .pure ⟨rfl, hnext⟩
  | some hxs =>
    have hopens : c.kinds.head? ≠ some (.punctuator close) := by
      obtain ⟨kind, rest, rfl, hkind⟩ := hstart.separated _ _ _ hxs
      rw [hbefore]
      rintro ⟨⟩
      exact Bool.false_ne_true (hadmits.symm.trans hkind)
    refine .neg (fun h => hopens (hempty.1 h)) (.bounded ?_)
    exact yields_itemsAt h hstart hne hxs hbefore (hbefore ▸ hn)
      (hbefore ▸ Nat.le_refl _)

theorem yields_trailingItemsAt (h : CompletesItem n item view G close)
    (hstart : Starts admits G) (hadmits : admits (.punctuator close) = false)
    (hne : close ≠ .comma) {xs : List β} {before after : List Kind}
    (hxs : Trailing G close xs before after) {c : Cursor} {fuel : Nat} (hc : c.kinds = before)
    (hn : before.length ≤ n) (hfuel : before.length ≤ fuel) :
    Yields (trailingItemsAt item close context fuel) c fun ys next =>
      ys.map view = xs ∧ next.kinds = after := by
  have hopens : ∀ {x before after}, G x before after →
      before.head? ≠ some (.punctuator close) := by
    intro x before after hx
    obtain ⟨kind, rest, rfl, hkind⟩ := hstart _ _ _ hx
    rintro ⟨⟩
    exact Bool.false_ne_true (hadmits.symm.trans hkind)
  induction hxs generalizing c fuel with
  | none =>
    obtain ⟨fuel, rfl⟩ := Nat.exists_eq_add_of_le' (Nat.le_trans (Nat.succ_pos _) hfuel)
    apply (yields_nextIs c _).bind
    rintro empty _ - ⟨hempty, rfl⟩
    refine .pos (hempty.2 (by rw [hc]; rfl)) ?_
    apply (yields_consume hc).bind
    rintro t next - ⟨-, hnext⟩
    exact .pure ⟨rfl, hnext⟩
  | last hx =>
    obtain ⟨kind, rest, rfl, -⟩ := hstart _ _ _ hx
    obtain ⟨fuel, rfl⟩ := Nat.exists_eq_add_of_le' (Nat.le_trans (Nat.succ_pos _) hfuel)
    apply (yields_nextIs c _).bind
    rintro empty _ - ⟨hempty, rfl⟩
    refine .neg (fun he => hopens hx (hc ▸ hempty.1 he)) ?_
    apply (h c _ _ _ (.inr rfl) (hc ▸ hn) (hc ▸ hx)).bind
    rintro y next - ⟨rfl, hnext⟩
    apply (yields_another_close context hne hnext).bind
    rintro more last - ⟨rfl, hlast⟩
    exact .pure ⟨rfl, hlast⟩
  | more hx hxs ih =>
    obtain ⟨kind, rest, rfl, -⟩ := hstart _ _ _ hx
    obtain ⟨fuel, rfl⟩ := Nat.exists_eq_add_of_le' (Nat.le_trans (Nat.succ_pos _) hfuel)
    apply (yields_nextIs c _).bind
    rintro empty _ - ⟨hempty, rfl⟩
    refine .neg (fun he => hopens hx (hc ▸ hempty.1 he)) ?_
    apply (h c _ _ _ (.inl rfl) (hc ▸ hn) (hc ▸ hx)).bind
    rintro y next hlength ⟨rfl, hnext⟩
    apply (yields_another_comma close context hnext).bind
    rintro more last - ⟨rfl, hlast⟩
    rw [hc, hnext, List.length_cons, List.length_cons] at hlength
    rw [List.length_cons] at hn hfuel
    apply (ih hlast (by omega) (by omega)).bind
    rintro ys final - ⟨rfl, hfinal⟩
    exact .pure ⟨rfl, hfinal⟩

theorem completes_trailingItems (h : CompletesItem n item view G close)
    (hstart : Starts admits G) (hadmits : admits (.punctuator close) = false)
    (hne : close ≠ .comma) :
    Completes n (trailingItems item close context) (List.map view) (Trailing G close)
      fun _ => true := by
  intro c xs after hn hxs _
  exact .bounded (yields_trailingItemsAt h hstart hadmits hne hxs rfl hn
    (Nat.le_refl _))

end Lists

/-! ### Types -/

/-- The tokens that go on with a type. -/
def typeStop : Kind → Bool
  | .punctuator .leftBracket | .punctuator .atSign => false
  | _ => true

theorem yields_modifiers {t : Ty} {before after : List Kind} (ht : TypeName t before after) :
    ∃ name rest, before = .identifier name :: rest ∧
      ∀ {c : Cursor} {fuel : Nat} {P : Ty → Cursor → Prop}, c.kinds = rest → rest.length ≤ fuel →
        (∀ next fuel', next.kinds = after → after.length ≤ fuel' →
          Yields (modifiersAt fuel' t) next P) →
        Yields (modifiersAt fuel (.base name)) c P := by
  induction ht with
  | base => exact ⟨_, _, rfl, fun hc hfuel hlast => hlast _ _ hc hfuel⟩
  | pointer ht ih =>
    obtain ⟨name, rest, rfl, hread⟩ := ih
    refine ⟨name, rest, rfl, fun hc hfuel hlast => hread hc hfuel fun next fuel' hnext hfuel' => ?_⟩
    obtain ⟨fuel', rfl⟩ := Nat.exists_eq_add_of_le' (Nat.le_trans (Nat.succ_pos _) hfuel')
    apply (yields_ahead next 0).bind
    rintro found _ - ⟨rfl, rfl⟩
    rw [hnext]
    apply (yields_consume hnext).bind
    rintro mark last - ⟨-, hlast'⟩
    exact hlast last fuel' hlast' (Nat.le_of_succ_le_succ hfuel')
  | dynamic ht ih =>
    obtain ⟨name, rest, rfl, hread⟩ := ih
    refine ⟨name, rest, rfl, fun hc hfuel hlast => hread hc hfuel fun next fuel' hnext hfuel' => ?_⟩
    obtain ⟨fuel', rfl⟩ := Nat.exists_eq_add_of_le' (Nat.le_trans (Nat.succ_pos _) hfuel')
    apply (yields_ahead next 0).bind
    rintro found _ - ⟨rfl, rfl⟩
    rw [hnext]
    apply (yields_consume hnext).bind
    rintro mark second - ⟨-, hsecond⟩
    apply (yields_consume hsecond).bind
    rintro close last - ⟨hclose, hlast'⟩
    rw [hclose]
    simp only [List.length_cons] at hfuel'
    exact hlast last fuel' hlast' (by omega)
  | fixed ht ih =>
    obtain ⟨name, rest, rfl, hread⟩ := ih
    refine ⟨name, rest, rfl, fun hc hfuel hlast => hread hc hfuel fun next fuel' hnext hfuel' => ?_⟩
    obtain ⟨fuel', rfl⟩ := Nat.exists_eq_add_of_le' (Nat.le_trans (Nat.succ_pos _) hfuel')
    apply (yields_ahead next 0).bind
    rintro found _ - ⟨rfl, rfl⟩
    rw [hnext]
    apply (yields_consume hnext).bind
    rintro mark second - ⟨-, hsecond⟩
    apply (yields_consume hsecond).bind
    rintro length third - ⟨hlength, hthird⟩
    rw [hlength]
    apply (yields_expectMark _ hthird).bind
    rintro _ last - hlast'
    simp only [List.length_cons] at hfuel'
    exact hlast last fuel' hlast' (by omega)

/-- No modifier follows. -/
theorem yields_modifiersAt_stop {c : Cursor} (fuel : Nat) (t : Ty) (hc : Stops typeStop c.kinds) :
    Yields (modifiersAt fuel t) c fun u next => u = t ∧ c = next := by
  cases fuel with
  | zero => exact .pure ⟨rfl, rfl⟩
  | succ fuel =>
    apply (yields_ahead c 0).bind
    rintro found _ - ⟨rfl, rfl⟩
    split
    · rename_i hnext
      cases hc _ (List.head?_eq_getElem?.trans hnext)
    · rename_i hnext
      cases hc _ (List.head?_eq_getElem?.trans hnext)
    · exact .pure ⟨rfl, rfl⟩

theorem completes_type (n : Nat) : Completes n type Located.value TypeName typeStop := by
  intro c t after hn ht hstop
  obtain ⟨name, rest, hc, hread⟩ := yields_modifiers ht
  apply (yields_consume hc).bind
  rintro token next - ⟨hkind, hnext⟩
  rw [hkind]
  have hmodifiers : Yields (bounded fun n => modifiersAt n (.base name)) next fun u last =>
      u = t ∧ last.kinds = after := by
    refine .bounded (hread hnext (Nat.le_of_eq (hnext ▸ rfl)) fun last fuel hlast _ => ?_)
    obtain ⟨u, final, hrun, hlength, rfl, rfl⟩ :=
      yields_modifiersAt_stop fuel t (hlast ▸ hstop)
    exact ⟨_, _, hrun, hlength, rfl, hlast⟩
  apply hmodifiers.bind
  rintro u last - ⟨rfl, hlast⟩
  apply (yields_position last).bind
  rintro stop _ - rfl
  exact .pure ⟨rfl, hlast⟩

theorem starts_typeName {admits : Kind → Bool} (h : ∀ name, admits (.identifier name) = true) :
    Starts admits TypeName := by
  intro t before after ht
  obtain ⟨name, rest, rfl, -⟩ := yields_modifiers ht
  exact ⟨_, _, rfl, h name⟩

/-! ### Expressions -/

/-- The tokens that go on with a leaf. -/
def leafStop : Kind → Bool
  | .punctuator .leftParen | .punctuator .leftBracket | .punctuator .period
  | .punctuator .atSign | .punctuator .exclamation => false
  | _ => true

def operandStop : Kind → Bool
  | .punctuator .arrow => false
  | kind => leafStop kind

/-- The operators of a level go on with it, as does what goes on with an operand. -/
def chainStop (op? : Kind → Option BinaryOp) (stop : Kind → Bool) (kind : Kind) : Bool :=
  stop kind && (op? kind).isNone

def expressionStop : Kind → Bool :=
  chainStop logicalOp? (chainStop comparisonOp? (chainStop additiveOp?
    (chainStop multiplicativeOp? operandStop)))

/-- The tokens that a leaf starts with: prefix operators are none of them. -/
def startsLeaf (kind : Kind) : Bool :=
  canStartExpression kind && (unaryOp? kind).isNone

section Operators

variable {n : Nat} {operand nested : Parser Expr} {G : Grammar Expr}
  {op? : Kind → Option BinaryOp} {level : Level} {stop : Kind → Bool}

theorem yields_chain (htable : Tabulates op? level) (h : Completes n operand Expr.bare G stop)
    (hmarks : ∀ op : BinaryOp, op.level = level → stop op.token = true) {e : Expr}
    {before after : List Kind} (he : Chain level G e before after) {c : Cursor}
    {P : Expr → Cursor → Prop} (hc : c.kinds = before) (hn : before.length ≤ n)
    (hstop : Stops stop after)
    (hlast : ∀ lhs next fuel, lhs.bare = e → next.kinds = after → after.length ≤ n →
      after.length ≤ fuel → Yields (binaryAt op? operand fuel lhs) next P) :
    Yields (binary op? operand) c P := by
  induction he generalizing c P with
  | operand he =>
    apply (h c _ _ (hc ▸ hn) (hc ▸ he) hstop).bind
    rintro lhs next hlength ⟨hlhs, hnext⟩
    rw [hc, hnext] at hlength
    exact .bounded (hlast lhs next _ hlhs hnext (Nat.le_trans hlength hn)
      (Nat.le_of_eq (hnext ▸ rfl)))
  | operator hlevel hlhs hrhs ih =>
    rename_i op lhs rhs before middle after
    refine ih hc hn (.cons _ (hmarks op hlevel)) fun lhs' next fuel hlhs' hnext hn' hfuel => ?_
    obtain ⟨fuel, rfl⟩ := Nat.exists_eq_add_of_le' (Nat.le_trans (Nat.succ_pos _) hfuel)
    apply (yields_ahead next 0).bind
    rintro found _ - ⟨rfl, rfl⟩
    have hop : next.kinds[0]?.bind op? = some op := by
      rw [hnext]
      exact (htable _ _).2 ⟨hlevel, rfl⟩
    rw [hop]
    apply (yields_consume hnext).bind
    rintro mark second - ⟨-, hsecond⟩
    rw [List.length_cons] at hn' hfuel
    apply (h second _ _ (hsecond ▸ Nat.le_of_succ_le hn') (hsecond ▸ hrhs) hstop).bind
    rintro rhs' last hlength ⟨hrhs', hlast'⟩
    rw [hsecond, hlast'] at hlength
    refine hlast _ last fuel ?_ hlast' (by omega) (by omega)
    rw [Expr.bare, hlhs', hrhs']
    rfl

theorem yields_binaryAt_stop {c : Cursor} (fuel : Nat) (lhs : Expr)
    (hc : Stops (chainStop op? stop) c.kinds) :
    Yields (binaryAt op? operand fuel lhs) c fun e next => e = lhs ∧ c = next := by
  cases fuel with
  | zero => exact .pure ⟨rfl, rfl⟩
  | succ fuel =>
    apply (yields_ahead c 0).bind
    rintro found _ - ⟨rfl, rfl⟩
    split
    · exact .pure ⟨rfl, rfl⟩
    · rename_i op hop
      obtain ⟨kind, hkind, hop⟩ := Option.bind_eq_some_iff.1 hop
      have h := hc kind (List.head?_eq_getElem?.trans hkind)
      simp [chainStop, hop] at h

theorem completes_binary (htable : Tabulates op? level)
    (h : Completes n operand Expr.bare G stop)
    (hmarks : ∀ op : BinaryOp, op.level = level → stop op.token = true) :
    Completes n (binary op? operand) Expr.bare (Chain level G) (chainStop op? stop) := by
  intro c e after hn he hstop
  have hstop' : Stops stop after := hstop.mono fun kind hkind => by
    simp only [chainStop, Bool.and_eq_true] at hkind
    exact hkind.1
  refine yields_chain htable h hmarks he rfl hn hstop' fun lhs next fuel hlhs hnext _ _ => ?_
  obtain ⟨e', last, hrun, hlength, rfl, rfl⟩ :=
    yields_binaryAt_stop fuel lhs (hnext ▸ hstop)
  exact ⟨_, _, hrun, hlength, hlhs, hnext⟩

theorem completes_unaryOver (hnested : Completes n nested Expr.bare (Prefixed G) stop)
    (h : Completes (n + 1) operand Expr.bare G stop) (hstart : Starts startsLeaf G) :
    Completes (n + 1) (unaryOver nested operand) Expr.bare (Prefixed G) stop := by
  intro c e after hn he hstop
  generalize hbefore : c.kinds = before at he
  cases he with
  | operand he =>
    obtain ⟨kind, rest, rfl, hkind⟩ := hstart _ _ _ he
    apply (yields_peek hbefore).bind
    rintro token _ - ⟨rfl, rfl⟩
    simp only [startsLeaf, Bool.and_eq_true, Option.isNone_iff_eq_none] at hkind
    rw [hkind.2]
    exact h c e after hn (hbefore ▸ he) hstop
  | operator hmark he =>
    apply (yields_peek hbefore).bind
    rintro token _ - ⟨rfl, rfl⟩
    rw [unaryOp?_eq_some.2 hmark]
    apply (yields_consume hbefore).bind
    rintro mark next - ⟨-, hnext⟩
    rw [hbefore, List.length_cons] at hn
    apply (hnested next _ _ (hnext ▸ Nat.le_of_succ_le_succ hn) (hnext ▸ he) hstop).bind
    rintro inner last - ⟨hinner, hlast⟩
    refine .pure ⟨?_, hlast⟩
    rw [Expr.bare, hinner]
    rfl

theorem yields_conversions (h : Completes n operand Expr.bare G stop)
    (harrow : stop (.punctuator .arrow) = true) {e : Expr} {before after : List Kind}
    (he : Converted G e before after) {c : Cursor} {P : Expr → Cursor → Prop}
    (hc : c.kinds = before) (hn : before.length ≤ n) (hstop : Stops stop after)
    (htype : Stops typeStop after)
    (hlast : ∀ e' next fuel, e'.bare = e → next.kinds = after → after.length ≤ fuel →
      Yields (conversionsAt fuel e') next P) :
    Yields (converted operand) c P := by
  induction he generalizing c P with
  | leaf he =>
    apply (h c _ _ (hc ▸ hn) (hc ▸ he) hstop).bind
    rintro e' next - ⟨he', hnext⟩
    exact .bounded (hlast e' next _ he' hnext (Nat.le_of_eq (hnext ▸ rfl)))
  | conversion he ht ih =>
    refine ih hc hn (.cons _ harrow) (.cons _ rfl) fun e' next fuel he' hnext hfuel => ?_
    obtain ⟨fuel, rfl⟩ := Nat.exists_eq_add_of_le' (Nat.le_trans (Nat.succ_pos _) hfuel)
    apply (yields_nextIs next _).bind
    rintro arrow _ - ⟨hanswer, rfl⟩
    refine .pos (hanswer.2 (by rw [hnext]; rfl)) ?_
    apply (yields_consume hnext).bind
    rintro mark second - ⟨-, hsecond⟩
    apply (completes_type _ second _ _ (Nat.le_refl _) (hsecond ▸ ht) htype).bind
    rintro target last hlength ⟨htarget, hlast'⟩
    rw [hsecond, hlast'] at hlength
    rw [List.length_cons] at hfuel
    refine hlast _ last fuel ?_ hlast' (by omega)
    rw [Expr.bare, he', Located.bare, htarget]
    rfl

theorem completes_converted (h : Completes n operand Expr.bare G leafStop) :
    Completes n (converted operand) Expr.bare (Converted G) operandStop := by
  intro c e after hn he hstop
  have hleaf : Stops leafStop after := hstop.mono fun kind hkind => by
    unfold operandStop at hkind
    split at hkind
    · cases hkind
    · exact hkind
  have htype : Stops typeStop after := hleaf.mono fun kind hkind => by
    unfold typeStop
    split <;> first | cases hkind | rfl
  refine yields_conversions h rfl he rfl hn hleaf htype fun e' next fuel he' hnext _ => ?_
  cases fuel with
  | zero => exact .pure ⟨he', hnext⟩
  | succ fuel =>
    apply (yields_nextIs next _).bind
    rintro arrow _ - ⟨hanswer, rfl⟩
    refine .neg (fun harrow => ?_) (.pure ⟨he', hnext⟩)
    cases hstop _ (hnext ▸ hanswer.1 harrow)

end Operators

/-! Where an expression starts, and how a name at its start goes on. -/

theorem starts_leaf {G : Grammar Expr} : Starts startsLeaf (Primary G) := by
  intro e before after he
  cases he with
  | place hp =>
    cases hp
    exact ⟨_, _, rfl, rfl⟩
  | _ => exact ⟨_, _, rfl, rfl⟩

theorem Starts.converted {admits : Kind → Bool} {G : Grammar Expr} (h : Starts admits G) :
    Starts admits (Converted G) := by
  intro e before after he
  induction he with
  | leaf he => exact h _ _ _ he
  | conversion _ _ ih => exact ih

theorem Starts.prefixed {G : Grammar Expr} (h : Starts startsLeaf G) :
    Starts canStartExpression (Prefixed G) := by
  intro e before after he
  cases he with
  | operand he =>
    obtain ⟨kind, rest, rfl, hkind⟩ := h _ _ _ he
    simp only [startsLeaf, Bool.and_eq_true] at hkind
    exact ⟨_, _, rfl, hkind.1⟩
  | operator hmark _ =>
    refine ⟨_, _, rfl, ?_⟩
    have hop := unaryOp?_eq_some.2 hmark
    unfold unaryOp? at hop
    split at hop <;> first | rfl | cases hop

theorem Starts.chain {admits : Kind → Bool} {level : Level} {G : Grammar Expr}
    (h : Starts admits G) : Starts admits (Chain level G) := by
  intro e before after he
  induction he with
  | operand he => exact h _ _ _ he
  | operator _ _ _ ih => exact ih

theorem starts_expression : Starts canStartExpression Expression := by
  intro e before after he
  cases he with
  | levels he => exact starts_leaf.converted.prefixed.chain.chain.chain.chain _ _ _ he

/-- A name before `=` is an expression only by itself. -/
def NameAlone (G : Grammar Expr) : Prop :=
  ∀ e name rest after, G e (.identifier name :: .punctuator .assignment :: rest) after →
    after = .punctuator .assignment :: rest

theorem nameAlone_leaf {G : Grammar Expr} : NameAlone (Primary G) := by
  intro e name rest after he
  cases he with
  | place hp =>
    cases hp with
    | mk haccessors =>
      cases haccessors
      rfl

theorem NameAlone.converted {G : Grammar Expr} (h : NameAlone G) : NameAlone (Converted G) := by
  intro e name rest after he
  generalize hbefore : .identifier name :: .punctuator .assignment :: rest = before at he
  induction he with
  | leaf he => exact h _ _ _ _ (hbefore ▸ he)
  | conversion _ _ ih => cases ih hbefore

theorem NameAlone.prefixed {G : Grammar Expr} (h : NameAlone G) : NameAlone (Prefixed G) := by
  intro e name rest after he
  cases he with
  | operand he => exact h _ _ _ _ he
  | operator hmark _ => cases unaryOp?_eq_some.2 hmark

theorem NameAlone.chain {level : Level} {G : Grammar Expr} (h : NameAlone G) :
    NameAlone (Chain level G) := by
  intro e name rest after he
  generalize hbefore : .identifier name :: .punctuator .assignment :: rest = before at he
  induction he with
  | operand he => exact h _ _ _ _ (hbefore ▸ he)
  | @operator op _ _ _ _ _ _ _ _ ih =>
    have hmark := (List.cons.inj (ih hbefore)).1
    cases op <;> cases hmark

theorem nameAlone_expression : NameAlone Expression := by
  intro e name rest after he
  cases he with
  | levels he =>
    exact nameAlone_leaf.converted.prefixed.chain.chain.chain.chain _ _ _ _ he

section Leaves

variable {n : Nat} {expr leaf : Parser Expr} {G : Grammar Expr}

theorem yields_accessorsAt (h : Completes n expr Expr.bare G expressionStop)
    (hstart : Starts canStartExpression G) {accessors : List Accessor} {before after : List Kind}
    (haccessors : Accessors G accessors before after) {c : Cursor} {fuel : Nat}
    (hc : c.kinds = before) (hn : before.length ≤ n) (hfuel : before.length ≤ fuel)
    (hstop : Stops leafStop after) :
    Yields (accessorsAt expr fuel) c fun as next =>
      as.map Accessor.bare = accessors ∧ next.kinds = after := by
  induction haccessors generalizing c fuel with
  | none =>
    cases fuel with
    | zero => exact .pure ⟨rfl, hc⟩
    | succ fuel =>
      apply (yields_ahead c 0).bind
      rintro found _ - ⟨rfl, rfl⟩
      rw [hc]
      split
      case h_5 => exact .pure ⟨rfl, hc⟩
      all_goals
        rename_i hnext
        cases hstop _ (List.head?_eq_getElem?.trans hnext)
  | call harguments _ ih =>
    obtain ⟨fuel, rfl⟩ := Nat.exists_eq_add_of_le' (Nat.le_trans (Nat.succ_pos _) hfuel)
    rw [List.length_cons] at hn hfuel
    apply (yields_ahead c 0).bind
    rintro found _ - ⟨rfl, rfl⟩
    rw [hc]
    apply (yields_consume hc).bind
    rintro mark next - ⟨-, hnext⟩
    have hitems : Completes n (items expr .rightParen "argument") _ _ _ :=
      completes_items (h.inList rfl rfl) hstart rfl (by decide)
    apply (hitems next _ _ (hnext ▸ Nat.le_of_succ_le hn) (hnext ▸ harguments)
      fun _ _ => rfl).bind
    rintro arguments last hlength ⟨rfl, hlast⟩
    rw [hnext, hlast] at hlength
    apply (yields_position last).bind
    rintro stop _ - rfl
    apply (ih hlast (by omega) (by omega) hstop).bind
    rintro rest final - ⟨rfl, hfinal⟩
    refine .pure ⟨?_, hfinal⟩
    rw [List.map_cons, Accessor.bare, Expr.bareAll_eq_map]
    rfl
  | index hposition _ ih =>
    obtain ⟨fuel, rfl⟩ := Nat.exists_eq_add_of_le' (Nat.le_trans (Nat.succ_pos _) hfuel)
    rw [List.length_cons] at hn hfuel
    apply (yields_ahead c 0).bind
    rintro found _ - ⟨rfl, rfl⟩
    rw [hc]
    apply (yields_consume hc).bind
    rintro mark next - ⟨-, hnext⟩
    apply (h next _ _ (hnext ▸ Nat.le_of_succ_le hn) (hnext ▸ hposition) (.cons _ rfl)).bind
    rintro position last hlength ⟨rfl, hlast⟩
    rw [hnext, hlast, List.length_cons] at hlength
    apply (yields_expectMark _ hlast).bind
    rintro _ close - hclose
    apply (yields_position close).bind
    rintro stop _ - rfl
    apply (ih hclose (by omega) (by omega) hstop).bind
    rintro rest final - ⟨rfl, hfinal⟩
    exact .pure ⟨rfl, hfinal⟩
  | member _ ih =>
    obtain ⟨fuel, rfl⟩ := Nat.exists_eq_add_of_le' (Nat.le_trans (Nat.succ_pos _) hfuel)
    rw [List.length_cons, List.length_cons] at hn hfuel
    apply (yields_ahead c 0).bind
    rintro found _ - ⟨rfl, rfl⟩
    rw [hc]
    apply (yields_consume hc).bind
    rintro mark next - ⟨-, hnext⟩
    apply (yields_expectName _ hnext).bind
    rintro name last - ⟨rfl, hlast⟩
    apply (yields_position last).bind
    rintro stop _ - rfl
    apply (ih hlast (by omega) (by omega) hstop).bind
    rintro rest final - ⟨rfl, hfinal⟩
    exact .pure ⟨rfl, hfinal⟩
  | dereference _ ih =>
    obtain ⟨fuel, rfl⟩ := Nat.exists_eq_add_of_le' (Nat.le_trans (Nat.succ_pos _) hfuel)
    rw [List.length_cons] at hn hfuel
    apply (yields_ahead c 0).bind
    rintro found _ - ⟨rfl, rfl⟩
    rw [hc]
    apply (yields_consume hc).bind
    rintro mark next - ⟨-, hnext⟩
    apply (yields_position next).bind
    rintro stop _ - rfl
    apply (ih hnext (by omega) (by omega) hstop).bind
    rintro rest final - ⟨rfl, hfinal⟩
    exact .pure ⟨rfl, hfinal⟩

theorem completes_place (h : Completes n expr Expr.bare G expressionStop)
    (hstart : Starts canStartExpression G) :
    Completes (n + 1) (place expr) (fun p => p.value.bare) (Variable G) leafStop := by
  intro c p after hn hp hstop
  generalize hbefore : c.kinds = before at hp
  cases hp with
  | mk haccessors =>
    apply (yields_expectName _ hbefore).bind
    rintro name next - ⟨rfl, hnext⟩
    rw [hbefore, List.length_cons] at hn
    have hread : Yields (bounded (accessorsAt expr)) next fun as last =>
        as.map Accessor.bare = _ ∧ last.kinds = after :=
      .bounded (yields_accessorsAt h hstart haccessors hnext (Nat.le_of_succ_le_succ hn)
        (Nat.le_of_eq (hnext ▸ rfl)) hstop)
    apply hread.bind
    rintro accessors last - ⟨rfl, hlast⟩
    apply (yields_position last).bind
    rintro stop _ - rfl
    exact .pure ⟨rfl, hlast⟩

theorem completes_argument (h : Completes n expr Expr.bare G expressionStop)
    (hstart : Starts canStartExpression G) (halone : NameAlone G) :
    Completes n (argument expr) Argument.bare (Valued G) fun kind =>
      expressionStop kind && kind != .punctuator .assignment := by
  intro c a after hn ha hstop
  have hstop' : Stops expressionStop after := hstop.mono fun kind hkind => by
    rw [Bool.and_eq_true] at hkind
    exact hkind.1
  generalize hbefore : c.kinds = before at ha
  cases ha with
  | @plain e _ _ he =>
    have hplain : Yields (do return Argument.mk none (← expr)) c fun a next =>
        a.bare = .mk none e ∧ next.kinds = after := by
      apply (h c _ _ hn (hbefore ▸ he) hstop').bind
      rintro e next - ⟨rfl, hnext⟩
      exact .pure ⟨rfl, hnext⟩
    obtain ⟨kind, rest, rfl, -⟩ := hstart _ _ _ he
    apply (yields_peek hbefore).bind
    rintro token _ - ⟨rfl, rfl⟩
    split
    · rename_i name hkind
      apply (yields_ahead c 1).bind
      rintro found _ - ⟨rfl, rfl⟩
      refine .neg (fun hassign => ?_) hplain
      rw [hbefore] at hassign
      cases rest with
      | nil => cases hassign
      | cons second rest =>
        cases hassign
        rw [hkind] at he
        have hafter := halone _ _ _ _ he
        have h := hstop _ (by rw [hafter]; rfl)
        simp at h
    · exact hplain
  | named he =>
    apply (yields_peek hbefore).bind
    rintro token _ - ⟨hkind, rfl⟩
    rw [hkind]
    apply (yields_ahead c 1).bind
    rintro found _ - ⟨rfl, rfl⟩
    refine .pos (by rw [hbefore]; rfl) ?_
    apply (yields_consume hbefore).bind
    rintro first next - ⟨-, hnext⟩
    apply (yields_consume hnext).bind
    rintro second last - ⟨-, hlast⟩
    rw [hbefore, List.length_cons, List.length_cons] at hn
    apply (h last _ _ (by rw [hlast]; omega) (hlast ▸ he) hstop').bind
    rintro e final - ⟨rfl, hfinal⟩
    exact .pure ⟨rfl, hfinal⟩

/-- After a name that is a leaf no exclamation mark follows. -/
theorem head?_ne_exclamation {accessors : List Accessor} {before after : List Kind}
    (h : Accessors G accessors before after) (hstop : Stops leafStop after) :
    before.head? ≠ some (.punctuator .exclamation) := by
  intro hhead
  cases h with
  | none => cases hstop _ hhead
  | _ => cases hhead

theorem yields_literal {c : Cursor} {kind : Kind} {rest : List Kind} {make : Location → Expr}
    {e : Expr} (hc : c.kinds = kind :: rest) (hmake : ∀ stop, (make stop).bare = e) :
    Yields (do
      let _ ← consume
      return make (← position)) c fun e' next => e'.bare = e ∧ next.kinds = rest := by
  apply (yields_consume hc).bind
  rintro t next - ⟨-, hnext⟩
  apply (yields_position next).bind
  rintro stop _ - rfl
  exact .pure ⟨hmake stop, hnext⟩

theorem completes_constructAfter (start : Location)
    (h : Completes n expr Expr.bare G expressionStop) (hstart : Starts canStartExpression G)
    (halone : NameAlone G) {name : String} {arguments : List Argument} {before after : List Kind}
    (harguments : Trailing (Valued G) .rightBrace arguments before after) {c : Cursor}
    (hc : c.kinds = .identifier name :: .punctuator .exclamation :: .punctuator .leftBrace ::
      before) (hn : before.length ≤ n) :
    Yields (constructAfter start expr) c fun e next =>
      e.bare = .construct .blank (.blank name) arguments ∧ next.kinds = after := by
  apply (yields_expectName _ hc).bind
  rintro record second - ⟨rfl, hsecond⟩
  apply (yields_expectMark _ hsecond).bind
  rintro _ third - hthird
  apply (yields_expectMark _ hthird).bind
  rintro _ next - hnext
  have hstart' : Starts canStartExpression (Valued G) := by
    intro a before after ha
    cases ha with
    | plain he => exact hstart _ _ _ he
    | named _ => exact ⟨_, _, rfl, rfl⟩
  have hitems : Completes n
      (trailingItems (argument expr) .rightBrace "constructor argument") _ _ _ :=
    completes_trailingItems ((completes_argument h hstart halone).inList rfl rfl) hstart' rfl
      (by decide)
  apply (hitems next _ _ (hnext ▸ hn) (hnext ▸ harguments) fun _ _ => rfl).bind
  rintro arguments last - ⟨rfl, hlast⟩
  apply (yields_position last).bind
  rintro stop _ - rfl
  refine .pure ⟨?_, hlast⟩
  rw [Expr.bare, Argument.bareAll_eq_map]
  rfl

theorem completes_leafOver (h : Completes n expr Expr.bare G expressionStop)
    (hleaf : Completes n leaf Expr.bare (Primary G) leafStop)
    (hstart : Starts canStartExpression G) (halone : NameAlone G) :
    Completes (n + 1) (leafOver expr leaf) Expr.bare (Primary G) leafStop := by
  intro c e after hn he hstop
  generalize hbefore : c.kinds = before at he
  cases he with
  | integer =>
    apply (yields_peek hbefore).bind
    rintro token _ - ⟨hkind, rfl⟩
    simp only [hkind]
    exact yields_literal hbefore fun _ => rfl
  | float =>
    apply (yields_peek hbefore).bind
    rintro token _ - ⟨hkind, rfl⟩
    simp only [hkind]
    exact yields_literal hbefore fun _ => rfl
  | string =>
    apply (yields_peek hbefore).bind
    rintro token _ - ⟨hkind, rfl⟩
    simp only [hkind]
    exact yields_literal hbefore fun _ => rfl
  | true_ =>
    apply (yields_peek hbefore).bind
    rintro token _ - ⟨hkind, rfl⟩
    simp only [hkind]
    exact yields_literal hbefore fun _ => rfl
  | false_ =>
    apply (yields_peek hbefore).bind
    rintro token _ - ⟨hkind, rfl⟩
    simp only [hkind]
    exact yields_literal hbefore fun _ => rfl
  | null =>
    apply (yields_peek hbefore).bind
    rintro token _ - ⟨hkind, rfl⟩
    simp only [hkind]
    exact yields_literal hbefore fun _ => rfl
  | place hp =>
    have hplace := completes_place h hstart c _ after hn (hbefore ▸ hp) hstop
    cases hp with
    | mk haccessors =>
      apply (yields_peek hbefore).bind
      rintro token _ - ⟨hkind, rfl⟩
      simp only [hkind]
      apply (yields_ahead c 1).bind
      rintro second _ - ⟨rfl, rfl⟩
      apply (yields_ahead c 2).bind
      rintro third _ - ⟨rfl, rfl⟩
      refine .neg (fun hmarks => ?_) ?_
      · rw [hbefore] at hmarks
        exact head?_ne_exclamation haccessors hstop (List.head?_eq_getElem?.trans hmarks.1)
      · apply hplace.bind
        rintro p next - ⟨hp, hnext⟩
        apply (yields_position next).bind
        rintro stop _ - rfl
        refine .pure ⟨?_, hnext⟩
        obtain ⟨hhead, haccessors⟩ := Place.mk.inj hp
        rw [Expr.bare, Accessor.bareAll_eq_map, hhead, haccessors]
        rfl
  | parenthesized he =>
    apply (yields_peek hbefore).bind
    rintro token _ - ⟨hkind, rfl⟩
    simp only [hkind]
    apply (yields_consume hbefore).bind
    rintro mark next - ⟨-, hnext⟩
    rw [hbefore, List.length_cons] at hn
    apply (h next _ _ (hnext ▸ Nat.le_of_succ_le_succ hn) (hnext ▸ he) (.cons _ rfl)).bind
    rintro inner last - ⟨rfl, hlast⟩
    apply (yields_expectMark _ hlast).bind
    rintro _ final - hfinal
    apply (yields_position final).bind
    rintro stop _ - rfl
    exact .pure ⟨rfl, hfinal⟩
  | array helements =>
    apply (yields_peek hbefore).bind
    rintro token _ - ⟨hkind, rfl⟩
    simp only [hkind]
    apply (yields_consume hbefore).bind
    rintro mark next - ⟨-, hnext⟩
    rw [hbefore, List.length_cons] at hn
    have hitems : Completes n (items expr .rightBracket "array element") _ _ _ :=
      completes_items (h.inList rfl rfl) hstart rfl (by decide)
    apply (hitems next _ _ (hnext ▸ Nat.le_of_succ_le_succ hn) (hnext ▸ helements)
      fun _ _ => rfl).bind
    rintro elements last - ⟨rfl, hlast⟩
    apply (yields_position last).bind
    rintro stop _ - rfl
    refine .pure ⟨?_, hlast⟩
    rw [Expr.bare, Expr.bareAll_eq_map]
    rfl
  | allocation he =>
    apply (yields_peek hbefore).bind
    rintro token _ - ⟨hkind, rfl⟩
    simp only [hkind]
    apply (yields_consume hbefore).bind
    rintro mark next - ⟨-, hnext⟩
    rw [hbefore, List.length_cons] at hn
    apply (hleaf next _ _ (hnext ▸ Nat.le_of_succ_le_succ hn) (hnext ▸ he) hstop).bind
    rintro size last - ⟨rfl, hlast⟩
    apply (yields_position last).bind
    rintro stop _ - rfl
    exact .pure ⟨rfl, hlast⟩
  | addressOf hp =>
    apply (yields_peek hbefore).bind
    rintro token _ - ⟨hkind, rfl⟩
    simp only [hkind]
    apply (yields_consume hbefore).bind
    rintro mark next - ⟨-, hnext⟩
    rw [hbefore, List.length_cons] at hn
    apply (completes_place h hstart next _ after (hnext ▸ Nat.le_of_succ_le hn) (hnext ▸ hp)
      hstop).bind
    rintro p last - ⟨hp, hlast⟩
    apply (yields_position last).bind
    rintro stop _ - rfl
    refine .pure ⟨?_, hlast⟩
    obtain ⟨hhead, haccessors⟩ := Place.mk.inj hp
    rw [Expr.bare, Accessor.bareAll_eq_map, hhead, haccessors]
    rfl
  | construct harguments =>
    apply (yields_peek hbefore).bind
    rintro token _ - ⟨hkind, rfl⟩
    simp only [hkind]
    apply (yields_ahead c 1).bind
    rintro second _ - ⟨rfl, rfl⟩
    apply (yields_ahead c 2).bind
    rintro third _ - ⟨rfl, rfl⟩
    refine .pos (by rw [hbefore]; exact ⟨rfl, rfl⟩) ?_
    rw [hbefore] at hn
    simp only [List.length_cons] at hn
    exact completes_constructAfter _ h hstart halone harguments hbefore (by omega)

end Leaves

theorem completes_expressionAt (n : Nat) :
    Completes n (expressionAt n) Expr.bare Expression expressionStop ∧
    Completes n (unaryAt n) Expr.bare Operand operandStop ∧
    Completes n (leafAt n) Expr.bare (Primary Expression) leafStop := by
  induction n with
  | zero =>
    refine ⟨?_, ?_, ?_⟩
    · intro c e after hn he
      obtain ⟨kind, rest, hc, -⟩ := starts_expression _ _ _ he
      simp [hc] at hn
    · intro c e after hn he
      obtain ⟨kind, rest, hc, -⟩ := starts_leaf.converted.prefixed _ _ _ he
      simp [hc] at hn
    · intro c e after hn he
      obtain ⟨kind, rest, hc, -⟩ := starts_leaf _ _ _ he
      simp [hc] at hn
  | succ n ih =>
    have hleaf := completes_leafOver ih.1 ih.2.2 starts_expression nameAlone_expression
    have hunary := completes_unaryOver ih.2.1 (completes_converted hleaf) starts_leaf.converted
    have hmultiplicative := completes_binary tabulates_multiplicativeOp hunary fun op hop => by
      cases op <;> cases hop <;> rfl
    have hadditive := completes_binary tabulates_additiveOp hmultiplicative fun op hop => by
      cases op <;> cases hop <;> rfl
    have hcomparison := completes_binary tabulates_comparisonOp hadditive fun op hop => by
      cases op <;> cases hop <;> rfl
    have hlogical := completes_binary tabulates_logicalOp hcomparison fun op hop => by
      cases op <;> cases hop <;> rfl
    refine ⟨?_, hunary, hleaf⟩
    intro c e after hn he hstop
    cases he with
    | levels he => exact hlogical c e after hn he hstop

theorem completes_expression (n : Nat) :
    Completes n expression Expr.bare Expression expressionStop := by
  intro c e after _ he hstop
  exact .bounded ((completes_expressionAt _).1 c e after (Nat.le_refl _) he hstop)

end RegionCompiler.Parse
