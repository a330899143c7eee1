import RegionCompiler.Proofs.Parse.Complete.Expr
import RegionCompiler.Proofs.Parse.Sound.Program

/-! Statements and declarations that derive from the grammar are read as the trees they derive. No
mark stands between two statements: what follows a statement cannot go on with its last
expression. -/
namespace RegionCompiler.Grammar

open Parse (OpensBody Contents)

open Token (Kind)

variable {nearest dangling : Bool} {s : Stmt} {statements : List Stmt} {b : Block}
  {before after : List Kind}

theorem Single.marked_contents (h : Single nearest b dangling before after) :
    ∃ statements, b.marked = .mk .origin true statements ∧
      Contents nearest statements dangling before after := by
  cases h with
  | body h =>
    cases h with
    | braces h => exact ⟨_, rfl, .braces h⟩
    | manual h => exact ⟨_, Block.marked_marked _, .only nofun (.body (.manual h))⟩
  | statement h =>
    by_cases hbrace : before.head? = some (.punctuator .leftBrace)
    · cases h with
      | body h =>
        cases h with
        | braces h => exact ⟨_, rfl, .braces h⟩
        | manual h => cases hbrace
      | _ => cases hbrace
    · exact ⟨_, h.asBlock_marked hbrace, .only hbrace h⟩

theorem Single.contents (h : Single nearest b dangling before after) :
    (∃ statements rest, b = .mk .origin true statements ∧
      before = .punctuator .doubleAmpersand :: rest ∧
      Contents nearest statements dangling rest after) ∨
    ∃ statements, b = .mk .origin false statements ∧
      before.head? ≠ some (.punctuator .doubleAmpersand) ∧
      Contents nearest statements dangling before after := by
  by_cases hopens : OpensBody before
  · cases h.toBody hopens with
    | braces h => exact .inr ⟨_, rfl, nofun, .braces h⟩
    | manual h =>
      obtain ⟨statements, hmarked, hcontents⟩ := h.marked_contents
      exact .inl ⟨_, _, hmarked, rfl, hcontents⟩
  · cases h with
    | body h => exact absurd h.opensBody hopens
    | statement h =>
      refine .inr ⟨_, h.asBlock_eq hopens, fun hmark => hopens (.inr hmark), ?_⟩
      exact .only (fun hbrace => hopens (.inl hbrace)) h

end RegionCompiler.Grammar

namespace RegionCompiler.Parse

open Grammar

open Token (Kind)

def startsStatement : Kind → Bool
  | .keyword .let_ | .keyword .letAlloc | .keyword .mut_ | .keyword .call_ | .keyword .collect_
  | .keyword .ret_ | .keyword .break_ | .keyword .continue_ | .keyword .if_ | .keyword .while_
  | .keyword .do_ | .keyword .for_ | .punctuator .leftBrace
  | .punctuator .doubleAmpersand => true
  | _ => false

/-- The tokens that go on with a statement, or start an expression where it has none. -/
def statementStop (kind : Kind) : Bool :=
  expressionStop kind && !canStartExpression kind

theorem statementStop_of_starts {kind : Kind} (h : startsStatement kind = true) :
    statementStop kind = true := by
  unfold startsStatement at h
  split at h <;> first | rfl | cases h

theorem expressionStop_of_statementStop {kind : Kind} (h : statementStop kind = true) :
    expressionStop kind = true := by
  simp only [statementStop, Bool.and_eq_true] at h
  exact h.1

/-- Nothing that is left could belong to a statement that was read. -/
structure Ends (dangling : Bool) (rest : List Kind) : Prop where
  stops : Stops statementStop rest
  noElse : dangling = true → rest.head? ≠ some (.keyword .else_)

theorem Ends.of_starts {dangling : Bool} {kind : Kind} {rest : List Kind}
    (h : startsStatement kind = true) : Ends dangling (kind :: rest) where
  stops := .cons _ (statementStop_of_starts h)
  noElse _ := by
    rintro ⟨⟩
    cases h

/-- The parser succeeds and reads at least one token. -/
def Advances {α : Type} (p : Parser α) (c : Cursor) (P : α → Cursor → Prop) : Prop :=
  ∃ a next, p c = .ok a next ∧ next.kinds.length < c.kinds.length ∧ P a next

namespace Advances

variable {α β : Type} {p : Parser α} {k : α → Parser β} {c : Cursor} {P : α → Cursor → Prop}
  {R : β → Cursor → Prop}

theorem yields (h : Advances p c P) : Yields p c P := by
  obtain ⟨a, next, hread, hlength, ha⟩ := h
  exact ⟨a, next, hread, Nat.le_of_lt hlength, ha⟩

theorem bind (hp : Yields p c P) (hk : ∀ a next, P a next → Advances (k a) next R) :
    Advances (p >>= k) c R := by
  obtain ⟨a, middle, hread, hlength, ha⟩ := hp
  obtain ⟨b, next, hread', hlength', hb⟩ := hk a middle ha
  refine ⟨b, next, ?_, Nat.lt_of_lt_of_le hlength' hlength, hb⟩
  change EStateM.bind p k c = .ok b next
  unfold EStateM.bind
  rw [hread]
  exact hread'

theorem followed (hp : Advances p c P) (hk : ∀ a next, next.kinds.length < c.kinds.length →
    P a next → Yields (k a) next R) : Advances (p >>= k) c R := by
  obtain ⟨a, middle, hread, hlength, ha⟩ := hp
  obtain ⟨b, next, hread', hlength', hb⟩ := hk a middle hlength ha
  refine ⟨b, next, ?_, Nat.lt_of_le_of_lt hlength' hlength, hb⟩
  change EStateM.bind p k c = .ok b next
  unfold EStateM.bind
  rw [hread]
  exact hread'

end Advances

theorem advances_consume {c : Cursor} {kind : Kind} {rest : List Kind}
    (hc : c.kinds = kind :: rest) :
    Advances consume c fun t next => t.kind = kind ∧ next.kinds = rest := by
  obtain ⟨t, next, hread, -, ht, hnext⟩ := yields_consume hc
  refine ⟨t, next, hread, ?_, ht, hnext⟩
  rw [hc, hnext]
  exact Nat.lt_succ_self _

/-- From at most `n` tokens, the parser reads what derives from the grammar of statements or of
blocks. -/
def CompletesEnded {α : Type} (n : Nat) (p : Parser α) (view : α → α)
    (D : α → Bool → List Kind → List Kind → Prop) : Prop :=
  ∀ c x dangling rest, c.kinds.length ≤ n → D x dangling c.kinds rest → Ends dangling rest →
    Advances p c fun a next => view a = x ∧ next.kinds = rest

section Starts

variable {nearest dangling : Bool} {s : Stmt} {statements : List Stmt} {b : Block}
  {before after : List Kind}

theorem starts_statement (h : Statement nearest s dangling before after) :
    ∃ kind rest, before = kind :: rest ∧ startsStatement kind = true := by
  cases h with
  | body h =>
    cases h with
    | braces h => exact ⟨_, _, rfl, rfl⟩
    | manual h => exact ⟨_, _, rfl, rfl⟩
  | @let_ allocate =>
    cases allocate <;> exact ⟨_, _, rfl, rfl⟩
  | _ => exact ⟨_, _, rfl, rfl⟩

theorem starts_single (h : Single nearest b dangling before after) :
    ∃ kind rest, before = kind :: rest ∧ startsStatement kind = true := by
  cases h with
  | body h => exact starts_statement (.body h)
  | statement h => exact starts_statement h

theorem ends_single (h : Single nearest b dangling before after) (other : Bool) :
    Ends other before := by
  obtain ⟨kind, rest, rfl, hkind⟩ := starts_single h
  exact .of_starts hkind

theorem ends_statements (h : Statements nearest statements before after) (other : Bool) :
    Ends other before := by
  cases h with
  | none => exact ⟨.cons _ rfl, fun _ => nofun⟩
  | more h _ =>
    obtain ⟨kind, rest, rfl, hkind⟩ := starts_statement h
    exact .of_starts hkind

end Starts

section Statements

variable {n : Nat} {statement : Parser Stmt} {block : Parser Block}

theorem yields_statementsAt (h : CompletesEnded n statement Stmt.bare (Statement true))
    {statements : List Stmt} {before after : List Kind}
    (hs : Statements true statements before after) {c : Cursor} {fuel : Nat}
    (hc : c.kinds = before) (hn : before.length ≤ n) (hfuel : before.length ≤ fuel) :
    Yields (statementsAt statement fuel) c fun ss next =>
      ss.map Stmt.bare = statements ∧ next.kinds = after := by
  induction fuel generalizing c statements before with
  | zero =>
    cases hs with
    | none => cases hfuel
    | more hs _ =>
      obtain ⟨kind, rest, rfl, -⟩ := starts_statement hs
      cases hfuel
  | succ fuel ih =>
    apply (yields_nextIs c _).bind
    rintro closed _ - ⟨hclosed, rfl⟩
    cases hs with
    | none =>
      refine .pos (hclosed.2 (by rw [hc]; rfl)) ?_
      apply (yields_consume hc).bind
      rintro mark next - ⟨-, hnext⟩
      exact .pure ⟨rfl, hnext⟩
    | more hs hrest =>
      obtain ⟨kind, rest, rfl, hkind⟩ := starts_statement hs
      refine .neg (fun hbrace => ?_) ?_
      · have hhead := hclosed.1 hbrace
        rw [hc] at hhead
        cases hhead
        cases hkind
      · apply Advances.yields
        apply (h c _ _ _ (hc ▸ hn) (hc ▸ hs) (ends_statements hrest _)).followed
        rintro s next hlength ⟨rfl, hnext⟩
        rw [hc, hnext] at hlength
        apply (ih hrest hnext (by omega) (by omega)).bind
        rintro ss last - ⟨rfl, hlast⟩
        exact .pure ⟨rfl, hlast⟩

theorem advances_contents (manual : Bool) (start : Location)
    (h : CompletesEnded n statement Stmt.bare (Statement true)) {statements : List Stmt}
    {dangling : Bool} {c : Cursor} {after : List Kind}
    (hs : Contents true statements dangling c.kinds after) (hends : Ends dangling after)
    (hn : c.kinds.length ≤ n ∨
      c.kinds.head? = some (.punctuator .leftBrace) ∧ c.kinds.length ≤ n + 1) :
    Advances (do
      if ← nextIsMark .leftBrace then
        let _ ← consume
        let statements ← bounded (statementsAt statement)
        return Block.mk ⟨start, ← position⟩ manual statements
      else
        let only ← statement
        return Block.mk ⟨start, ← position⟩ manual [only]) c
      fun b next => b.bare = .mk .origin manual statements ∧ next.kinds = after := by
  apply Advances.bind (yields_nextIs c _)
  rintro braced _ ⟨hbraced, rfl⟩
  generalize hbefore : c.kinds = before at hs hn hbraced
  cases hs with
  | braces hs =>
    rw [if_pos (hbraced.2 rfl)]
    apply (advances_consume hbefore).followed
    rintro mark next - ⟨-, hnext⟩
    rw [List.length_cons] at hn
    have hread : Yields (bounded (statementsAt statement)) next fun ss last =>
        ss.map Stmt.bare = statements ∧ last.kinds = after :=
      .bounded (yields_statementsAt h hs hnext (by omega) (Nat.le_of_eq (hnext ▸ rfl)))
    apply hread.bind
    rintro ss last - ⟨rfl, hlast⟩
    apply (yields_position last).bind
    rintro stop _ - rfl
    refine .pure ⟨?_, hlast⟩
    rw [Block.bare, Stmt.bareAll_eq_map]
  | only hbrace hs =>
    rw [if_neg fun hb => hbrace (hbraced.1 hb)]
    have hn' : before.length ≤ n := hn.resolve_right fun hn => hbrace hn.1
    apply (h c _ _ _ (hbefore ▸ hn') (hbefore ▸ hs) hends).followed
    rintro s next - ⟨rfl, hnext⟩
    apply (yields_position next).bind
    rintro stop _ - rfl
    exact .pure ⟨rfl, hnext⟩

/-- From at most `n` tokens, or one more where a body starts, the parser reads blocks. -/
def CompletesBlocks (n : Nat) (block : Parser Block) : Prop :=
  ∀ c b dangling rest, (c.kinds.length ≤ n ∨ OpensBody c.kinds ∧ c.kinds.length ≤ n + 1) →
    Single true b dangling c.kinds rest → Ends dangling rest →
    Advances block c fun b' next => b'.bare = b ∧ next.kinds = rest

theorem completes_blockOf (h : CompletesEnded n statement Stmt.bare (Statement true)) :
    CompletesBlocks n (blockOf statement) := by
  intro c b dangling after hn hb hends
  obtain ⟨kind, rest, hbefore, -⟩ := starts_single hb
  apply Advances.bind (yields_peek hbefore)
  rintro token _ ⟨-, rfl⟩
  apply Advances.bind (yields_nextIs c _)
  rintro manual _ ⟨hmanual, rfl⟩
  rcases hb.contents with ⟨statements, rest', rfl, hc, hs⟩ | ⟨statements, rfl, hmark, hs⟩
  · cases hmanual.2 (by rw [hc]; rfl)
    apply (advances_consume hc).followed
    rintro mark next - ⟨-, hnext⟩
    rw [hc, List.length_cons] at hn
    refine (advances_contents true token.start h (hnext ▸ hs) hends (.inl ?_)).yields
    rw [hnext]
    omega
  · have hfalse : manual = false := Bool.eq_false_iff.2 fun hm => hmark (hmanual.1 hm)
    cases hfalse
    refine advances_contents false token.start h hs hends ?_
    rcases hn with hn | ⟨hopens, hn⟩
    · exact .inl hn
    · exact .inr ⟨hopens.resolve_right hmark, hn⟩

theorem Ends.expression {dangling : Bool} {rest : List Kind} (h : Ends dangling rest) :
    Stops expressionStop rest :=
  h.stops.mono fun _ hkind => expressionStop_of_statementStop hkind

theorem Ends.no_expression {dangling : Bool} {rest : List Kind} (h : Ends dangling rest) :
    (rest[0]?.map canStartExpression).getD false = false := by
  cases rest with
  | nil => rfl
  | cons kind rest =>
    have hkind := h.stops kind rfl
    simp only [statementStop, Bool.and_eq_true, Bool.not_eq_true'] at hkind
    exact hkind.2

theorem yields_letAfter (start : Location) (allocate : Bool) {t : Ty} {name : String} {e : Expr}
    {c : Cursor} {middle after : List Kind}
    (ht : TypeName t c.kinds (.identifier name :: .punctuator .assignment :: middle))
    (he : Expression e middle after) (hstop : Stops expressionStop after) :
    Yields (letAfter start allocate) c fun s next =>
      s.bare = .let_ .origin allocate (.blank t) (.blank name) e none ∧ next.kinds = after := by
  apply (completes_type _ c _ _ (Nat.le_refl _) ht (.cons _ rfl)).bind
  rintro ty second - ⟨rfl, hsecond⟩
  apply (yields_expectName _ hsecond).bind
  rintro variable_ third - ⟨rfl, hthird⟩
  apply (yields_expectMark _ hthird).bind
  rintro _ next - hnext
  apply (completes_expression _ next _ _ (Nat.le_refl _) (hnext ▸ he) hstop).bind
  rintro value last - ⟨rfl, hlast⟩
  apply (yields_position last).bind
  rintro stop _ - rfl
  exact .pure ⟨rfl, hlast⟩

theorem yields_ifAfter (start : Location) (hblock : CompletesBlocks n block) {condition : Expr}
    {yes : Block} {dangling : Bool} {c : Cursor} {middle after : List Kind}
    (he : Expression condition c.kinds middle) (hyes : Single true yes dangling middle after)
    (hends : Ends true after) (hn : c.kinds.length ≤ n) :
    Yields (ifAfter start block) c fun s next =>
      s.bare = .if_ .origin condition yes ∧ next.kinds = after := by
  apply (completes_expression _ c _ _ (Nat.le_refl _) he (ends_single hyes true).expression).bind
  rintro condition next hlength ⟨rfl, hnext⟩
  apply (hblock next _ _ _ (.inl (Nat.le_trans hlength hn)) (hnext ▸ hyes)
    ⟨hends.stops, fun _ => hends.noElse rfl⟩).yields.bind
  rintro yes last - ⟨rfl, hlast⟩
  apply (yields_nextIs last _).bind
  rintro other _ - ⟨hother, rfl⟩
  refine .neg (fun h => hends.noElse rfl (hlast ▸ hother.1 h)) ?_
  apply (yields_position last).bind
  rintro stop _ - rfl
  exact .pure ⟨rfl, hlast⟩

theorem yields_ifElseAfter (start : Location) (hblock : CompletesBlocks n block)
    {condition : Expr} {yes no : Block} {dangling : Bool} {c : Cursor}
    {middle last after : List Kind} (he : Expression condition c.kinds middle)
    (hyes : Single true yes false middle (.keyword .else_ :: last))
    (hno : Single true no dangling last after) (hends : Ends dangling after)
    (hn : c.kinds.length ≤ n) :
    Yields (ifAfter start block) c fun s next =>
      s.bare = .ifElse .origin condition yes no ∧ next.kinds = after := by
  apply (completes_expression _ c _ _ (Nat.le_refl _) he (ends_single hyes true).expression).bind
  rintro condition next hlength ⟨rfl, hnext⟩
  apply (hblock next _ false _ (.inl (Nat.le_trans hlength hn)) (hnext ▸ hyes)
    ⟨.cons _ rfl, nofun⟩).yields.bind
  rintro yes second hlength' ⟨rfl, hsecond⟩
  apply (yields_nextIs second _).bind
  rintro other _ - ⟨hother, rfl⟩
  refine .pos (hother.2 (by rw [hsecond]; rfl)) ?_
  apply (yields_consume hsecond).bind
  rintro word third hlength'' ⟨-, hthird⟩
  apply (hblock third _ _ _ (.inl (by omega)) (hthird ▸ hno) hends).yields.bind
  rintro no final - ⟨rfl, hfinal⟩
  apply (yields_position final).bind
  rintro stop _ - rfl
  exact .pure ⟨rfl, hfinal⟩

theorem yields_forAfter (start : Location) (hblock : CompletesBlocks n block)
    {iterator : String} {first stop : Expr} {body : Block} {dangling : Bool} {c : Cursor}
    {before middle last after : List Kind}
    (hc : c.kinds = .identifier iterator :: .keyword .from_ :: before)
    (hfirst : Expression first before (.keyword .until_ :: middle))
    (hstop : Expression stop middle last) (hbody : Single true body dangling last after)
    (hends : Ends dangling after) (hn : c.kinds.length ≤ n) :
    Yields (forAfter start block) c fun s next =>
      s.bare = .for_ .origin (.blank iterator) first stop body none ∧ next.kinds = after := by
  apply (yields_expectName _ hc).bind
  rintro name second h₁ ⟨rfl, hsecond⟩
  apply (yields_expectWord _ hsecond).bind
  rintro _ third h₂ hthird
  apply (completes_expression _ third _ _ (Nat.le_refl _) (hthird ▸ hfirst) (.cons _ rfl)).bind
  rintro first fourth h₃ ⟨rfl, hfourth⟩
  apply (yields_expectWord _ hfourth).bind
  rintro _ fifth h₄ hfifth
  apply (completes_expression _ fifth _ _ (Nat.le_refl _) (hfifth ▸ hstop)
    (ends_single hbody true).expression).bind
  rintro stop next h₅ ⟨rfl, hnext⟩
  apply (hblock next _ _ _ (.inl (by omega)) (hnext ▸ hbody) hends).yields.bind
  rintro body final - ⟨rfl, hfinal⟩
  apply (yields_position final).bind
  rintro end_ _ - rfl
  exact .pure ⟨rfl, hfinal⟩

theorem completes_statementOver (hblock : CompletesBlocks n block) :
    CompletesEnded (n + 1) (statementOver block) Stmt.bare (Statement true) := by
  intro c s dangling after hn hs hends
  obtain ⟨kind, rest, hkinds, -⟩ := starts_statement hs
  apply Advances.bind (yields_peek hkinds)
  rintro token _ ⟨hkind, rfl⟩
  generalize hbefore : c.kinds = before at hs hn
  cases hs with
  | @let_ allocate _ _ _ _ _ _ ht he =>
    cases hkinds.symm.trans hbefore
    cases allocate
    · simp only [hkind]
      apply (advances_consume hbefore).followed
      rintro word next - ⟨-, hnext⟩
      exact yields_letAfter token.start false (hnext ▸ ht) he hends.expression
    · simp only [hkind]
      apply (advances_consume hbefore).followed
      rintro word next - ⟨-, hnext⟩
      exact yields_letAfter token.start true (hnext ▸ ht) he hends.expression
  | mut_ hp he =>
    cases hkinds.symm.trans hbefore
    simp only [hkind]
    apply (advances_consume hbefore).followed
    rintro word next - ⟨-, hnext⟩
    apply (completes_place (completes_expression _) starts_expression next _ _ (Nat.le_succ _)
      (hnext ▸ hp) (.cons _ rfl)).bind
    rintro target second - ⟨rfl, hsecond⟩
    apply (yields_expectMark _ hsecond).bind
    rintro _ third - hthird
    apply (completes_expression _ third _ _ (Nat.le_refl _) (hthird ▸ he) hends.expression).bind
    rintro value last - ⟨rfl, hlast⟩
    apply (yields_position last).bind
    rintro stop _ - rfl
    exact .pure ⟨rfl, hlast⟩
  | call he =>
    cases hkinds.symm.trans hbefore
    simp only [hkind]
    apply (advances_consume hbefore).followed
    rintro word next - ⟨-, hnext⟩
    apply (completes_expression _ next _ _ (Nat.le_refl _) (hnext ▸ he) hends.expression).bind
    rintro value last - ⟨rfl, hlast⟩
    apply (yields_position last).bind
    rintro stop _ - rfl
    exact .pure ⟨rfl, hlast⟩
  | collect he =>
    cases hkinds.symm.trans hbefore
    simp only [hkind]
    apply (advances_consume hbefore).followed
    rintro word next - ⟨-, hnext⟩
    apply (completes_expression _ next _ _ (Nat.le_refl _) (hnext ▸ he) hends.expression).bind
    rintro value last - ⟨rfl, hlast⟩
    apply (yields_position last).bind
    rintro stop _ - rfl
    exact .pure ⟨rfl, hlast⟩
  | returnValue he =>
    cases hkinds.symm.trans hbefore
    simp only [hkind]
    apply (advances_consume hbefore).followed
    rintro word next - ⟨-, hnext⟩
    apply (yields_ahead next 0).bind
    rintro found _ - ⟨rfl, rfl⟩
    obtain ⟨first, others, hfirst, hstarts⟩ := starts_expression _ _ _ he
    refine .pos (by rw [hnext, hfirst]; exact hstarts) ?_
    apply (completes_expression _ next _ _ (Nat.le_refl _) (hnext ▸ he) hends.expression).bind
    rintro value last - ⟨rfl, hlast⟩
    apply (yields_position last).bind
    rintro stop _ - rfl
    exact .pure ⟨rfl, hlast⟩
  | returnNothing =>
    cases hkinds.symm.trans hbefore
    simp only [hkind]
    apply (advances_consume hbefore).followed
    rintro word next - ⟨-, hnext⟩
    apply (yields_ahead next 0).bind
    rintro found _ - ⟨rfl, rfl⟩
    refine .neg (fun hstarts => ?_) ?_
    · rw [hnext, hends.no_expression] at hstarts
      cases hstarts
    · apply (yields_position next).bind
      rintro stop _ - rfl
      exact .pure ⟨rfl, hnext⟩
  | break_ =>
    cases hkinds.symm.trans hbefore
    simp only [hkind]
    apply (advances_consume hbefore).followed
    rintro word next - ⟨-, hnext⟩
    apply (yields_position next).bind
    rintro stop _ - rfl
    exact .pure ⟨rfl, hnext⟩
  | continue_ =>
    cases hkinds.symm.trans hbefore
    simp only [hkind]
    apply (advances_consume hbefore).followed
    rintro word next - ⟨-, hnext⟩
    apply (yields_position next).bind
    rintro stop _ - rfl
    exact .pure ⟨rfl, hnext⟩
  | if_ he hyes =>
    cases hkinds.symm.trans hbefore
    simp only [hkind]
    apply (advances_consume hbefore).followed
    rintro word next - ⟨-, hnext⟩
    rw [List.length_cons] at hn
    exact yields_ifAfter token.start hblock (hnext ▸ he) hyes hends
      (hnext ▸ Nat.le_of_succ_le_succ hn)
  | ifElse he hyes hinner hno =>
    cases hkinds.symm.trans hbefore
    simp only [hkind]
    apply (advances_consume hbefore).followed
    rintro word next - ⟨-, hnext⟩
    rw [List.length_cons] at hn
    cases hinner rfl
    exact yields_ifElseAfter token.start hblock (hnext ▸ he) hyes hno hends
      (hnext ▸ Nat.le_of_succ_le_succ hn)
  | while_ he hbody =>
    cases hkinds.symm.trans hbefore
    simp only [hkind]
    apply (advances_consume hbefore).followed
    rintro word next - ⟨-, hnext⟩
    rw [List.length_cons] at hn
    apply (completes_expression _ next _ _ (Nat.le_refl _) (hnext ▸ he)
      (ends_single hbody true).expression).bind
    rintro condition second hlength ⟨rfl, hsecond⟩
    rw [hnext] at hlength
    apply (hblock second _ _ _ (.inl (by omega)) (hsecond ▸ hbody) hends).yields.bind
    rintro body last - ⟨rfl, hlast⟩
    apply (yields_position last).bind
    rintro stop _ - rfl
    exact .pure ⟨rfl, hlast⟩
  | doWhile hbody he =>
    cases hkinds.symm.trans hbefore
    simp only [hkind]
    apply (advances_consume hbefore).followed
    rintro word next - ⟨-, hnext⟩
    rw [List.length_cons] at hn
    apply (hblock next _ _ _ (.inl (hnext ▸ Nat.le_of_succ_le_succ hn)) (hnext ▸ hbody)
      (.of_starts rfl)).yields.bind
    rintro body second - ⟨rfl, hsecond⟩
    apply (yields_expectWord _ hsecond).bind
    rintro _ third - hthird
    apply (completes_expression _ third _ _ (Nat.le_refl _) (hthird ▸ he) hends.expression).bind
    rintro condition last - ⟨rfl, hlast⟩
    apply (yields_position last).bind
    rintro stop _ - rfl
    exact .pure ⟨rfl, hlast⟩
  | for_ hfirst hstop hbody =>
    cases hkinds.symm.trans hbefore
    simp only [hkind]
    apply (advances_consume hbefore).followed
    rintro word next - ⟨-, hnext⟩
    rw [List.length_cons] at hn
    exact yields_forAfter token.start hblock hnext hfirst hstop hbody hends
      (hnext ▸ Nat.le_of_succ_le_succ hn)
  | @body b _ _ _ hb =>
    have hopens := hb.opensBody
    rw [← hbefore] at hb hn hopens
    have hread : Advances (do
        let body ← block
        return Stmt.block ⟨token.start, ← position⟩ body) c fun s next =>
          s.bare = .block .origin b ∧ next.kinds = after := by
      apply (hblock c _ _ _ (.inr ⟨hopens, hn⟩) (.body hb) hends).followed
      rintro body last - ⟨rfl, hlast⟩
      apply (yields_position last).bind
      rintro stop _ - rfl
      exact .pure ⟨rfl, hlast⟩
    rw [hkinds] at hopens
    rcases hopens with hopens | hopens
    · cases hopens
      simp only [hkind]
      exact hread
    · cases hopens
      simp only [hkind]
      exact hread

end Statements

theorem completes_statementAt (n : Nat) :
    CompletesEnded n (statementAt n) Stmt.bare (Statement true) := by
  induction n with
  | zero =>
    intro c s dangling after hn hs
    obtain ⟨kind, rest, hc, -⟩ := starts_statement hs
    simp [hc] at hn
  | succ n ih => exact completes_statementOver (completes_blockOf ih)

theorem yields_block {c : Cursor} {b : Block} {dangling : Bool} {after : List Kind}
    (hb : Single true b dangling c.kinds after) (hends : Ends dangling after) :
    Yields block c fun b' next => b'.bare = b ∧ next.kinds = after := by
  have hread := completes_blockOf (completes_statementAt c.kinds.length) c b dangling after
    (.inl (Nat.le_refl _)) hb hends
  exact Yields.bounded (p := fun n => blockOf (statementAt n)) hread.yields

/-! ### Declarations -/

/-- The tokens that a declaration starts with. -/
def declarationStop : Kind → Bool
  | .keyword word => word.startsDeclaration
  | _ => false

theorem statementStop_of_declarationStop {kind : Kind} (h : declarationStop kind = true) :
    statementStop kind = true := by
  unfold declarationStop Keyword.startsDeclaration at h
  split at h
  · split at h <;> first | rfl | cases h
  · cases h

theorem yields_resultType {c : Cursor} {t : Ty} {after : List Kind}
    (h : Result t c.kinds after) (hstop : Stops typeStop after)
    (hname : ∀ name, after.head? ≠ some (.identifier name)) :
    Yields resultType c fun u next => u.value = t ∧ next.kinds = after := by
  apply (yields_ahead c 0).bind
  rintro found _ - ⟨rfl, rfl⟩
  generalize hbefore : c.kinds = before at h
  cases h with
  | none =>
    split
    · rename_i name hnext
      exact absurd (List.head?_eq_getElem?.trans hnext) (hname name)
    · apply (yields_position c).bind
      rintro here _ - rfl
      exact .pure ⟨rfl, hbefore⟩
  | some ht =>
    have hread := completes_type _ c _ _ (Nat.le_refl _) (hbefore ▸ ht) hstop
    obtain ⟨name, rest, rfl, -⟩ := yields_modifiers ht
    exact hread

theorem completes_parameter (n : Nat) :
    Completes n parameter Parameter.bare TypedParameter fun _ => true := by
  intro c p after _ hp _
  generalize hbefore : c.kinds = before at hp
  cases hp with
  | mk ht =>
    apply (completes_type _ c _ _ (Nat.le_refl _) (hbefore ▸ ht) (.cons _ rfl)).bind
    rintro ty next - ⟨rfl, hnext⟩
    apply (yields_expectName _ hnext).bind
    rintro name last - ⟨rfl, hlast⟩
    exact .pure ⟨rfl, hlast⟩

theorem completes_member (n : Nat) :
    Completes n member RecordMember.bare Member fun _ => true := by
  intro c m after _ hm _
  generalize hbefore : c.kinds = before at hm
  cases hm with
  | mk ht =>
    apply (completes_type _ c _ _ (Nat.le_refl _) (hbefore ▸ ht) (.cons _ rfl)).bind
    rintro ty next - ⟨rfl, hnext⟩
    apply (yields_expectName _ hnext).bind
    rintro name last - ⟨rfl, hlast⟩
    exact .pure ⟨rfl, hlast⟩

theorem completesItem_foreignParameter (n : Nat) :
    CompletesItem n foreignParameter ForeignParameter.bare Foreign .rightParen := by
  intro c p mark rest hmark _ hp
  apply (yields_nextIs c _).bind
  rintro variadic _ - ⟨hvariadic, rfl⟩
  have hstop : ∀ rest, Stops typeStop (.punctuator mark :: rest) := by
    intro rest
    rcases hmark with rfl | rfl <;> exact .cons _ rfl
  have htyped : ∀ {t after}, TypeName t c.kinds after →
      c.kinds.head? ≠ some (.punctuator .asterisk) := by
    intro t after ht
    obtain ⟨name, others, hc, -⟩ := yields_modifiers ht
    rw [hc]
    nofun
  generalize hafter : Kind.punctuator mark :: rest = after at hp
  generalize hbefore : c.kinds = before at hp hvariadic htyped
  cases hp with
  | unnamed ht =>
    refine .neg (fun h => htyped ht (hvariadic.1 h)) ?_
    apply (completes_type _ c _ _ (Nat.le_refl _) (hbefore ▸ ht) (hafter ▸ hstop rest)).bind
    rintro ty next - ⟨rfl, hnext⟩
    apply (yields_peek (hnext.trans hafter.symm)).bind
    rintro token _ - ⟨hkind, rfl⟩
    rw [hkind]
    exact .pure ⟨rfl, hnext⟩
  | named ht =>
    refine .neg (fun h => htyped ht (hvariadic.1 h)) ?_
    apply (completes_type _ c _ _ (Nat.le_refl _) (hbefore ▸ ht) (.cons _ rfl)).bind
    rintro ty next - ⟨rfl, hnext⟩
    apply (yields_peek hnext).bind
    rintro token _ - ⟨hkind, rfl⟩
    rw [hkind]
    apply (yields_consume hnext).bind
    rintro name last - ⟨-, hlast⟩
    exact .pure ⟨rfl, hlast⟩
  | variadic =>
    refine .pos (hvariadic.2 rfl) ?_
    apply (yields_consume hbefore).bind
    rintro mark next - ⟨-, hnext⟩
    exact .pure ⟨rfl, hnext⟩

def startsParameter : Kind → Bool
  | .identifier _ | .punctuator .asterisk => true
  | _ => false

theorem starts_typedParameter : Starts startsParameter TypedParameter := by
  intro p before after hp
  cases hp with
  | mk ht => exact starts_typeName (fun _ => rfl) _ _ _ ht

theorem starts_member : Starts startsParameter Member := by
  intro m before after hm
  cases hm with
  | mk ht => exact starts_typeName (fun _ => rfl) _ _ _ ht

theorem starts_foreign : Starts startsParameter Foreign := by
  intro p before after hp
  cases hp with
  | unnamed ht => exact starts_typeName (fun _ => rfl) _ _ _ ht
  | named ht => exact starts_typeName (fun _ => rfl) _ _ _ ht
  | variadic => exact ⟨_, _, rfl, rfl⟩

theorem completes_parameters (n : Nat) :
    Completes n (items parameter .rightParen "parameter") (List.map Parameter.bare)
      (Listed TypedParameter .rightParen) fun _ => true :=
  completes_items ((completes_parameter n).inList rfl rfl) starts_typedParameter rfl (by decide)

theorem completes_foreignParameters (n : Nat) :
    Completes n (items foreignParameter .rightParen "foreign parameter")
      (List.map ForeignParameter.bare) (Listed Foreign .rightParen) fun _ => true :=
  completes_items (completesItem_foreignParameter n) starts_foreign rfl (by decide)

theorem completes_members (n : Nat) :
    Completes n (trailingItems member .rightBrace "record member") (List.map RecordMember.bare)
      (Trailing Member .rightBrace) fun _ => true :=
  completes_trailingItems ((completes_member n).inList rfl rfl) starts_member rfl (by decide)

theorem yields_functionAfter (start : Location) {name : String} {parameters : List Parameter}
    {result : Ty} {body : Block} {dangling : Bool} {c : Cursor}
    {before middle last after : List Kind}
    (hc : c.kinds = .identifier name :: .punctuator .leftParen :: before)
    (hparameters : Listed TypedParameter .rightParen parameters before middle)
    (hresult : Result result middle last) (hbody : Body true body dangling last after)
    (hends : Ends dangling after) :
    Yields (functionAfter start) c fun f next =>
      f.bare = ⟨.origin, .blank name, parameters, .blank result, body, .empty⟩ ∧
        next.kinds = after := by
  apply (yields_expectName _ hc).bind
  rintro name second - ⟨rfl, hsecond⟩
  apply (yields_expectMark _ hsecond).bind
  rintro _ third - hthird
  apply (completes_parameters _ third _ _ (Nat.le_refl _) (hthird ▸ hparameters)
    fun _ _ => rfl).bind
  rintro parameters fourth - ⟨rfl, hfourth⟩
  obtain ⟨kind, rest, rfl, hkind⟩ := starts_single (.body hbody)
  have hopens := hbody.opensBody
  have hread : Yields resultType fourth fun t next =>
      t.value = result ∧ next.kinds = kind :: rest := by
    refine yields_resultType (hfourth ▸ hresult) ?_ ?_
    · rcases hopens with hopens | hopens <;> cases hopens <;> exact .cons _ rfl
    · rintro name ⟨⟩
      cases hkind
  apply hread.bind
  rintro result fifth - ⟨rfl, hfifth⟩
  apply (yields_peek hfifth).bind
  rintro token _ - ⟨hkind, rfl⟩
  refine .neg ?_ ?_
  · rintro ⟨hbrace, hmark⟩
    rcases hopens with hopens | hopens <;> cases hopens
    · exact hbrace hkind
    · exact hmark hkind
  · rw [← hfifth] at hbody
    apply (yields_block (.body hbody) hends).bind
    rintro body final - ⟨rfl, hfinal⟩
    apply (yields_position final).bind
    rintro stop _ - rfl
    exact .pure ⟨rfl, hfinal⟩

theorem yields_linkName {link : Option (Located String)} {c : Cursor} {rest : List Kind}
    (h : LinkName link c.kinds (.punctuator .leftParen :: rest)) :
    Yields linkName c fun l next =>
      l.map Located.bare = link ∧ next.kinds = .punctuator .leftParen :: rest := by
  apply (yields_nextIs c _).bind
  rintro answer _ - ⟨hanswer, rfl⟩
  generalize hbefore : c.kinds = before at h hanswer
  generalize hafter : Kind.punctuator .leftParen :: rest = after at h
  cases h with
  | none =>
    refine .neg (fun hfrom => ?_) (.pure ⟨rfl, hbefore⟩)
    rw [← hafter] at hanswer
    cases hanswer.1 hfrom
  | some =>
    refine .pos (hanswer.2 rfl) ?_
    apply (yields_consume hbefore).bind
    rintro word second - ⟨-, hsecond⟩
    apply (yields_expectName _ hsecond).bind
    rintro name last - ⟨rfl, hlast⟩
    exact .pure ⟨rfl, hlast⟩

theorem yields_foreignAfter (start : Location) {name : String} {link : Option (Located String)}
    {parameters : List ForeignParameter} {result : Ty} {c : Cursor}
    {before middle last after : List Kind} (hc : c.kinds = .identifier name :: before)
    (hlink : LinkName link before (.punctuator .leftParen :: middle))
    (hparameters : Listed Foreign .rightParen parameters middle last)
    (hresult : Result result last after) (hstop : Stops declarationStop after) :
    Yields (foreignAfter start) c fun f next =>
      f.bare = ⟨.origin, .blank name, link, parameters, .blank result⟩ ∧ next.kinds = after := by
  apply (yields_expectName _ hc).bind
  rintro name second - ⟨rfl, hsecond⟩
  apply (yields_linkName (hsecond ▸ hlink)).bind
  rintro link third - ⟨rfl, hthird⟩
  apply (yields_expectMark _ hthird).bind
  rintro _ fourth - hfourth
  apply (completes_foreignParameters _ fourth _ _ (Nat.le_refl _) (hfourth ▸ hparameters)
    fun _ _ => rfl).bind
  rintro parameters fifth - ⟨rfl, hfifth⟩
  have hread : Yields resultType fifth fun t next => t.value = result ∧ next.kinds = after := by
    refine yields_resultType (hfifth ▸ hresult) (hstop.mono fun kind hkind => ?_) ?_
    · unfold declarationStop at hkind
      split at hkind
      · rfl
      · cases hkind
    · intro name hname
      cases hstop _ hname
  apply hread.bind
  rintro result last - ⟨rfl, hlast⟩
  apply (yields_position last).bind
  rintro stop _ - rfl
  exact .pure ⟨rfl, hlast⟩

theorem yields_recordAfter (start : Location) {name : String} {members : List RecordMember}
    {c : Cursor} {before after : List Kind}
    (hc : c.kinds = .identifier name :: .punctuator .leftBrace :: before)
    (hmembers : Trailing Member .rightBrace members before after) :
    Yields (recordAfter start) c fun r next =>
      r.bare = ⟨.origin, .blank name, members⟩ ∧ next.kinds = after := by
  apply (yields_expectName _ hc).bind
  rintro name second - ⟨rfl, hsecond⟩
  apply (yields_expectMark _ hsecond).bind
  rintro _ third - hthird
  apply (completes_members _ third _ _ (Nat.le_refl _) (hthird ▸ hmembers) fun _ _ => rfl).bind
  rintro members last - ⟨rfl, hlast⟩
  apply (yields_position last).bind
  rintro stop _ - rfl
  exact .pure ⟨rfl, hlast⟩

theorem yields_embedAfter (start : Location) {path name : String} {c : Cursor}
    {after : List Kind}
    (hc : c.kinds = .string path :: .keyword .as_ :: .identifier name :: after) :
    Yields (embedAfter start) c fun e next =>
      e.bare = ⟨.origin, .blank path, .blank name, none⟩ ∧ next.kinds = after := by
  apply (yields_expectString _ hc).bind
  rintro path second - ⟨rfl, hsecond⟩
  apply (yields_expectWord _ hsecond).bind
  rintro _ third - hthird
  apply (yields_expectName _ hthird).bind
  rintro name last - ⟨rfl, hlast⟩
  apply (yields_position last).bind
  rintro stop _ - rfl
  exact .pure ⟨rfl, hlast⟩

theorem yields_declaration {d : Declaration} {c : Cursor} {after : List Kind}
    (hd : Declared true d c.kinds after) (hstop : Stops declarationStop after) :
    Yields declaration c fun d' next => d'.bare = d ∧ next.kinds = after := by
  generalize hbefore : c.kinds = before at hd
  cases hd with
  | function hparameters hresult hbody =>
    apply (yields_consume hbefore).bind
    rintro word next - ⟨hword, hnext⟩
    rw [hword]
    have hends : ∀ dangling, Ends dangling after := by
      intro dangling
      refine ⟨hstop.mono fun _ => statementStop_of_declarationStop, fun _ helse => ?_⟩
      cases hstop _ helse
    apply (yields_functionAfter word.start hnext hparameters hresult hbody (hends _)).bind
    rintro f last - ⟨hf, hlast⟩
    exact .pure ⟨congrArg Declaration.function hf, hlast⟩
  | foreign hlink hparameters hresult =>
    apply (yields_consume hbefore).bind
    rintro word next - ⟨hword, hnext⟩
    rw [hword]
    apply (yields_foreignAfter word.start hnext hlink hparameters hresult hstop).bind
    rintro f last - ⟨hf, hlast⟩
    exact .pure ⟨congrArg Declaration.foreign hf, hlast⟩
  | record hmembers =>
    apply (yields_consume hbefore).bind
    rintro word next - ⟨hword, hnext⟩
    rw [hword]
    apply (yields_recordAfter word.start hnext hmembers).bind
    rintro r last - ⟨hr, hlast⟩
    exact .pure ⟨congrArg Declaration.record hr, hlast⟩
  | link =>
    apply (yields_consume hbefore).bind
    rintro word next - ⟨hword, hnext⟩
    rw [hword]
    apply (yields_expectString _ hnext).bind
    rintro library last - ⟨rfl, hlast⟩
    exact .pure ⟨rfl, hlast⟩
  | embed =>
    apply (yields_consume hbefore).bind
    rintro word next - ⟨hword, hnext⟩
    rw [hword]
    apply (yields_embedAfter word.start hnext).bind
    rintro e last - ⟨he, hlast⟩
    exact .pure ⟨congrArg Declaration.embed he, hlast⟩

theorem stops_declarations {ds : List Declaration} {tokens : List Kind}
    (h : Declarations true ds tokens) : Stops declarationStop tokens := by
  cases h with
  | none => nofun
  | more h _ => cases h <;> exact .cons _ rfl

theorem declarationsAt_complete {n : Nat} {c : Cursor} {ds : List Declaration}
    (hn : c.kinds.length ≤ n) (h : Declarations true ds c.kinds) :
    ∃ ds', declarationsAt n c = (ds', []) ∧ ds'.map Declaration.bare = ds := by
  induction n generalizing c ds with
  | zero =>
    refine ⟨[], rfl, ?_⟩
    rw [List.eq_nil_of_length_eq_zero (Nat.le_zero.1 hn)] at h
    generalize hnil : ([] : List Kind) = tokens at h
    cases h with
    | none => rfl
    | more h _ =>
      cases hnil
      cases h
  | succ n ih =>
    unfold declarationsAt
    generalize htokens : c.kinds = tokens at h
    cases h with
    | none =>
      refine ⟨[], ?_, rfl⟩
      rw [if_pos]
      exact List.isEmpty_iff.2 (List.map_eq_nil_iff.1 htokens)
    | more hd hds =>
      obtain ⟨d, next, hread, -, rfl, hnext⟩ :=
        yields_declaration (htokens ▸ hd) (stops_declarations hds)
      have hlength := (derives_declaration c d next hread).2.1
      obtain ⟨ds', hrun, rfl⟩ := ih (c := next) (by omega) (hnext ▸ hds)
      refine ⟨d :: ds', ?_, rfl⟩
      rw [if_neg, hread]
      · simp only [hrun]
      · intro hempty
        rw [Cursor.length_kinds c, List.isEmpty_iff.1 hempty] at hlength
        cases hlength

end RegionCompiler.Parse
