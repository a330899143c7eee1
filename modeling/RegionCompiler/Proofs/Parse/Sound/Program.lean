import RegionCompiler.Proofs.Parse.Sound.Expr

/-! Statements and declarations that are read derive from the grammar, with every `else` at the
nearest `if`. -/
namespace RegionCompiler.Parse

open Grammar

open Token (Kind)

/-- No `else` that could belong to what was read is left after it. -/
def Settled {α : Type} (D : α → Bool → List Kind → List Kind → Prop) : Grammar α :=
  fun x before after => ∃ dangling, D x dangling before after ∧
    (dangling = true → after.head? ≠ some (.keyword .else_))

theorem Settled.closed {α : Type} {D : α → Bool → List Kind → List Kind → Prop} {x : α}
    {before after : List Kind} (h : D x false before after) : Settled D x before after :=
  ⟨false, h, fun hdangling => absurd hdangling Bool.false_ne_true⟩

def OpensBody (tokens : List Kind) : Prop :=
  tokens.head? = some (.punctuator .leftBrace) ∨
    tokens.head? = some (.punctuator .doubleAmpersand)

/-- The statements of a block whose mark, if there is one, was read: they stand in braces, or there
is only one. -/
inductive Contents (nearest : Bool) : List Stmt → Bool → List Kind → List Kind → Prop
  | braces {statements before after} : Statements nearest statements before after →
      Contents nearest statements false (.punctuator .leftBrace :: before) after
  | only {s dangling before after} : before.head? ≠ some (.punctuator .leftBrace) →
      Statement nearest s dangling before after → Contents nearest [s] dangling before after

end RegionCompiler.Parse

namespace RegionCompiler.Grammar

open Parse (OpensBody Contents)

open Token (Kind)

variable {nearest dangling : Bool} {s : Stmt} {statements : List Stmt} {b : Block}
  {before after : List Kind}

theorem Body.opensBody (h : Body nearest b dangling before after) : OpensBody before := by
  cases h with
  | braces h => exact .inl rfl
  | manual h => exact .inr rfl

theorem Statement.asBlock_eq (h : Statement nearest s dangling before after)
    (hopens : ¬OpensBody before) : s.asBlock = .mk .origin false [s] := by
  cases h with
  | body hbody => exact absurd hbody.opensBody hopens
  | _ => rfl

theorem Block.marked_marked (b : Block) :
    b.marked.marked = .mk .origin true [.block .origin b.marked] := by
  obtain ⟨span, manual, statements⟩ := b
  cases manual <;> rfl

theorem Statement.asBlock_marked (h : Statement nearest s dangling before after)
    (hbrace : before.head? ≠ some (.punctuator .leftBrace)) :
    s.asBlock.marked = .mk .origin true [s] := by
  cases h with
  | body hbody =>
    cases hbody with
    | braces _ => exact absurd rfl hbrace
    | manual _ => exact Block.marked_marked _
  | _ => rfl

theorem Single.of_contents (h : Contents nearest statements dangling before after)
    (hmark : before.head? ≠ some (.punctuator .doubleAmpersand)) :
    Single nearest (.mk .origin false statements) dangling before after := by
  cases h with
  | braces h => exact .body (.braces h)
  | only hbrace h =>
    rw [← h.asBlock_eq fun hopens => hopens.elim hbrace hmark]
    exact .statement h

theorem Single.of_marked (h : Contents nearest statements dangling before after) :
    Single nearest (.mk .origin true statements) dangling
      (.punctuator .doubleAmpersand :: before) after := by
  cases h with
  | braces h => exact .body (.manual (.body (.braces h)))
  | only hbrace h =>
    rw [← h.asBlock_marked hbrace]
    exact .body (.manual (.statement h))

theorem Single.toBody (h : Single nearest b dangling before after) (hopens : OpensBody before) :
    Body nearest b dangling before after := by
  cases h with
  | body h => exact h
  | statement h =>
    cases h with
    | body h => exact h
    | _ => exact absurd hopens (by simp [OpensBody])

end RegionCompiler.Grammar

namespace RegionCompiler.Parse

open Grammar

open Token (Kind)

section Statements

variable {statement : Parser Stmt} {block : Parser Block}

theorem derives_statementsAt
    (h : Derives statement fun s => Settled (Statement true) s.bare) (n : Nat) :
    Derives (statementsAt statement n) fun ss => Statements true (ss.map Stmt.bare) := by
  induction n with
  | zero => exact .throw
  | succ n ih =>
    refine (derives_nextIs _).bind fun closed => .ite (fun hclosed => ?_) fun _ => ?_
    · exact .confirmed hclosed fun _ => .pure fun after => .none
    · refine h.bind fun first => ih.bind fun rest => .pure ?_
      rintro after middle hrest before ⟨dangling, hfirst, -⟩ _ ⟨rfl, -⟩
      exact .more hfirst hrest

theorem derives_contents (manual : Bool) (start : Location)
    (h : Derives statement fun s => Settled (Statement true) s.bare) :
    Derives (do
      if ← nextIsMark .leftBrace then
        let _ ← consume
        let statements ← bounded (statementsAt statement)
        return Block.mk ⟨start, ← position⟩ manual statements
      else
        let only ← statement
        return Block.mk ⟨start, ← position⟩ manual [only])
      fun b before after => ∃ statements, b.bare = .mk .origin manual statements ∧
        Settled (Contents true) statements before after := by
  refine (derives_nextIs _).bind fun braced => .ite (fun hbraced => ?_) fun hbraced => ?_
  · refine .confirmed hbraced fun _ =>
      (Derives.bounded fun n => derives_statementsAt h n).bind fun statements =>
        derives_position.bind fun stop => .pure ?_
    rintro after _ rfl before hstatements
    rw [Block.bare, Stmt.bareAll_eq_map]
    exact ⟨_, rfl, .closed (.braces hstatements)⟩
  · refine h.bind fun only => derives_position.bind fun stop => .pure ?_
    rintro after _ rfl before ⟨dangling, honly, helse⟩ _ ⟨rfl, hnext⟩
    exact ⟨_, rfl, dangling, .only (fun hbrace => hbraced (hnext.2 hbrace)) honly, helse⟩

theorem derives_blockOf (h : Derives statement fun s => Settled (Statement true) s.bare) :
    Derives (blockOf statement) fun b => Settled (Single true) b.bare := by
  refine derives_peek.bind fun token => (derives_nextIs _).bind fun manual => ?_
  cases manual with
  | true =>
    refine .confirmed rfl fun _ => (derives_contents true token.start h).mono ?_
    rintro b before after ⟨statements, hbare, dangling, hcontents, helse⟩ _ ⟨rfl, -⟩
    rw [hbare]
    exact ⟨dangling, .of_marked hcontents, helse⟩
  | false =>
    refine (derives_contents false token.start h).mono ?_
    rintro b before after ⟨statements, hbare, dangling, hcontents, helse⟩ _ ⟨rfl, hnext⟩ _
      ⟨rfl, -⟩
    rw [hbare]
    refine ⟨dangling, .of_contents hcontents fun hmark => ?_, helse⟩
    cases hnext.2 hmark

theorem derives_letAfter (start : Location) (allocate : Bool) :
    Derives (letAfter start allocate) fun s before after =>
      Settled (Statement true) s.bare (.keyword (.ofLet allocate) :: before) after := by
  refine derives_type.bind fun ty => (derives_expectName _).bind fun name =>
    (derives_expectMark _ _).bind fun _ => derives_expression.bind fun value =>
      derives_position.bind fun stop => .pure ?_
  rintro after _ rfl middle hvalue _ rfl _ rfl before hty
  exact .closed (.let_ hty hvalue)

theorem derives_forAfter (start : Location)
    (h : Derives block fun b => Settled (Single true) b.bare) :
    Derives (forAfter start block) fun s before after =>
      Settled (Statement true) s.bare (.keyword .for_ :: before) after := by
  refine (derives_expectName _).bind fun iterator => (derives_expectWord _ _).bind fun _ =>
    derives_expression.bind fun first => (derives_expectWord _ _).bind fun _ =>
      derives_expression.bind fun last => h.bind fun body =>
        derives_position.bind fun stop => .pure ?_
  rintro after _ rfl rest ⟨dangling, hbody, helse⟩ middle hlast _ rfl before hfirst _ rfl _ rfl
  exact ⟨dangling, .for_ hfirst hlast hbody, helse⟩

theorem derives_ifAfter (start : Location)
    (h : Derives block fun b => Settled (Single true) b.bare) :
    Derives (ifAfter start block) fun s before after =>
      Settled (Statement true) s.bare (.keyword .if_ :: before) after := by
  refine derives_expression.bind fun condition => h.bind fun yes =>
    (derives_nextIs _).bind fun other => .ite (fun hother => ?_) fun hother => ?_
  · refine .confirmed hother fun _ => h.bind fun no =>
      derives_position.bind fun stop => .pure ?_
    rintro after _ rfl last ⟨dangling, hno, helse⟩ middle ⟨inner, hyes, hinner⟩ before hcondition
    refine ⟨dangling, .ifElse hcondition hyes (fun _ => ?_) hno, helse⟩
    -- An inner `if` would have taken this `else`.
    exact Bool.eq_false_iff.2 fun hdangling => hinner hdangling rfl
  · refine derives_position.bind fun stop => .pure ?_
    rintro after _ rfl _ ⟨rfl, hnext⟩ middle ⟨inner, hyes, -⟩ before hcondition
    exact ⟨true, .if_ hcondition hyes, fun _ helse => hother (hnext.2 helse)⟩

theorem derives_body {token : Token} {start : Location} {kind : Kind} (hkind : token.kind = kind)
    (hopens : ∀ tokens, tokens.head? = some kind → OpensBody tokens)
    (h : Derives block fun b => Settled (Single true) b.bare) :
    Derives (do
      let body ← block
      return Stmt.block ⟨start, ← position⟩ body) fun s middle after => ∀ before,
        middle = before ∧ before.head? = some token.kind →
          Settled (Statement true) s.bare before after := by
  refine h.bind fun body => derives_position.bind fun stop => .pure ?_
  rintro after _ rfl before ⟨dangling, hbody, helse⟩ _ ⟨rfl, hnext⟩
  rw [hkind] at hnext
  exact ⟨dangling, .body (hbody.toBody (hopens _ hnext)), helse⟩

theorem derives_statementOver (h : Derives block fun b => Settled (Single true) b.bare) :
    Derives (statementOver block) fun s => Settled (Statement true) s.bare := by
  refine derives_peek.bind fun token => ?_
  dsimp only
  split
  · exact .peeked ‹_› fun _ => derives_letAfter token.start false
  · exact .peeked ‹_› fun _ => derives_letAfter token.start true
  · refine .peeked ‹_› fun _ => (derives_place derives_expression).bind fun target =>
      (derives_expectMark _ _).bind fun _ => derives_expression.bind fun value =>
        derives_position.bind fun stop => .pure ?_
    rintro after _ rfl middle hvalue _ rfl before htarget
    exact .closed (.mut_ htarget hvalue)
  · refine .peeked ‹_› fun _ => derives_expression.bind fun value =>
      derives_position.bind fun stop => .pure ?_
    rintro after _ rfl before hvalue
    exact .closed (.call hvalue)
  · refine .peeked ‹_› fun _ => derives_expression.bind fun value =>
      derives_position.bind fun stop => .pure ?_
    rintro after _ rfl before hvalue
    exact .closed (.collect hvalue)
  · refine .peeked ‹_› fun _ => (derives_ahead 0).bind fun next =>
      .ite (fun _ => ?_) fun _ => ?_
    · refine derives_expression.bind fun value => derives_position.bind fun stop => .pure ?_
      rintro after _ rfl before hvalue _ ⟨rfl, -⟩
      exact .closed (.returnValue hvalue)
    · refine derives_position.bind fun stop => .pure ?_
      rintro after _ rfl _ ⟨rfl, -⟩
      exact .closed .returnNothing
  · refine .peeked ‹_› fun _ => derives_position.bind fun stop => .pure ?_
    rintro after _ rfl
    exact .closed .break_
  · refine .peeked ‹_› fun _ => derives_position.bind fun stop => .pure ?_
    rintro after _ rfl
    exact .closed .continue_
  · exact .peeked ‹_› fun _ => derives_ifAfter token.start h
  · refine .peeked ‹_› fun _ => derives_expression.bind fun condition =>
      h.bind fun body => derives_position.bind fun stop => .pure ?_
    rintro after _ rfl middle ⟨dangling, hbody, helse⟩ before hcondition
    exact ⟨dangling, .while_ hcondition hbody, helse⟩
  · refine .peeked ‹_› fun _ => h.bind fun body =>
      (derives_expectWord _ _).bind fun _ => derives_expression.bind fun condition =>
        derives_position.bind fun stop => .pure ?_
    rintro after _ rfl middle hcondition _ rfl before ⟨dangling, hbody, -⟩
    exact .closed (.doWhile hbody hcondition)
  · exact .peeked ‹_› fun _ => derives_forAfter token.start h
  · exact derives_body ‹_› (fun _ hopens => .inl hopens) h
  · exact derives_body ‹_› (fun _ hopens => .inr hopens) h
  · exact derives_consume.bind fun t => .fail

theorem derives_statementAt (n : Nat) :
    Derives (statementAt n) fun s => Settled (Statement true) s.bare := by
  induction n with
  | zero => exact .throw
  | succ n ih => exact derives_statementOver (derives_blockOf ih)

end Statements

theorem derives_block : Derives block fun b => Settled (Single true) b.bare :=
  .bounded fun n => derives_blockOf (derives_statementAt n)

/-! ### Declarations -/

theorem derives_resultType : Derives resultType fun t => Result t.value := by
  refine (derives_ahead 0).bind fun next => ?_
  split
  · refine derives_type.mono ?_
    rintro t before after ht _ ⟨rfl, -⟩
    exact .some ht
  · refine derives_position.bind fun here => .pure ?_
    rintro after _ rfl _ ⟨rfl, -⟩
    exact .none

theorem derives_parameter : Derives parameter fun p => TypedParameter p.bare := by
  refine derives_type.bind fun ty => (derives_expectName _).bind fun name => .pure ?_
  rintro after _ rfl before hty
  exact .mk hty

theorem derives_member : Derives member fun m => Member m.bare := by
  refine derives_type.bind fun ty => (derives_expectName _).bind fun name => .pure ?_
  rintro after _ rfl before hty
  exact .mk hty

theorem derives_foreignParameter : Derives foreignParameter fun p => Foreign p.bare := by
  refine (derives_nextIs _).bind fun variadic => .ite (fun hvariadic => ?_) fun _ => ?_
  · exact .confirmed hvariadic fun t => .pure fun after => .variadic
  · refine derives_type.bind fun ty => derives_peek.bind fun token => ?_
    split
    · refine .peeked ‹_› fun _ => .pure ?_
      rintro after before hty _ ⟨rfl, -⟩
      exact .named hty
    · refine .pure ?_
      rintro after _ ⟨rfl, -⟩ before hty _ ⟨rfl, -⟩
      exact .unnamed hty

theorem derives_linkName : Derives linkName fun l => LinkName (l.map Located.bare) := by
  refine (derives_nextIs _).bind fun from_ => .ite (fun hfrom => ?_) fun _ => ?_
  · refine .confirmed hfrom fun _ => (derives_expectName _).bind fun name => .pure ?_
    rintro after _ rfl
    exact .some
  · refine .pure ?_
    rintro after _ ⟨rfl, -⟩
    exact .none

theorem derives_functionAfter (start : Location) :
    Derives (functionAfter start) fun f before after =>
      Declared true (.function f.bare) (.keyword .fn_ :: before) after := by
  refine (derives_expectName _).bind fun name => (derives_expectMark _ _).bind fun _ =>
    (derives_items derives_parameter).bind fun parameters => derives_resultType.bind fun result =>
      derives_peek.bind fun token => .ite (fun _ => .fail) fun hopens => ?_
  refine derives_block.bind fun body => derives_position.bind fun stop => .pure ?_
  rintro after _ rfl last ⟨dangling, hbody, -⟩ _ ⟨rfl, hnext⟩ middle hresult before hparameters
    _ rfl _ rfl
  refine .function hparameters hresult (hbody.toBody ?_)
  by_cases hbrace : token.kind = .punctuator .leftBrace
  · exact .inl (hbrace ▸ hnext)
  · by_cases hmark : token.kind = .punctuator .doubleAmpersand
    · exact .inr (hmark ▸ hnext)
    · exact absurd ⟨hbrace, hmark⟩ hopens

theorem derives_foreignAfter (start : Location) :
    Derives (foreignAfter start) fun f before after =>
      Declared true (.foreign f.bare) (.keyword .cfn_ :: before) after := by
  refine (derives_expectName _).bind fun name => derives_linkName.bind fun link =>
    (derives_expectMark _ _).bind fun _ =>
      (derives_items derives_foreignParameter).bind fun parameters =>
        derives_resultType.bind fun result => derives_position.bind fun stop => .pure ?_
  rintro after _ rfl last hresult middle hparameters _ rfl before hlink _ rfl
  exact .foreign hlink hparameters hresult

theorem derives_recordAfter (start : Location) :
    Derives (recordAfter start) fun r before after =>
      Declared true (.record r.bare) (.keyword .type_ :: before) after := by
  refine (derives_expectName _).bind fun name => (derives_expectMark _ _).bind fun _ =>
    (derives_trailingItems derives_member).bind fun members =>
      derives_position.bind fun stop => .pure ?_
  rintro after _ rfl before hmembers _ rfl _ rfl
  exact .record hmembers

theorem derives_embedAfter (start : Location) :
    Derives (embedAfter start) fun e before after =>
      Declared true (.embed e.bare) (.keyword .embed_ :: before) after := by
  refine (derives_expectString _).bind fun path => (derives_expectWord _ _).bind fun _ =>
    (derives_expectName _).bind fun name => derives_position.bind fun stop => .pure ?_
  rintro after _ rfl _ rfl _ rfl _ rfl
  exact .embed

theorem derives_declaration :
    Derives declaration fun d before after =>
      after.length < before.length ∧ Declared true d.bare before after := by
  refine derives_consume.bind fun token => ?_
  split
  · rename_i hkind
    refine (derives_functionAfter token.start).shrinks.bind fun f => .pure ?_
    rintro after middle ⟨hlength, hf⟩ before rfl
    rw [hkind]
    exact ⟨Nat.lt_succ_of_le hlength, hf⟩
  · rename_i hkind
    refine (derives_foreignAfter token.start).shrinks.bind fun f => .pure ?_
    rintro after middle ⟨hlength, hf⟩ before rfl
    rw [hkind]
    exact ⟨Nat.lt_succ_of_le hlength, hf⟩
  · rename_i hkind
    refine (derives_recordAfter token.start).shrinks.bind fun r => .pure ?_
    rintro after middle ⟨hlength, hr⟩ before rfl
    rw [hkind]
    exact ⟨Nat.lt_succ_of_le hlength, hr⟩
  · rename_i hkind
    refine (derives_expectString _).shrinks.bind fun library => .pure ?_
    rintro after _ ⟨hlength, rfl⟩ before rfl
    rw [hkind]
    exact ⟨Nat.lt_succ_of_le hlength, .link⟩
  · rename_i hkind
    refine (derives_embedAfter token.start).shrinks.bind fun e => .pure ?_
    rintro after middle ⟨hlength, he⟩ before rfl
    rw [hkind]
    exact ⟨Nat.lt_succ_of_le hlength, he⟩
  · exact .fail

theorem declarationsAt_sound {n : Nat} {c : Cursor} {ds : List Declaration}
    (hn : c.kinds.length ≤ n) (h : declarationsAt n c = (ds, [])) :
    Declarations true (ds.map Declaration.bare) c.kinds := by
  induction n generalizing c ds with
  | zero =>
    have hempty : c.kinds = [] := List.eq_nil_of_length_eq_zero (Nat.le_zero.1 hn)
    cases h
    rw [hempty]
    exact .none
  | succ n ih =>
    unfold declarationsAt at h
    split at h
    · rename_i hrest
      cases h
      rw [Cursor.kinds, List.isEmpty_iff.1 hrest]
      exact .none
    · split at h
      · rename_i d next hread
        obtain ⟨hlength, hd⟩ := (derives_declaration c d next hread).2
        obtain ⟨rfl, hnone⟩ := Prod.mk.inj h
        exact .more hd (ih (by omega) (Prod.ext rfl hnone))
      · cases h
      · cases h

end RegionCompiler.Parse
