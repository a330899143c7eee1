import RegionCompiler.Proofs.Parse.Grammar

/-! Whatever a parser reads derives from the grammar: tokens, lists, types and expressions. -/
namespace RegionCompiler.Parse

open Grammar

open Token (Kind)

def Cursor.kinds (c : Cursor) : List Kind := c.rest.map Token.kind

@[simp]
theorem Cursor.length_kinds (c : Cursor) : c.kinds.length = c.rest.length := List.length_map ..

/-- What the parser reads stands in the relation to the tokens before and after it, and reading
gives no tokens back. -/
def Derives {α : Type} (p : Parser α) (R : Grammar α) : Prop :=
  ∀ c a next, p c = .ok a next →
    next.rest.length ≤ c.rest.length ∧ R a c.kinds next.kinds

namespace Derives

variable {α β : Type} {p q : Parser α} {R S : Grammar α} {T : Grammar β}

theorem pure {a : α} (h : ∀ tokens, R a tokens tokens) : Derives (pure a) R := by
  intro c b next hread
  cases hread
  exact ⟨Nat.le_refl _, h _⟩

theorem fail {d : Diagnostic} : Derives (Parse.fail d : Parser α) R := by
  intro c a next hread
  cases hread

theorem throw {e : Failure} : Derives (MonadExcept.throw e : Parser α) R := by
  intro c a next hread
  cases hread

theorem bind {k : α → Parser β} (hp : Derives p R)
    (hk : ∀ a, Derives (k a) fun b middle after => ∀ before, R a before middle → T b before after) :
    Derives (p >>= k) T := by
  intro c b next hread
  change EStateM.bind p k c = .ok b next at hread
  unfold EStateM.bind at hread
  split at hread
  · rename_i a middle hfirst
    have h₁ := hp c a middle hfirst
    have h₂ := hk a middle b next hread
    exact ⟨Nat.le_trans h₂.1 h₁.1, h₂.2 _ h₁.2⟩
  · cases hread

theorem mono (hp : Derives p R) (h : ∀ a before after, R a before after → S a before after) :
    Derives p S :=
  fun c a next hread => ⟨(hp c a next hread).1, h _ _ _ (hp c a next hread).2⟩

theorem ite {c : Prop} [Decidable c] (hp : c → Derives p R) (hq : ¬c → Derives q R) :
    Derives (if c then p else q) R := by
  split
  · exact hp ‹_›
  · exact hq ‹_›

theorem shrinks (hp : Derives p R) :
    Derives p fun a before after => after.length ≤ before.length ∧ R a before after := by
  intro c a next hread
  have h := hp c a next hread
  refine ⟨h.1, ?_, h.2⟩
  rw [Cursor.length_kinds, Cursor.length_kinds]
  exact h.1

theorem bounded {p : Nat → Parser α} (h : ∀ n, Derives (p n) R) : Derives (Parse.bounded p) R :=
  fun c => h c.rest.length c

end Derives

theorem derives_consume : Derives consume fun t before after => before = t.kind :: after := by
  rintro ⟨rest, last⟩ t next hread
  cases rest with
  | nil => cases hread
  | cons u rest =>
    cases hread
    exact ⟨Nat.le_succ _, rfl⟩

theorem derives_peek :
    Derives peek fun t before after => after = before ∧ before.head? = some t.kind := by
  rintro ⟨rest, last⟩ t next hread
  cases rest with
  | nil => cases hread
  | cons u rest =>
    cases hread
    exact ⟨Nat.le_refl _, rfl, rfl⟩

theorem derives_position : Derives position fun _ before after => after = before := by
  intro c p next hread
  cases hread
  exact ⟨Nat.le_refl _, rfl⟩

theorem derives_ahead (n : Nat) :
    Derives (ahead? n) fun kind before after => after = before ∧ kind = before[n]? := by
  intro c kind next hread
  cases hread
  refine ⟨Nat.le_refl _, rfl, ?_⟩
  simp [Cursor.kinds]

theorem derives_nextIs (kind : Kind) :
    Derives (nextIs kind) fun b before after =>
      after = before ∧ (b = true ↔ before.head? = some kind) := by
  refine (derives_ahead 0).bind fun next => .pure ?_
  rintro tokens before ⟨rfl, rfl⟩
  refine ⟨rfl, ?_⟩
  rw [beq_iff_eq, List.head?_eq_getElem?]

theorem Derives.seen {α : Type} {k : Token → Parser α} {R : Grammar α} {kind : Kind}
    {Q : List Kind → Prop} (hseen : ∀ tokens, Q tokens → tokens.head? = some kind)
    (h : ∀ t, Derives (k t) fun a before after => R a (kind :: before) after) :
    Derives (consume >>= k) fun a middle after =>
      ∀ before, middle = before ∧ Q before → R a before after := by
  refine derives_consume.bind fun t => (h t).mono ?_
  rintro a middle after ha _ rfl before ⟨rfl, hq⟩
  have hkind : t.kind = kind := Option.some.inj (hseen _ hq)
  rw [hkind]
  exact ha

theorem Derives.peeked {α : Type} {k : Token → Parser α} {R : Grammar α} {token : Token}
    {kind : Kind} (hkind : token.kind = kind)
    (h : ∀ t, Derives (k t) fun a before after => R a (kind :: before) after) :
    Derives (consume >>= k) fun a middle after =>
      ∀ before, middle = before ∧ before.head? = some token.kind → R a before after :=
  .seen (fun _ hnext => hkind ▸ hnext) h

theorem Derives.confirmed {α : Type} {k : Token → Parser α} {R : Grammar α} {kind : Kind}
    {answer : Bool} (hanswer : answer = true)
    (h : ∀ t, Derives (k t) fun a before after => R a (kind :: before) after) :
    Derives (consume >>= k) fun a middle after =>
      ∀ before, middle = before ∧ (answer = true ↔ before.head? = some kind) →
        R a before after :=
  .seen (fun _ hnext => hnext.1 hanswer) h

theorem Derives.found {α : Type} {k : Token → Parser α} {R : Grammar α} {kind : Kind}
    (h : ∀ t, Derives (k t) fun a before after => R a (kind :: before) after) :
    Derives (consume >>= k) fun a middle after =>
      ∀ before, middle = before ∧ some kind = before[0]? → R a before after :=
  .seen (fun _ hnext => by rw [List.head?_eq_getElem?, ← hnext]) h

theorem derives_expectMark (mark : Punctuator) (context : String) :
    Derives (expectMark mark context) fun _ before after =>
      before = .punctuator mark :: after := by
  refine derives_consume.bind fun t => .ite (fun _ => .fail) fun h => .pure ?_
  rintro tokens before rfl
  rw [Decidable.not_not.1 h]

theorem derives_expectWord (word : Keyword) (context : String) :
    Derives (expectWord word context) fun _ before after => before = .keyword word :: after := by
  refine derives_consume.bind fun t => .ite (fun _ => .fail) fun h => .pure ?_
  rintro tokens before rfl
  rw [Decidable.not_not.1 h]

theorem derives_expectName (context : String) :
    Derives (expectName context) fun name before after =>
      before = .identifier name.value :: after := by
  refine derives_consume.bind fun t => ?_
  split
  · rename_i hkind
    refine .pure ?_
    rintro tokens before rfl
    rw [hkind]
  · exact .fail

theorem derives_expectString (context : String) :
    Derives (expectString context) fun value before after =>
      before = .string value.value :: after := by
  refine derives_consume.bind fun t => ?_
  split
  · rename_i hkind
    refine .pure ?_
    rintro tokens before rfl
    rw [hkind]
  · exact .fail

theorem derives_another (close : Punctuator) (context : String) :
    Derives (another close context) fun more before after =>
      before = .punctuator (if more then .comma else close) :: after := by
  refine derives_consume.bind fun t => .ite (fun hcomma => .pure ?_) fun _ =>
    .ite (fun hclose => .pure ?_) fun _ => .fail
  · rintro tokens before rfl
    rw [hcomma]
    rfl
  · rintro tokens before rfl
    rw [hclose]
    rfl

section Lists

variable {α β : Type} {item : Parser α} {G : Grammar β} {view : α → β}
  {close : Punctuator} {context : String}

theorem derives_itemsAt (h : Derives item fun x => G (view x)) (n : Nat) :
    Derives (itemsAt item close context n) fun xs => Separated G close (xs.map view) := by
  induction n with
  | zero => exact .throw
  | succ n ih =>
    refine h.bind fun first => (derives_another _ _).bind fun more => ?_
    cases more with
    | true =>
      refine ih.bind fun rest => .pure ?_
      rintro after middle hrest _ rfl before hfirst
      exact .more hfirst hrest
    | false =>
      refine .pure ?_
      rintro after _ rfl before hfirst
      exact .last hfirst

theorem derives_items (h : Derives item fun x => G (view x)) :
    Derives (items item close context) fun xs => Listed G close (xs.map view) := by
  refine (derives_nextIs _).bind fun empty => .ite (fun hempty => ?_) fun _ => ?_
  · exact .confirmed hempty fun t => .pure fun after => .none
  · refine .bounded fun n => (derives_itemsAt h n).mono ?_
    rintro xs before after hitems _ ⟨rfl, -⟩
    exact .some hitems

theorem derives_trailingItemsAt (h : Derives item fun x => G (view x)) (n : Nat) :
    Derives (trailingItemsAt item close context n) fun xs => Trailing G close (xs.map view) := by
  induction n with
  | zero => exact .throw
  | succ n ih =>
    refine (derives_nextIs _).bind fun empty => .ite (fun hempty => ?_) fun _ => ?_
    · exact .confirmed hempty fun t => .pure fun after => .none
    · refine h.bind fun first => (derives_another _ _).bind fun more => ?_
      cases more with
      | true =>
        refine ih.bind fun rest => .pure ?_
        rintro after middle hrest _ rfl before hfirst _ ⟨rfl, -⟩
        exact .more hfirst hrest
      | false =>
        refine .pure ?_
        rintro after _ rfl before hfirst _ ⟨rfl, -⟩
        exact .last hfirst

theorem derives_trailingItems (h : Derives item fun x => G (view x)) :
    Derives (trailingItems item close context) fun xs => Trailing G close (xs.map view) :=
  .bounded fun n => derives_trailingItemsAt h n

end Lists

/-! ### Types -/

theorem derives_modifiersAt (n : Nat) (t : Ty) :
    Derives (modifiersAt n t) fun u middle after =>
      ∀ before, TypeName t before middle → TypeName u before after := by
  induction n generalizing t with
  | zero => exact .pure fun tokens before h => h
  | succ n ih =>
    refine (derives_ahead 0).bind fun next => ?_
    split
    · refine .found fun _ => derives_consume.bind fun token => ?_
      split
      · rename_i hkind
        refine (ih (.array t .dynamic)).mono ?_
        rintro u middle after hrest _ rfl before ht
        rw [hkind] at ht
        exact hrest before (.dynamic ht)
      · rename_i literal hkind
        refine (derives_expectMark _ _).bind fun _ =>
          (ih (.array t (.fixed literal.value.toNat))).mono ?_
        rintro u middle after hrest _ rfl _ rfl before ht
        rw [hkind] at ht
        exact hrest before (.fixed ht)
      · exact .fail
    · refine .found fun _ => (ih (.pointer t)).mono ?_
      intro u middle after hrest before ht
      exact hrest before (.pointer ht)
    · refine .pure ?_
      rintro tokens _ ⟨rfl, -⟩ before ht
      exact ht

theorem derives_type : Derives type fun t => TypeName t.value := by
  refine derives_consume.bind fun token => ?_
  split
  · rename_i name hkind
    refine (Derives.bounded fun n => derives_modifiersAt n (.base name)).bind fun t =>
      derives_position.bind fun stop => .pure ?_
    rintro after _ rfl middle ht before rfl
    rw [hkind]
    exact ht _ .base
  · exact .fail

/-! ### Expressions -/

/-- The table of a level holds its operators under their tokens. -/
def Tabulates (op? : Kind → Option BinaryOp) (level : Level) : Prop :=
  ∀ kind op, op? kind = some op ↔ op.level = level ∧ kind = op.token

theorem tabulates_logicalOp : Tabulates logicalOp? .logical := by
  intro kind op
  constructor
  · intro h
    unfold logicalOp? at h
    split at h <;> cases h <;> exact ⟨rfl, rfl⟩
  · rintro ⟨hlevel, rfl⟩
    cases op <;> cases hlevel <;> rfl

theorem tabulates_comparisonOp : Tabulates comparisonOp? .comparison := by
  intro kind op
  constructor
  · intro h
    unfold comparisonOp? at h
    split at h <;> cases h <;> exact ⟨rfl, rfl⟩
  · rintro ⟨hlevel, rfl⟩
    cases op <;> cases hlevel <;> rfl

theorem tabulates_additiveOp : Tabulates additiveOp? .additive := by
  intro kind op
  constructor
  · intro h
    unfold additiveOp? at h
    split at h <;> cases h <;> exact ⟨rfl, rfl⟩
  · rintro ⟨hlevel, rfl⟩
    cases op <;> cases hlevel <;> rfl

theorem tabulates_multiplicativeOp : Tabulates multiplicativeOp? .multiplicative := by
  intro kind op
  constructor
  · intro h
    unfold multiplicativeOp? at h
    split at h <;> cases h <;> exact ⟨rfl, rfl⟩
  · rintro ⟨hlevel, rfl⟩
    cases op <;> cases hlevel <;> rfl

theorem unaryOp?_eq_some {kind : Kind} {op : UnaryOp} :
    unaryOp? kind = some op ↔ kind ∈ op.tokens := by
  constructor
  · intro h
    unfold unaryOp? at h
    split at h <;> cases h <;> decide
  · intro h
    cases op <;> simp only [UnaryOp.tokens, List.mem_cons, List.not_mem_nil, or_false] at h
    · rcases h with rfl | rfl <;> rfl
    · cases h
      rfl
    · cases h
      rfl

section Operators

variable {operand nested : Parser Expr} {G : Grammar Expr} {op? : Kind → Option BinaryOp}
  {level : Level}

theorem derives_binaryAt (htable : Tabulates op? level) (h : Derives operand fun e => G e.bare)
    (n : Nat) (lhs : Expr) :
    Derives (binaryAt op? operand n lhs) fun e middle after =>
      ∀ before, Chain level G lhs.bare before middle → Chain level G e.bare before after := by
  induction n generalizing lhs with
  | zero => exact .pure fun tokens before hlhs => hlhs
  | succ n ih =>
    refine (derives_ahead 0).bind fun next => ?_
    split
    · refine .pure ?_
      rintro tokens _ ⟨rfl, -⟩ before hlhs
      exact hlhs
    · rename_i op hop
      refine derives_consume.bind fun mark => h.bind fun rhs => (ih _).mono ?_
      rintro e middle after hrest last hrhs _ rfl _ ⟨rfl, rfl⟩ before hlhs
      obtain ⟨hlevel, hmark⟩ := (htable mark.kind op).1 hop
      rw [hmark] at hlhs
      exact hrest before (.operator hlevel hlhs hrhs)

theorem derives_binary (htable : Tabulates op? level) (h : Derives operand fun e => G e.bare) :
    Derives (binary op? operand) fun e => Chain level G e.bare := by
  refine h.bind fun lhs => .bounded fun n => (derives_binaryAt htable h n lhs).mono ?_
  intro e middle after hrest before hlhs
  exact hrest before (.operand hlhs)

theorem derives_unaryOver (hnested : Derives nested fun e => Prefixed G e.bare)
    (h : Derives operand fun e => G e.bare) :
    Derives (unaryOver nested operand) fun e => Prefixed G e.bare := by
  refine derives_peek.bind fun token => ?_
  split
  · refine h.mono ?_
    rintro e before after he _ ⟨rfl, -⟩
    exact .operand he
  · rename_i op hop
    refine .peeked rfl fun mark => hnested.bind fun inner => .pure ?_
    intro after before hinner
    exact .operator (unaryOp?_eq_some.1 hop) hinner

theorem derives_conversionsAt (G : Grammar Expr) (n : Nat) (e : Expr) :
    Derives (conversionsAt n e) fun e' middle after =>
      ∀ before, Converted G e.bare before middle → Converted G e'.bare before after := by
  induction n generalizing e with
  | zero => exact .pure fun tokens before he => he
  | succ n ih =>
    refine (derives_nextIs _).bind fun arrow => .ite (fun harrow => ?_) fun _ => .pure ?_
    · refine .confirmed harrow fun _ => derives_type.bind fun target => (ih _).mono ?_
      intro e' middle after hrest last htarget before he
      exact hrest before (.conversion he htarget)
    · rintro tokens _ ⟨rfl, -⟩ before he
      exact he

theorem derives_converted (h : Derives operand fun e => G e.bare) :
    Derives (converted operand) fun e => Converted G e.bare := by
  refine h.bind fun e => .bounded fun n => (derives_conversionsAt G n e).mono ?_
  intro e' middle after hrest before he
  exact hrest before (.leaf he)

end Operators

section Leaves

variable {expr leaf : Parser Expr} {G : Grammar Expr}

theorem derives_accessorsAt (h : Derives expr fun e => G e.bare) (n : Nat) :
    Derives (accessorsAt expr n) fun accessors => Accessors G (accessors.map Accessor.bare) := by
  induction n with
  | zero => exact .pure fun tokens => .none
  | succ n ih =>
    refine (derives_ahead 0).bind fun next => ?_
    split
    · refine .found fun _ => (derives_items h).bind fun arguments =>
        derives_position.bind fun stop => ih.bind fun rest => .pure ?_
      rintro after middle hrest _ rfl before harguments
      rw [List.map_cons, Accessor.bare, Expr.bareAll_eq_map]
      exact .call harguments hrest
    · refine .found fun _ => h.bind fun position => (derives_expectMark _ _).bind fun _ =>
        derives_position.bind fun stop => ih.bind fun rest => .pure ?_
      rintro after middle hrest _ rfl _ rfl before hposition
      rw [List.map_cons, Accessor.bare]
      exact .index hposition hrest
    · refine .found fun _ => (derives_expectName _).bind fun name =>
        derives_position.bind fun stop => ih.bind fun rest => .pure ?_
      rintro after middle hrest _ rfl _ rfl
      rw [List.map_cons, Accessor.bare]
      exact .member hrest
    · refine .found fun _ => derives_position.bind fun stop => ih.bind fun rest => .pure ?_
      rintro after middle hrest _ rfl
      rw [List.map_cons, Accessor.bare]
      exact .dereference hrest
    · refine .pure ?_
      rintro tokens _ ⟨rfl, -⟩
      exact .none

theorem derives_place (h : Derives expr fun e => G e.bare) :
    Derives (place expr) fun p => Variable G p.value.bare := by
  refine (derives_expectName _).bind fun name =>
    (Derives.bounded fun n => derives_accessorsAt h n).bind fun accessors =>
      derives_position.bind fun stop => .pure ?_
  rintro after _ rfl middle haccessors _ rfl
  exact .mk haccessors

theorem derives_argument (h : Derives expr fun e => G e.bare) :
    Derives (argument expr) fun a => Valued G a.bare := by
  have hplain : Derives (do return Argument.mk none (← expr)) fun a before after =>
      Valued G a.bare before after := by
    refine h.bind fun e => .pure ?_
    intro after before he
    exact .plain he
  refine derives_peek.bind fun token => ?_
  split
  · rename_i name hkind
    refine (derives_ahead 1).bind fun next => .ite (fun hassign => ?_) fun _ => hplain.mono ?_
    · refine derives_consume.bind fun first => derives_consume.bind fun second =>
        h.bind fun e => .pure ?_
      rintro after middle he _ rfl _ rfl _ ⟨rfl, hnext⟩ before ⟨rfl, hpeek⟩
      have hfirst : first.kind = token.kind := Option.some.inj hpeek
      have hsecond : next = some second.kind := hnext
      rw [hassign] at hsecond
      rw [hfirst, hkind, ← Option.some.inj hsecond]
      exact .named he
    · rintro a before after ha _ ⟨rfl, -⟩ _ ⟨rfl, -⟩
      exact ha
  · refine hplain.mono ?_
    rintro a before after ha _ ⟨rfl, -⟩
    exact ha

theorem derives_constructAfter (start : Location) (h : Derives expr fun e => G e.bare) :
    Derives (constructAfter start expr) fun e => Primary G e.bare := by
  refine (derives_expectName _).bind fun name => (derives_expectMark _ _).bind fun _ =>
    (derives_expectMark _ _).bind fun _ =>
      (derives_trailingItems (derives_argument h)).bind fun arguments =>
        derives_position.bind fun stop => .pure ?_
  rintro after _ rfl middle harguments _ rfl _ rfl _ rfl
  rw [Expr.bare, Argument.bareAll_eq_map]
  exact .construct harguments

theorem derives_literal {token : Token} {kind : Kind} {make : Location → Expr}
    (hkind : token.kind = kind)
    (hmake : ∀ stop after, Primary G (make stop).bare (kind :: after) after) :
    Derives (do
      let _ ← consume
      return make (← position)) fun e middle after => ∀ before,
        middle = before ∧ before.head? = some token.kind → Primary G e.bare before after := by
  refine .peeked hkind fun _ => derives_position.bind fun stop => .pure ?_
  rintro after _ rfl
  exact hmake stop _

theorem derives_leafOver (hexpr : Derives expr fun e => G e.bare)
    (hleaf : Derives leaf fun e => Primary G e.bare) :
    Derives (leafOver expr leaf) fun e => Primary G e.bare := by
  refine derives_peek.bind fun token => ?_
  dsimp only
  split
  · exact derives_literal ‹_› fun _ _ => .integer
  · exact derives_literal ‹_› fun _ _ => .float
  · exact derives_literal ‹_› fun _ _ => .string
  · exact derives_literal ‹_› fun _ _ => .true_
  · exact derives_literal ‹_› fun _ _ => .false_
  · exact derives_literal ‹_› fun _ _ => .null
  · refine (derives_ahead 1).bind fun second => (derives_ahead 2).bind fun third =>
      .ite (fun _ => ?_) fun _ => ?_
    · refine (derives_constructAfter _ hexpr).mono ?_
      rintro e before after he _ ⟨rfl, -⟩ _ ⟨rfl, -⟩ _ ⟨rfl, -⟩
      exact he
    · refine (derives_place hexpr).bind fun p => derives_position.bind fun stop => .pure ?_
      rintro after _ rfl before hp _ ⟨rfl, -⟩ _ ⟨rfl, -⟩ _ ⟨rfl, -⟩
      rw [Expr.bare, Accessor.bareAll_eq_map]
      exact .place hp
  · refine .peeked ‹_› fun _ => hexpr.bind fun inner => (derives_expectMark _ _).bind fun _ =>
      derives_position.bind fun stop => .pure ?_
    rintro after _ rfl _ rfl before hinner
    exact .parenthesized hinner
  · refine .peeked ‹_› fun _ => (derives_items hexpr).bind fun elements =>
      derives_position.bind fun stop => .pure ?_
    rintro after _ rfl before helements
    rw [Expr.bare, Expr.bareAll_eq_map]
    exact .array helements
  · refine .peeked ‹_› fun _ => hleaf.bind fun size => derives_position.bind fun stop => .pure ?_
    rintro after _ rfl before hsize
    exact .allocation hsize
  · refine .peeked ‹_› fun _ => (derives_place hexpr).bind fun p =>
      derives_position.bind fun stop => .pure ?_
    rintro after _ rfl before hp
    rw [Expr.bare, Accessor.bareAll_eq_map]
    exact .addressOf hp
  all_goals exact derives_consume.bind fun t => .fail

end Leaves

theorem derives_expressionAt (n : Nat) :
    (Derives (expressionAt n) fun e => Expression e.bare) ∧
    (Derives (unaryAt n) fun e => Operand e.bare) ∧
    Derives (leafAt n) fun e => Primary Expression e.bare := by
  induction n with
  | zero => exact ⟨.throw, .throw, .throw⟩
  | succ n ih =>
    have hleaf := derives_leafOver ih.1 ih.2.2
    have hunary := derives_unaryOver ih.2.1 (derives_converted hleaf)
    have hchain := derives_binary tabulates_logicalOp (derives_binary tabulates_comparisonOp
      (derives_binary tabulates_additiveOp (derives_binary tabulates_multiplicativeOp hunary)))
    exact ⟨hchain.mono fun e before after h => .levels h, hunary, hleaf⟩

theorem derives_expression : Derives expression fun e => Expression e.bare :=
  .bounded fun n => (derives_expressionAt n).1

end RegionCompiler.Parse
