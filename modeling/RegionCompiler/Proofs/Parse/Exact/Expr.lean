import RegionCompiler.Proofs.Parse.Phrases
import RegionCompiler.Proofs.Parse.Sound.Expr

/-! Every node of an expression that a parser reads has the span of the tokens that were taken for
it. -/
namespace RegionCompiler

namespace Phrase

/-- The phrase takes up at least one token. -/
def Solid (p : Phrase) : Prop := [] ∉ p.tokens

variable {p : Phrase} {ps : List Phrase}

@[simp]
theorem solid_one (fits : Token.Kind → Prop) : (one fits).Solid := by
  rintro ⟨t, ht, -⟩
  cases ht

@[simp]
theorem solid_token (kind : Token.Kind) : (token kind).Solid := solid_one _

@[simp]
theorem solid_mark (m : Punctuator) : (mark m).Solid := solid_one _

@[simp]
theorem solid_word (w : Keyword) : (word w).Solid := solid_one _

@[simp]
theorem solid_node (span : Span) (ps : List Phrase) : (node span ps).Solid := by
  rintro ⟨-, first, last, hfirst, -⟩
  cases hfirst

theorem nil_mem_seq : [] ∈ (seq ps).tokens ↔ ∀ p ∈ ps, [] ∈ p.tokens := by
  induction ps with
  | nil => simp [seq]
  | cons p ps ih =>
    rw [List.forall_mem_cons, ← ih]
    constructor
    · intro h
      obtain ⟨us, hus, vs, hvs, heq⟩ := Language.mem_mul.1 h
      obtain ⟨rfl, rfl⟩ := List.append_eq_nil_iff.1 heq
      exact ⟨hus, hvs⟩
    · exact fun ⟨hp, hps⟩ => Language.mem_mul.2 ⟨[], hp, [], hps, rfl⟩

@[simp]
theorem solid_seq : (seq ps).Solid ↔ ∃ p ∈ ps, p.Solid := by
  simp [Solid, nil_mem_seq]

end Phrase

theorem Phrase.solid_append {ps : List Phrase} (h : ∃ p ∈ ps, p.Solid) (qs : List Phrase) :
    ∃ p ∈ ps ++ qs, p.Solid :=
  h.imp fun _ hp => ⟨List.mem_append_left qs hp.1, hp.2⟩

theorem Ty.solid_phrases : (t : Ty) → ∃ p ∈ t.phrases, p.Solid
  | .invalid | .function .. => ⟨_, List.mem_singleton_self _, id⟩
  | .base _ => ⟨_, List.mem_singleton_self _, Phrase.solid_token _⟩
  | .pointer t | .array t .dynamic | .array t (.fixed _) => Phrase.solid_append t.solid_phrases _

@[simp]
theorem Expr.solid_phrase (e : Expr) : e.phrase.Solid := by
  cases e <;> exact Phrase.solid_node _ _

@[simp]
theorem Stmt.solid_phrase (s : Stmt) : s.phrase.Solid := by
  cases s <;> exact Phrase.solid_node _ _

@[simp]
theorem Phrase.solid_body (ss : List Stmt) : (body (ss.map Stmt.phrase)).Solid := by
  rintro (hbraces | ⟨hsingle, hone⟩)
  · exact solid_seq.2 ⟨mark .leftBrace, List.mem_cons_self, solid_mark _⟩ hbraces
  · obtain ⟨s, hs⟩ := List.length_eq_one_iff.1 ((List.length_map _).symm.trans hone)
    rw [hs] at hsingle
    exact s.solid_phrase (nil_mem_seq.1 hsingle _ (List.mem_singleton_self _))

@[simp]
theorem Block.solid_phrase (b : Block) : b.phrase.Solid := by
  cases b
  exact Phrase.solid_node _ _

namespace Parse

open Phrase

open Token (Kind)

/-! ### What parsers take -/

namespace Cursor

/-- The cursor has moved on over a list of tokens of the language. -/
def Takes (c : Cursor) (tokens : Language Token) (next : Cursor) : Prop :=
  ∃ ts ∈ tokens, c.rest = ts ++ next.rest ∧ next.last = (ts.getLast?.map Token.span).getD c.last

/-- The next token, if there is one, starts there. -/
def Begins (c : Cursor) (start : Location) : Prop :=
  ∀ t ∈ c.rest.head?, t.start = start

namespace Takes

variable {c m next : Cursor} {p : Phrase} {ps qs : List Phrase} {span : Span}

theorem nil (c : Cursor) : c.Takes (seq []).tokens c :=
  ⟨[], rfl, rfl, rfl⟩

theorem mul {L M : Language Token} (h : c.Takes L m) (hnext : m.Takes M next) :
    c.Takes (L * M) next := by
  obtain ⟨us, hus, hrest, hlast⟩ := h
  obtain ⟨vs, hvs, hrest', hlast'⟩ := hnext
  refine ⟨us ++ vs, Language.append_mem_mul hus hvs, by rw [hrest, hrest', List.append_assoc], ?_⟩
  rw [hlast', hlast, List.getLast?_append]
  cases vs.getLast? <;> rfl

theorem cons (h : c.Takes p.tokens m) (hnext : m.Takes (seq ps).tokens next) :
    c.Takes (seq (p :: ps)).tokens next :=
  h.mul hnext

theorem single (h : c.Takes p.tokens next) : c.Takes (seq [p]).tokens next :=
  h.cons (.nil next)

theorem mono {L M : Language Token} (h : c.Takes L next) (hL : ∀ ts ∈ L, ts ∈ M) :
    c.Takes M next :=
  h.imp fun ts hts => ⟨hL ts hts.1, hts.2⟩

theorem append (h : c.Takes (seq ps).tokens m) (hnext : m.Takes (seq qs).tokens next) :
    c.Takes (seq (ps ++ qs)).tokens next := by
  rw [seq_append]
  exact h.mul hnext

theorem split (h : c.Takes (seq (ps ++ qs)).tokens next) :
    ∃ m, c.Takes (seq ps).tokens m ∧ m.Takes (seq qs).tokens next := by
  obtain ⟨ts, hts, hrest, hlast⟩ := h
  rw [seq_append] at hts
  obtain ⟨us, hus, vs, hvs, rfl⟩ := Language.mem_mul.1 hts
  refine ⟨⟨vs ++ next.rest, (us.getLast?.map Token.span).getD c.last⟩,
    ⟨us, hus, by rw [hrest, List.append_assoc], rfl⟩, vs, hvs, rfl, ?_⟩
  rw [hlast, List.getLast?_append]
  cases vs.getLast? <;> rfl

theorem of_single (h : c.Takes (seq [p]).tokens next) : c.Takes p.tokens next := by
  have heq : (seq [p]).tokens = p.tokens := mul_one p.tokens
  rwa [heq] at h

theorem node (h : c.Takes (seq ps).tokens next) (hsolid : ∃ p ∈ ps, p.Solid)
    (hstart : c.Begins span.start) (hstop : next.last.stop = span.stop) :
    c.Takes (Phrase.node span ps).tokens next := by
  obtain ⟨ts, hts, hrest, hlast⟩ := h
  have hsome : ts ≠ [] := fun hnil => solid_seq.2 hsolid (hnil ▸ hts)
  obtain ⟨first, more, rfl⟩ := List.exists_cons_of_ne_nil hsome
  have hend : (first :: more).getLast? = some _ := List.getLast?_eq_some_getLast hsome
  refine ⟨_, ⟨hts, first, _, rfl, hend, ?_⟩, hrest, hlast⟩
  rw [hlast, hend] at hstop
  rw [hstart first (by simp [hrest])]
  exact congrArg (Span.mk span.start) hstop.symm

theorem of_node (h : c.Takes (Phrase.node span ps).tokens next) : c.Takes (seq ps).tokens next :=
  h.mono fun _ hts => hts.1

theorem begins (h : c.Takes (Phrase.node span ps).tokens next) : c.Begins span.start := by
  obtain ⟨ts, ⟨-, first, last, hfirst, -, rfl⟩, hrest, -⟩ := h
  intro t ht
  rw [hrest, List.head?_append, hfirst] at ht
  cases ht
  rfl

theorem stop (h : c.Takes (Phrase.node span ps).tokens next) : next.last.stop = span.stop := by
  obtain ⟨ts, ⟨-, first, last, -, hlast, rfl⟩, -, hlast'⟩ := h
  rw [hlast', hlast]
  rfl

end Takes

end Cursor

/-- What the parser reads stands in the relation to the cursors before and after it. -/
def Moves {α : Type} (p : Parser α) (R : Cursor → α → Cursor → Prop) : Prop :=
  ∀ c a next, p c = .ok a next → R c a next

namespace Moves

variable {α β : Type} {p q : Parser α} {R S : Cursor → α → Cursor → Prop}
  {T : Cursor → β → Cursor → Prop}

theorem pure {a : α} (h : ∀ c, R c a c) : Moves (pure a) R := by
  intro c b next hread
  cases hread
  exact h c

theorem fail {d : Diagnostic} : Moves (Parse.fail d : Parser α) R := nofun

theorem throw {e : Failure} : Moves (MonadExcept.throw e : Parser α) R := nofun

theorem bind {k : α → Parser β} (hp : Moves p R)
    (hk : ∀ a, Moves (k a) fun m b next => ∀ c, R c a m → T c b next) : Moves (p >>= k) T := by
  intro c b next hread
  change EStateM.bind p k c = .ok b next at hread
  unfold EStateM.bind at hread
  split at hread
  · exact hk _ _ b next hread c (hp c _ _ ‹_›)
  · cases hread

theorem mono (hp : Moves p R) (h : ∀ c a next, R c a next → S c a next) : Moves p S :=
  fun c a next hread => h c a next (hp c a next hread)

theorem ite {b : Prop} [Decidable b] (hp : b → Moves p R) (hq : ¬b → Moves q R) :
    Moves (if b then p else q) R := by
  split
  · exact hp ‹_›
  · exact hq ‹_›

theorem bounded {p : Nat → Parser α} (h : ∀ n, Moves (p n) R) : Moves (Parse.bounded p) R :=
  fun c => h c.rest.length c

theorem stop {f : Location → α} (h : ∀ c, R c (f c.last.stop) c) :
    Moves (do return f (← position)) R := by
  intro c a next hread
  cases hread
  exact h c

end Moves

theorem moves_consume : Moves consume fun c t next =>
    c.rest.head? = some t ∧ c.Takes (token t.kind).tokens next ∧ next.last = t.span := by
  rintro ⟨rest, last⟩ t next hread
  cases rest with
  | nil => cases hread
  | cons u rest =>
    cases hread
    exact ⟨rfl, ⟨[t], ⟨t, rfl, rfl⟩, rfl, rfl⟩, rfl⟩

theorem moves_peek : Moves peek fun c t m => m = c ∧ c.rest.head? = some t := by
  rintro ⟨rest, last⟩ t m hread
  cases rest with
  | nil => cases hread
  | cons u rest =>
    cases hread
    exact ⟨rfl, rfl⟩

theorem moves_position : Moves position fun c l m => m = c ∧ l = c.last.stop := by
  intro c l m hread
  cases hread
  exact ⟨rfl, rfl⟩

theorem moves_ahead (n : Nat) :
    Moves (ahead? n) fun c kind m => m = c ∧ kind = c.rest[n]?.map Token.kind := by
  intro c kind m hread
  cases hread
  exact ⟨rfl, rfl⟩

theorem moves_nextIs (kind : Kind) : Moves (nextIs kind) fun c b m =>
    m = c ∧ (b = true → c.rest.head?.map Token.kind = some kind) := by
  refine (moves_ahead 0).bind fun next => .pure ?_
  rintro m c ⟨rfl, rfl⟩
  refine ⟨rfl, fun h => ?_⟩
  rw [List.head?_eq_getElem?]
  exact beq_iff_eq.1 h

theorem Cursor.begins_of_head {c : Cursor} {t : Token} (h : c.rest.head? = some t) :
    c.Begins t.start := by
  intro u hu
  rw [Option.mem_def, h] at hu
  cases hu
  rfl

theorem Moves.seen {α : Type} {k : Token → Parser α} {R : Cursor → α → Cursor → Prop} {kind : Kind}
    {Q : Cursor → Prop} (hseen : ∀ c, Q c → c.rest.head?.map Token.kind = some kind)
    (h : ∀ t, Moves (k t) fun m a next => ∀ c, Q c → c.Begins t.start →
      c.Takes (token kind).tokens m → R c a next) :
    Moves (consume >>= k) fun m a next => ∀ c, m = c ∧ Q c → R c a next := by
  refine moves_consume.bind fun t => (h t).mono ?_
  rintro m a next ha _ ⟨hhead, htakes, -⟩ c ⟨rfl, hq⟩
  have hkind := hseen _ hq
  rw [hhead] at hkind
  obtain rfl : t.kind = kind := Option.some.inj hkind
  exact ha _ hq (Cursor.begins_of_head hhead) htakes

theorem Moves.peeked {α : Type} {k : Token → Parser α} {R : Cursor → α → Cursor → Prop}
    {token : Token} {kind : Kind} (hkind : token.kind = kind)
    (h : ∀ t, Moves (k t) fun m a next => ∀ c, c.Begins token.start →
      c.Takes (Phrase.token kind).tokens m → R c a next) :
    Moves (consume >>= k) fun m a next =>
      ∀ c, m = c ∧ c.rest.head? = some token → R c a next := by
  refine .seen (fun c hc => by rw [hc, Option.map_some, hkind]) fun t => (h t).mono ?_
  intro m a next ha c hc _ htakes
  exact ha c (Cursor.begins_of_head hc) htakes

theorem Moves.confirmed {α : Type} {k : Token → Parser α} {R : Cursor → α → Cursor → Prop}
    {kind : Kind} {answer : Bool} (hanswer : answer = true)
    (h : ∀ t, Moves (k t) fun m a next => ∀ c, c.Begins t.start →
      c.Takes (token kind).tokens m → R c a next) :
    Moves (consume >>= k) fun m a next => ∀ c,
      m = c ∧ (answer = true → c.rest.head?.map Token.kind = some kind) → R c a next := by
  refine .seen (fun c hc => hc hanswer) fun t => (h t).mono ?_
  exact fun m a next ha c _ => ha c

theorem Moves.found {α : Type} {k : Token → Parser α} {R : Cursor → α → Cursor → Prop}
    {kind : Kind} (h : ∀ t, Moves (k t) fun m a next => ∀ c, c.Begins t.start →
      c.Takes (token kind).tokens m → R c a next) :
    Moves (consume >>= k) fun m a next => ∀ c,
      m = c ∧ some kind = c.rest[0]?.map Token.kind → R c a next := by
  refine .seen (fun c hc => by rw [List.head?_eq_getElem?, ← hc]) fun t => (h t).mono ?_
  exact fun m a next ha c _ => ha c

theorem moves_expectMark (expected : Punctuator) (context : String) :
    Moves (expectMark expected context) fun c _ next => c.Takes (mark expected).tokens next := by
  refine moves_consume.bind fun t => .ite (fun _ => .fail) fun h => .pure ?_
  rintro next c ⟨-, htakes, -⟩
  rwa [Decidable.not_not.1 h] at htakes

theorem moves_expectWord (expected : Keyword) (context : String) :
    Moves (expectWord expected context) fun c _ next => c.Takes (word expected).tokens next := by
  refine moves_consume.bind fun t => .ite (fun _ => .fail) fun h => .pure ?_
  rintro next c ⟨-, htakes, -⟩
  rwa [Decidable.not_not.1 h] at htakes

theorem moves_expectName (context : String) : Moves (expectName context) fun c name next =>
    c.Takes name.namePhrase.tokens next := by
  refine moves_consume.bind fun t => ?_
  split
  · rename_i hkind
    refine .pure ?_
    rintro next c ⟨hhead, htakes, hlast⟩
    rw [hkind] at htakes
    exact htakes.single.node (by simp) (Cursor.begins_of_head hhead) (by rw [hlast])
  · exact .fail

theorem moves_expectString (context : String) : Moves (expectString context) fun c value next =>
    c.Takes value.stringPhrase.tokens next := by
  refine moves_consume.bind fun t => ?_
  split
  · rename_i hkind
    refine .pure ?_
    rintro next c ⟨hhead, htakes, hlast⟩
    rw [hkind] at htakes
    exact htakes.single.node (by simp) (Cursor.begins_of_head hhead) (by rw [hlast])
  · exact .fail

theorem moves_another (close : Punctuator) (context : String) :
    Moves (another close context) fun c more next =>
      c.Takes (mark (if more then .comma else close)).tokens next := by
  refine moves_consume.bind fun t => .ite (fun hcomma => .pure ?_) fun _ =>
    .ite (fun hclose => .pure ?_) fun _ => .fail
  · rintro next c ⟨-, htakes, -⟩
    rwa [hcomma] at htakes
  · rintro next c ⟨-, htakes, -⟩
    rwa [hclose] at htakes

section Lists

variable {α : Type} {item : Parser α} {view : α → Phrase} {close : Punctuator} {context : String}

theorem moves_itemsAt (h : Moves item fun c x next => c.Takes (view x).tokens next) (n : Nat) :
    Moves (itemsAt item close context n) fun c xs next =>
      xs ≠ [] ∧ c.Takes (seq (separated (xs.map view) ++ [mark close])).tokens next := by
  induction n with
  | zero => exact .throw
  | succ n ih =>
    refine h.bind fun first => (moves_another _ _).bind fun more => ?_
    cases more with
    | true =>
      refine ih.bind fun rest => .pure ?_
      rintro next c₂ ⟨hsome, hrest⟩ c₁ hcomma c hfirst
      obtain ⟨second, rest, rfl⟩ := List.exists_cons_of_ne_nil hsome
      exact ⟨nofun, hfirst.cons (hcomma.cons hrest)⟩
    | false =>
      refine .pure ?_
      intro next c₁ hclose c hfirst
      exact ⟨nofun, hfirst.cons hclose.single⟩

theorem moves_items (h : Moves item fun c x next => c.Takes (view x).tokens next) :
    Moves (items item close context) fun c xs next =>
      c.Takes (seq (separated (xs.map view) ++ [mark close])).tokens next := by
  refine (moves_nextIs _).bind fun empty => .ite (fun hempty => ?_) fun _ => ?_
  · refine .confirmed hempty fun t => .pure ?_
    intro next c _ hclose
    exact hclose.single
  · refine .bounded fun n => (moves_itemsAt h n).mono ?_
    rintro c xs next ⟨-, hitems⟩ _ ⟨rfl, -⟩
    exact hitems

theorem moves_trailingItemsAt (h : Moves item fun c x next => c.Takes (view x).tokens next)
    (n : Nat) : Moves (trailingItemsAt item close context n) fun c xs next =>
      c.Takes (seq (trailing (xs.map view) ++ [mark close])).tokens next := by
  induction n with
  | zero => exact .throw
  | succ n ih =>
    refine (moves_nextIs _).bind fun empty => .ite (fun hempty => ?_) fun _ => ?_
    · refine .confirmed hempty fun t => .pure ?_
      intro next c _ hclose
      exact hclose.single
    · refine h.bind fun first => (moves_another _ _).bind fun more => ?_
      cases more with
      | true =>
        refine ih.bind fun rest => .pure ?_
        rintro next c₂ hrest c₁ hcomma c hfirst _ ⟨rfl, -⟩
        cases rest with
        | nil => exact hfirst.cons (.cons (hcomma.mono fun _ => .inr) hrest)
        | cons second rest => exact hfirst.cons (hcomma.cons hrest)
      | false =>
        refine .pure ?_
        rintro next c₁ hclose c hfirst _ ⟨rfl, -⟩
        exact hfirst.cons (.cons ((Cursor.Takes.nil c₁).mono fun _ => .inl) hclose.single)

theorem moves_trailingItems (h : Moves item fun c x next => c.Takes (view x).tokens next) :
    Moves (trailingItems item close context) fun c xs next =>
      c.Takes (seq (trailing (xs.map view) ++ [mark close])).tokens next :=
  .bounded fun n => moves_trailingItemsAt h n

end Lists

/-! ### Types -/

theorem moves_modifiersAt (n : Nat) (t : Ty) : Moves (modifiersAt n t) fun m u next =>
    ∀ c : Cursor, c.Takes (seq t.phrases).tokens m → c.Takes (seq u.phrases).tokens next := by
  induction n generalizing t with
  | zero => exact .pure fun c _ ht => ht
  | succ n ih =>
    refine (moves_ahead 0).bind fun next => ?_
    split
    · refine .found fun _ => moves_consume.bind fun token => ?_
      split
      · rename_i hkind
        refine (ih (.array t .dynamic)).mono ?_
        rintro m u next hrest c₁ ⟨-, hclose, -⟩ c₀ _ hopen c ht
        rw [hkind] at hclose
        exact hrest c (ht.append (hopen.cons hclose.single))
      · rename_i literal hkind
        refine (moves_expectMark _ _).bind fun _ =>
          (ih (.array t (.fixed literal.value.toNat))).mono ?_
        rintro m u next hrest c₂ hclose c₁ ⟨-, hlength, -⟩ c₀ _ hopen c ht
        refine hrest c (ht.append (hopen.cons (.cons ?_ hclose.single)))
        exact hlength.mono fun _ ⟨t, hone, ht⟩ => ⟨t, hone, literal, ht.trans hkind, rfl⟩
      · exact .fail
    · refine .found fun _ => (ih (.pointer t)).mono ?_
      intro m u next hrest c₁ _ hat c ht
      exact hrest c (ht.append hat.single)
    · refine .pure ?_
      rintro m _ ⟨rfl, -⟩ c ht
      exact ht

theorem moves_type : Moves type fun c t next => c.Takes t.typePhrase.tokens next := by
  refine moves_consume.bind fun token => ?_
  split
  · rename_i name hkind
    refine (Moves.bounded fun n => moves_modifiersAt n (.base name)).bind fun t => .stop ?_
    rintro next m ht c ⟨hhead, hname, -⟩
    rw [hkind] at hname
    exact (ht c hname.single).node t.solid_phrases (Cursor.begins_of_head hhead) rfl
  · exact .fail

/-! ### Expressions -/

theorem Cursor.Takes.expr_begins {c next : Cursor} {e : Expr} (h : c.Takes e.phrase.tokens next) :
    c.Begins e.span.start := by
  cases e <;> exact h.begins

theorem Cursor.Takes.expr_stop {c next : Cursor} {e : Expr} (h : c.Takes e.phrase.tokens next) :
    next.last.stop = e.span.stop := by
  cases e <;> exact h.stop

section Operators

variable {operand nested : Parser Expr} {op? : Kind → Option BinaryOp} {level : Level}

theorem moves_binaryAt (htable : Tabulates op? level)
    (h : Moves operand fun c e next => c.Takes e.phrase.tokens next) (n : Nat) (lhs : Expr) :
    Moves (binaryAt op? operand n lhs) fun m e next =>
      ∀ c : Cursor, c.Takes lhs.phrase.tokens m → c.Takes e.phrase.tokens next := by
  induction n generalizing lhs with
  | zero => exact .pure fun c _ hlhs => hlhs
  | succ n ih =>
    refine (moves_ahead 0).bind fun next => ?_
    split
    · refine .pure ?_
      rintro m _ ⟨rfl, -⟩ c hlhs
      exact hlhs
    · rename_i op hop
      refine moves_consume.bind fun mark => h.bind fun rhs => (ih _).mono ?_
      rintro m e next hrest c₂ hrhs c₁ ⟨hhead, hmark, hlast⟩ _ ⟨rfl, rfl⟩ c hlhs
      rw [← List.head?_eq_getElem?, hhead] at hop
      rw [((htable mark.kind op).1 hop).2] at hmark
      have hop : c₁.Takes (node mark.span [token op.token]).tokens c₂ :=
        hmark.single.node (by simp) (Cursor.begins_of_head hhead) (by rw [hlast])
      have hall := hlhs.cons (hop.cons hrhs.single)
      exact hrest c (hall.node (by simp) hlhs.expr_begins hrhs.expr_stop)

theorem moves_binary (htable : Tabulates op? level)
    (h : Moves operand fun c e next => c.Takes e.phrase.tokens next) :
    Moves (binary op? operand) fun c e next => c.Takes e.phrase.tokens next := by
  refine h.bind fun lhs => .bounded fun n => (moves_binaryAt htable h n lhs).mono ?_
  exact fun m e next hrest c hlhs => hrest c hlhs

theorem moves_unaryOver (hnested : Moves nested fun c e next => c.Takes e.phrase.tokens next)
    (h : Moves operand fun c e next => c.Takes e.phrase.tokens next) :
    Moves (unaryOver nested operand) fun c e next => c.Takes e.phrase.tokens next := by
  refine moves_peek.bind fun token => ?_
  split
  · refine h.mono ?_
    rintro c e next he _ ⟨rfl, -⟩
    exact he
  · rename_i op hop
    refine moves_consume.bind fun mark => hnested.bind fun inner => .pure ?_
    rintro next c₁ hinner c ⟨hhead, hmark, hlast⟩ _ ⟨rfl, hpeek⟩
    obtain rfl : mark = token := Option.some.inj (hhead.symm.trans hpeek)
    have hmark : c.Takes (one (· ∈ op.tokens)).tokens c₁ :=
      hmark.mono fun _ ⟨t, hone, ht⟩ => ⟨t, hone, ht ▸ unaryOp?_eq_some.1 hop⟩
    have hbegins : c.Begins mark.start := Cursor.begins_of_head hhead
    have hop : c.Takes (node mark.span [one (· ∈ op.tokens)]).tokens c₁ :=
      hmark.single.node (by simp) hbegins (by rw [hlast])
    exact (hop.cons hinner.single).node (by simp) hbegins hinner.expr_stop

theorem moves_conversionsAt (n : Nat) (e : Expr) : Moves (conversionsAt n e) fun m e' next =>
    ∀ c : Cursor, c.Takes e.phrase.tokens m → c.Takes e'.phrase.tokens next := by
  induction n generalizing e with
  | zero => exact .pure fun _ _ he => he
  | succ n ih =>
    refine (moves_nextIs _).bind fun arrow => .ite (fun harrow => ?_) fun _ => .pure ?_
    · refine .confirmed harrow fun _ => moves_type.bind fun target => (ih _).mono ?_
      intro m e' next hrest c₁ htarget c₀ _ hmark c he
      exact hrest c ((he.cons (hmark.cons htarget.single)).node (by simp) he.expr_begins
        htarget.stop)
    · rintro m _ ⟨rfl, -⟩ c he
      exact he

theorem moves_converted (h : Moves operand fun c e next => c.Takes e.phrase.tokens next) :
    Moves (converted operand) fun c e next => c.Takes e.phrase.tokens next := by
  refine h.bind fun e => .bounded fun n => (moves_conversionsAt n e).mono ?_
  exact fun m e' next hrest c he => hrest c he

end Operators

section Leaves

variable {expr leaf : Parser Expr}

theorem moves_accessorsAt (h : Moves expr fun c e next => c.Takes e.phrase.tokens next) (n : Nat) :
    Moves (accessorsAt expr n) fun c accessors next =>
      c.Takes (seq (Accessor.phrases accessors)).tokens next := by
  induction n with
  | zero => exact .pure .nil
  | succ n ih =>
    refine (moves_ahead 0).bind fun next => ?_
    split
    · refine .found fun _ => (moves_items h).bind fun arguments =>
        moves_position.bind fun stop => ih.bind fun rest => .pure ?_
      rintro next _ hrest m ⟨rfl, rfl⟩ c₁ harguments c hstart hopen
      rw [← Expr.phrases_eq_map] at harguments
      exact .cons ((hopen.cons harguments).node (by simp) hstart rfl) hrest
    · refine .found fun _ => h.bind fun position => (moves_expectMark _ _).bind fun _ =>
        moves_position.bind fun stop => ih.bind fun rest => .pure ?_
      rintro next _ hrest m ⟨rfl, rfl⟩ c₂ hclose c₁ hposition c hstart hopen
      exact .cons ((hopen.cons (hposition.cons hclose.single)).node (by simp) hstart rfl) hrest
    · refine .found fun _ => (moves_expectName _).bind fun name =>
        moves_position.bind fun stop => ih.bind fun rest => .pure ?_
      rintro next _ hrest m ⟨rfl, rfl⟩ c₁ hname c hstart hperiod
      exact .cons ((hperiod.cons hname.single).node (by simp) hstart rfl) hrest
    · refine .found fun _ => moves_position.bind fun stop => ih.bind fun rest => .pure ?_
      rintro next _ hrest m ⟨rfl, rfl⟩ c hstart hat
      exact .cons (hat.single.node (by simp) hstart rfl) hrest
    · refine .pure ?_
      rintro m _ ⟨rfl, -⟩
      exact .nil _

theorem moves_place (h : Moves expr fun c e next => c.Takes e.phrase.tokens next) :
    Moves (place expr) fun c p next => c.Takes (node p.span p.value.phrases).tokens next := by
  refine (moves_expectName _).bind fun name =>
    (Moves.bounded fun n => moves_accessorsAt h n).bind fun accessors => .stop ?_
  intro next m haccessors c hname
  exact (hname.cons haccessors).node (by simp [Located.namePhrase]) hname.begins rfl

theorem moves_argument (h : Moves expr fun c e next => c.Takes e.phrase.tokens next) :
    Moves (argument expr) fun c a next => c.Takes a.phrase.tokens next := by
  have hplain : Moves (do return Argument.mk none (← expr)) fun c a next =>
      c.Takes a.phrase.tokens next := h.bind fun e => .pure fun _ _ he => he
  refine moves_peek.bind fun token => ?_
  split
  · rename_i name hkind
    refine (moves_ahead 1).bind fun next => .ite (fun hassign => ?_) fun _ => hplain.mono ?_
    · refine moves_consume.bind fun first => moves_consume.bind fun second =>
        h.bind fun e => .pure ?_
      rintro end_ c₂ he c₁ ⟨hsecond, hmark, -⟩ c ⟨hfirst, hname, hlast⟩ _ ⟨rfl, hnext⟩ _
        ⟨rfl, hpeek⟩
      obtain rfl : first = token := Option.some.inj (hfirst.symm.trans hpeek)
      have hahead : next = some second.kind := by
        obtain ⟨_, ⟨t, rfl, -⟩, hrest, -⟩ := hname
        rw [hnext, hrest, List.singleton_append, List.getElem?_cons_succ, ← List.head?_eq_getElem?,
          hsecond, Option.map_some]
      rw [hkind] at hname
      rw [Option.some.inj (hahead.symm.trans hassign)] at hmark
      have hname : c.Takes (Located.namePhrase ⟨first.span, name⟩).tokens c₁ :=
        hname.single.node (by simp) (Cursor.begins_of_head hfirst) (by rw [hlast])
      exact hname.cons (.cons hmark he.single)
    · rintro c a next ha _ ⟨rfl, -⟩ _ ⟨rfl, -⟩
      exact ha
  · refine hplain.mono ?_
    rintro c a next ha _ ⟨rfl, -⟩
    exact ha

theorem moves_constructAfter (start : Location)
    (h : Moves expr fun c e next => c.Takes e.phrase.tokens next) :
    Moves (constructAfter start expr) fun c e next =>
      c.Begins start → c.Takes e.phrase.tokens next := by
  refine (moves_expectName _).bind fun record => (moves_expectMark _ _).bind fun _ =>
    (moves_expectMark _ _).bind fun _ =>
      (moves_trailingItems (moves_argument h)).bind fun arguments => .stop ?_
  intro next c₃ harguments c₂ hbrace c₁ hmark c hrecord hstart
  rw [← Argument.phrases_eq_map] at harguments
  refine Cursor.Takes.node ?_ (by simp [Located.namePhrase]) hstart rfl
  exact hrecord.cons (hmark.cons (hbrace.cons harguments))

theorem moves_literal {token : Token} {kind : Kind} {make : Location → Expr}
    (hkind : token.kind = kind)
    (hmake : ∀ stop, (make stop).phrase = node ⟨token.start, stop⟩ [Phrase.token kind]) :
    Moves (do
      let _ ← consume
      return make (← position)) fun m e next => ∀ c : Cursor,
        m = c ∧ c.rest.head? = some token → c.Takes e.phrase.tokens next := by
  refine .peeked hkind fun _ => .stop ?_
  intro next c hstart htoken
  rw [hmake]
  exact htoken.single.node (by simp) hstart rfl

theorem moves_leafOver (hexpr : Moves expr fun c e next => c.Takes e.phrase.tokens next)
    (hleaf : Moves leaf fun c e next => c.Takes e.phrase.tokens next) :
    Moves (leafOver expr leaf) fun c e next => c.Takes e.phrase.tokens next := by
  refine moves_peek.bind fun token => ?_
  dsimp only
  split
  · exact moves_literal ‹_› fun _ => rfl
  · exact moves_literal ‹_› fun _ => rfl
  · exact moves_literal ‹_› fun _ => rfl
  · exact moves_literal ‹_› fun _ => rfl
  · exact moves_literal ‹_› fun _ => rfl
  · exact moves_literal ‹_› fun _ => rfl
  · refine (moves_ahead 1).bind fun second => (moves_ahead 2).bind fun third =>
      .ite (fun _ => ?_) fun _ => ?_
    · refine (moves_constructAfter _ hexpr).mono ?_
      rintro c e next he _ ⟨rfl, -⟩ _ ⟨rfl, -⟩ _ ⟨rfl, hpeek⟩
      exact he (Cursor.begins_of_head hpeek)
    · refine (moves_place hexpr).bind fun p => .stop ?_
      rintro next c hp _ ⟨rfl, -⟩ _ ⟨rfl, -⟩ _ ⟨rfl, hpeek⟩
      exact hp.of_node.node (by simp [Place.phrases, Located.namePhrase])
        (Cursor.begins_of_head hpeek) rfl
  · refine .peeked ‹_› fun _ => hexpr.bind fun inner => (moves_expectMark _ _).bind fun _ =>
      .stop ?_
    intro next c₂ hclose c₁ hinner c hstart hopen
    exact (hopen.cons (hinner.cons hclose.single)).node (by simp) hstart rfl
  · refine .peeked ‹_› fun _ => (moves_items hexpr).bind fun elements => .stop ?_
    intro next c₁ helements c hstart hopen
    rw [← Expr.phrases_eq_map] at helements
    exact (hopen.cons helements).node (by simp) hstart rfl
  · refine .peeked ‹_› fun _ => hleaf.bind fun size => .stop ?_
    intro next c₁ hsize c hstart hstar
    exact (hstar.cons hsize.single).node (by simp) hstart rfl
  · refine .peeked ‹_› fun _ => (moves_place hexpr).bind fun p => .stop ?_
    intro next c₁ hp c hstart hat
    exact (hat.cons hp.single).node (by simp) hstart rfl
  all_goals exact moves_consume.bind fun t => .fail

end Leaves

theorem moves_expressionAt (n : Nat) :
    (Moves (expressionAt n) fun c e next => c.Takes e.phrase.tokens next) ∧
    (Moves (unaryAt n) fun c e next => c.Takes e.phrase.tokens next) ∧
    Moves (leafAt n) fun c e next => c.Takes e.phrase.tokens next := by
  induction n with
  | zero => exact ⟨.throw, .throw, .throw⟩
  | succ n ih =>
    have hleaf := moves_leafOver ih.1 ih.2.2
    have hunary := moves_unaryOver ih.2.1 (moves_converted hleaf)
    have hchain := moves_binary tabulates_logicalOp (moves_binary tabulates_comparisonOp
      (moves_binary tabulates_additiveOp (moves_binary tabulates_multiplicativeOp hunary)))
    exact ⟨hchain, hunary, hleaf⟩

theorem moves_expression : Moves expression fun c e next => c.Takes e.phrase.tokens next :=
  .bounded fun n => (moves_expressionAt n).1

end Parse

end RegionCompiler
