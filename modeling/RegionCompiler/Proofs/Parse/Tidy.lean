import RegionCompiler.Parse
import RegionCompiler.Proofs.Tidy

/-! Reading tidy tokens gives tidy programs. A parser is judged by what it gives back, and by
leaving a tidy cursor whether it succeeds or not. -/
namespace RegionCompiler.Parse

def Cursor.Tidy (c : Cursor) : Prop := ∀ t ∈ c.rest, t.kind.Tidy

/-- From a tidy cursor the parser gives only what satisfies the predicate. -/
def Gives {α : Type} (p : Parser α) (P : α → Prop) : Prop :=
  ∀ c : Cursor, c.Tidy →
    match p c with
    | .ok a next => P a ∧ next.Tidy
    | .error _ stopped => stopped.Tidy

namespace Gives

variable {α β : Type} {p : Parser α} {P Q : α → Prop} {R : β → Prop}

theorem pure {a : α} (h : P a) : Gives (Pure.pure a) P := fun _ hc => ⟨h, hc⟩

theorem throw {e : Failure} : Gives (MonadExcept.throw e : Parser α) P := fun _ hc => hc

theorem fail {d : Diagnostic} : Gives (Parse.fail d : Parser α) P := fun _ hc => hc

theorem bind {f : α → Parser β} (hp : Gives p P) (hf : ∀ a, P a → Gives (f a) R) :
    Gives (p >>= f) R := by
  intro c hc
  have h := hp c hc
  change match EStateM.bind p f c with | .ok a next => _ | .error _ stopped => _
  unfold EStateM.bind
  split at h
  · rename_i a next heq
    rw [heq]
    exact hf a h.1 next h.2
  · rename_i e stopped heq
    rw [heq]
    exact h

theorem bounded {p : Nat → Parser α} (h : ∀ n, Gives (p n) P) : Gives (Parse.bounded p) P :=
  fun c hc => h c.rest.length c hc

theorem ite {b : Bool} {q : Parser α} (hp : Gives p P) (hq : Gives q P) :
    Gives (if b then p else q) P := by
  cases b
  · exact hq
  · exact hp

end Gives

theorem gives_peek : Gives peek (·.kind.Tidy) := by
  intro c hc
  unfold peek
  split
  · rename_i heq
    split at heq <;> cases heq
    exact ⟨hc _ (by simp [*]), hc⟩
  · rename_i heq
    split at heq <;> cases heq
    exact hc

theorem gives_consume : Gives consume (·.kind.Tidy) := by
  rintro ⟨rest, last⟩ hc
  cases rest with
  | nil => exact hc
  | cons t rest => exact ⟨hc t (by simp), fun u hu => hc u (by simp [hu])⟩

theorem gives_position : Gives position fun _ => True := fun _ hc => ⟨trivial, hc⟩

theorem gives_ahead (n : Nat) : Gives (ahead? n) fun _ => True := fun _ hc => ⟨trivial, hc⟩

theorem gives_nextIsMark (mark : Punctuator) : Gives (nextIsMark mark) fun _ => True :=
  (gives_ahead 0).bind fun _ _ => .pure trivial

theorem gives_nextIsWord (word : Keyword) : Gives (nextIsWord word) fun _ => True :=
  (gives_ahead 0).bind fun _ _ => .pure trivial

theorem gives_expectMark (mark : Punctuator) (context : String) :
    Gives (expectMark mark context) fun _ => True := by
  refine gives_consume.bind fun t _ => ?_
  split
  · exact .fail
  · exact .pure trivial

theorem gives_expectWord (word : Keyword) (context : String) :
    Gives (expectWord word context) fun _ => True := by
  refine gives_consume.bind fun t _ => ?_
  split
  · exact .fail
  · exact .pure trivial

theorem gives_expectName (context : String) :
    Gives (expectName context) fun n => IsName n.value := by
  refine gives_consume.bind fun t ht => ?_
  split
  · rename_i heq
    rw [heq] at ht
    exact .pure ht
  · exact .fail

theorem gives_expectString (context : String) : Gives (expectString context) fun _ => True := by
  refine gives_consume.bind fun t _ => ?_
  split
  · exact .pure trivial
  · exact .fail

theorem gives_another (close : Punctuator) (context : String) :
    Gives (another close context) fun _ => True := by
  refine gives_consume.bind fun t _ => ?_
  split
  · exact .pure trivial
  · split
    · exact .pure trivial
    · exact .fail

section Items

variable {α : Type} {item : Parser α} {P : α → Prop}

theorem gives_itemsAt (h : Gives item P) (close : Punctuator) (context : String) (n : Nat) :
    Gives (itemsAt item close context n) fun as => ∀ a ∈ as, P a := by
  induction n with
  | zero => exact .throw
  | succ n ih =>
    refine h.bind fun first hfirst => (gives_another close context).bind fun more _ => ?_
    refine .ite (ih.bind fun rest hrest => .pure ?_) (.pure ?_)
    · simpa using ⟨hfirst, hrest⟩
    · simpa using hfirst

theorem gives_items (h : Gives item P) (close : Punctuator) (context : String) :
    Gives (items item close context) fun as => ∀ a ∈ as, P a := by
  refine (gives_nextIsMark close).bind fun stop _ => ?_
  refine .ite (gives_consume.bind fun _ _ => .pure (by simp)) ?_
  exact .bounded (gives_itemsAt h close context)

theorem gives_trailingItems (h : Gives item P) (close : Punctuator) (context : String) :
    Gives (trailingItems item close context) fun as => ∀ a ∈ as, P a := by
  refine .bounded fun n => ?_
  induction n with
  | zero => exact .throw
  | succ n ih =>
    refine (gives_nextIsMark close).bind fun stop _ => ?_
    refine .ite (gives_consume.bind fun _ _ => .pure (by simp)) ?_
    refine h.bind fun first hfirst => (gives_another close context).bind fun more _ => ?_
    refine .ite (ih.bind fun rest hrest => .pure ?_) (.pure ?_)
    · simpa using ⟨hfirst, hrest⟩
    · simpa using hfirst

end Items

theorem gives_modifiersAt (n : Nat) {t : Ty} (ht : t.IsData) :
    Gives (modifiersAt n t) Ty.IsData := by
  induction n generalizing t with
  | zero => exact .pure ht
  | succ n ih =>
    refine (gives_ahead 0).bind fun next _ => ?_
    split
    · refine gives_consume.bind fun _ _ => gives_consume.bind fun token _ => ?_
      split
      · exact ih (t := .array t .dynamic) ht
      · exact (gives_expectMark _ _).bind fun _ _ => ih (t := .array t (.fixed _)) ht
      · exact .fail
    · exact gives_consume.bind fun _ _ => ih (t := .pointer t) ht
    · exact .pure ht

theorem gives_type : Gives type fun t => t.value.IsData := by
  refine gives_consume.bind fun token _ => ?_
  split
  · refine (Gives.bounded fun n => gives_modifiersAt n (t := .base _) trivial).bind fun t ht => ?_
    exact gives_position.bind fun _ _ => .pure ht
  · exact .fail

/-! Expressions. -/

theorem gives_binaryAt (op? : Token.Kind → Option BinaryOp) {operand : Parser Expr}
    (h : Gives operand Expr.Tidy) (n : Nat) {lhs : Expr} (hl : lhs.Tidy) :
    Gives (binaryAt op? operand n lhs) Expr.Tidy := by
  induction n generalizing lhs with
  | zero => exact .pure hl
  | succ n ih =>
    refine (gives_ahead 0).bind fun next _ => ?_
    split
    · exact .pure hl
    · refine gives_consume.bind fun token _ => h.bind fun rhs hr => ih ?_
      simpa only [Expr.Tidy] using ⟨hl, hr⟩

theorem gives_binary (op? : Token.Kind → Option BinaryOp) {operand : Parser Expr}
    (h : Gives operand Expr.Tidy) : Gives (binary op? operand) Expr.Tidy :=
  h.bind fun _ hl => .bounded fun n => gives_binaryAt op? h n hl

theorem gives_binaryLevels {operand : Parser Expr} (h : Gives operand Expr.Tidy) :
    Gives (binaryLevels operand) Expr.Tidy :=
  gives_binary _ (gives_binary _ (gives_binary _ (gives_binary _ h)))

theorem gives_unaryOver {nested operand : Parser Expr} (hn : Gives nested Expr.Tidy)
    (ho : Gives operand Expr.Tidy) : Gives (unaryOver nested operand) Expr.Tidy := by
  refine gives_peek.bind fun token _ => ?_
  split
  · exact ho
  · refine gives_consume.bind fun token _ => hn.bind fun inner hi => .pure ?_
    simpa only [Expr.Tidy] using hi

theorem gives_conversionsAt (n : Nat) {e : Expr} (he : e.Tidy) :
    Gives (conversionsAt n e) Expr.Tidy := by
  induction n generalizing e with
  | zero => exact .pure he
  | succ n ih =>
    refine (gives_nextIsMark _).bind fun more _ => .ite ?_ (.pure he)
    refine gives_consume.bind fun _ _ => gives_type.bind fun target ht => ih ?_
    simpa only [Expr.Tidy] using ⟨he, ht⟩

theorem gives_converted {leaf : Parser Expr} (h : Gives leaf Expr.Tidy) :
    Gives (converted leaf) Expr.Tidy :=
  h.bind fun _ he => .bounded fun n => gives_conversionsAt n he

theorem gives_accessorsAt {expr : Parser Expr} (h : Gives expr Expr.Tidy) (n : Nat) :
    Gives (accessorsAt expr n) Accessor.AllTidy := by
  induction n with
  | zero => exact .pure trivial
  | succ n ih =>
    have hcons : ∀ {a : Accessor}, a.Tidy →
        Gives (do return a :: (← accessorsAt expr n)) Accessor.AllTidy := by
      intro a ha
      refine ih.bind fun rest hrest => .pure ?_
      simpa only [Accessor.AllTidy] using ⟨ha, hrest⟩
    refine (gives_ahead 0).bind fun next _ => ?_
    split
    · refine gives_consume.bind fun _ _ => (gives_items h _ _).bind fun arguments ha => ?_
      refine gives_position.bind fun _ _ => hcons ?_
      simpa only [Accessor.Tidy] using Expr.allTidy_iff.2 ha
    · refine gives_consume.bind fun _ _ => h.bind fun index hi => ?_
      refine (gives_expectMark _ _).bind fun _ _ => gives_position.bind fun _ _ => hcons ?_
      simpa only [Accessor.Tidy] using hi
    · refine gives_consume.bind fun _ _ => (gives_expectName _).bind fun _ _ => ?_
      exact gives_position.bind fun _ _ => hcons (by simp only [Accessor.Tidy])
    · refine gives_consume.bind fun _ _ => gives_position.bind fun _ _ => hcons ?_
      simp only [Accessor.Tidy]
    · exact .pure trivial

theorem gives_place {expr : Parser Expr} (h : Gives expr Expr.Tidy) :
    Gives (place expr) fun p => p.value.Tidy := by
  refine (gives_expectName _).bind fun name hn => ?_
  refine (Gives.bounded fun n => gives_accessorsAt h n).bind fun accessors ha => ?_
  exact gives_position.bind fun _ _ => .pure ⟨⟨hn, rfl, rfl⟩, ha⟩

theorem gives_argument {expr : Parser Expr} (h : Gives expr Expr.Tidy) :
    Gives (argument expr) Argument.Tidy := by
  refine gives_peek.bind fun token _ => ?_
  split
  · refine (gives_ahead 1).bind fun next _ => ?_
    split
    · exact gives_consume.bind fun _ _ => gives_consume.bind fun _ _ =>
        h.bind fun e he => .pure (by simpa only [Argument.Tidy] using he)
    · exact h.bind fun e he => .pure (by simpa only [Argument.Tidy] using he)
  · exact h.bind fun e he => .pure (by simpa only [Argument.Tidy] using he)

theorem gives_constructAfter (start : Location) {expr : Parser Expr}
    (h : Gives expr Expr.Tidy) : Gives (constructAfter start expr) Expr.Tidy := by
  refine (gives_expectName _).bind fun record _ => (gives_expectMark _ _).bind fun _ _ => ?_
  refine (gives_expectMark _ _).bind fun _ _ => ?_
  refine (gives_trailingItems (gives_argument h) _ _).bind fun arguments ha => ?_
  refine gives_position.bind fun _ _ => .pure ?_
  simpa only [Expr.Tidy] using Argument.allTidy_iff.2 ha

theorem gives_leafOver {expr leaf : Parser Expr} (he : Gives expr Expr.Tidy)
    (hl : Gives leaf Expr.Tidy) : Gives (leafOver expr leaf) Expr.Tidy := by
  have hsimple : ∀ {e : Location → Expr}, (∀ l, (e l).Tidy) →
      Gives (do let _ ← consume; return e (← position)) Expr.Tidy := fun h =>
    gives_consume.bind fun _ _ => gives_position.bind fun l _ => .pure (h l)
  refine gives_peek.bind fun token _ => ?_
  dsimp only
  split
  · exact hsimple fun _ => by simp only [Expr.Tidy]
  · exact hsimple fun _ => by simp only [Expr.Tidy]
  · exact hsimple fun _ => by simp only [Expr.Tidy]
  · exact hsimple fun _ => by simp only [Expr.Tidy]
  · exact hsimple fun _ => by simp only [Expr.Tidy]
  · exact hsimple fun _ => by simp only [Expr.Tidy]
  · refine (gives_ahead 1).bind fun _ _ => (gives_ahead 2).bind fun _ _ => ?_
    split
    · exact gives_constructAfter _ he
    · refine (gives_place he).bind fun p hp => gives_position.bind fun _ _ => .pure ?_
      simpa only [Expr.Tidy, Place.Tidy] using hp
  · refine gives_consume.bind fun _ _ => he.bind fun inner hi => ?_
    refine (gives_expectMark _ _).bind fun _ _ => gives_position.bind fun _ _ => .pure ?_
    simpa only [Expr.Tidy] using hi
  · refine gives_consume.bind fun _ _ => (gives_items he _ _).bind fun elements hs => ?_
    refine gives_position.bind fun _ _ => .pure ?_
    simpa only [Expr.Tidy] using Expr.allTidy_iff.2 hs
  · refine gives_consume.bind fun _ _ => hl.bind fun size hs => ?_
    refine gives_position.bind fun _ _ => .pure ?_
    simpa only [Expr.Tidy] using hs
  · refine gives_consume.bind fun _ _ => (gives_place he).bind fun target ht => ?_
    refine gives_position.bind fun _ _ => .pure ?_
    simpa only [Expr.Tidy, Place.Tidy] using ht
  all_goals exact gives_consume.bind fun _ _ => .fail

theorem gives_levelsAt (n : Nat) : Gives (expressionAt n) Expr.Tidy ∧
    Gives (unaryAt n) Expr.Tidy ∧ Gives (leafAt n) Expr.Tidy := by
  induction n with
  | zero => exact ⟨.throw, .throw, .throw⟩
  | succ n ih =>
    obtain ⟨he, hu, hl⟩ := ih
    have hleaf := gives_leafOver he hl
    have hunary := gives_unaryOver hu (gives_converted hleaf)
    exact ⟨gives_binaryLevels hunary, hunary, hleaf⟩

theorem gives_expression : Gives expression Expr.Tidy :=
  .bounded fun n => (gives_levelsAt n).1

/-! Statements. -/

theorem gives_statementsAt {statement : Parser Stmt} (h : Gives statement Stmt.Tidy) (n : Nat) :
    Gives (statementsAt statement n) Stmt.AllTidy := by
  induction n with
  | zero => exact .throw
  | succ n ih =>
    refine (gives_nextIsMark _).bind fun stop _ => .ite ?_ ?_
    · exact gives_consume.bind fun _ _ => .pure trivial
    · refine h.bind fun first hf => ih.bind fun rest hr => .pure ?_
      simpa only [Stmt.AllTidy] using ⟨hf, hr⟩

theorem gives_blockOf {statement : Parser Stmt} (h : Gives statement Stmt.Tidy) :
    Gives (blockOf statement) Block.Tidy := by
  have hbody : ∀ start manual, Gives (do
      if ← nextIsMark .leftBrace then
        let _ ← consume
        let statements ← bounded (statementsAt statement)
        return Block.mk ⟨start, ← position⟩ manual statements
      else
        let only ← statement
        return Block.mk ⟨start, ← position⟩ manual [only]) Block.Tidy := by
    intro start manual
    refine (gives_nextIsMark _).bind fun braces _ => .ite ?_ ?_
    · refine gives_consume.bind fun _ _ => ?_
      refine (Gives.bounded fun n => gives_statementsAt h n).bind fun ss hs => ?_
      refine gives_position.bind fun _ _ => .pure ?_
      simpa only [Block.Tidy] using hs
    · refine h.bind fun only ho => gives_position.bind fun _ _ => .pure ?_
      simpa only [Block.Tidy, Stmt.AllTidy, and_true] using ho
  refine gives_peek.bind fun token _ => (gives_nextIsMark _).bind fun manual _ => ?_
  dsimp only
  split
  · exact gives_consume.bind fun _ _ => hbody _ _
  · exact hbody _ _

theorem gives_letAfter (start : Location) (allocate : Bool) :
    Gives (letAfter start allocate) Stmt.Tidy := by
  refine gives_type.bind fun ty ht => (gives_expectName _).bind fun name hn => ?_
  refine (gives_expectMark _ _).bind fun _ _ => gives_expression.bind fun value hv => ?_
  refine gives_position.bind fun _ _ => .pure ?_
  simpa only [Stmt.Tidy] using ⟨ht, hn, hv⟩

theorem gives_forAfter (start : Location) {block : Parser Block} (h : Gives block Block.Tidy) :
    Gives (forAfter start block) Stmt.Tidy := by
  refine (gives_expectName _).bind fun iterator hi => (gives_expectWord _ _).bind fun _ _ => ?_
  refine gives_expression.bind fun first hf => (gives_expectWord _ _).bind fun _ _ => ?_
  refine gives_expression.bind fun last hl => h.bind fun body hb => ?_
  refine gives_position.bind fun _ _ => .pure ?_
  simpa only [Stmt.Tidy] using ⟨hi, hf, hl, hb⟩

theorem gives_ifAfter (start : Location) {block : Parser Block} (h : Gives block Block.Tidy) :
    Gives (ifAfter start block) Stmt.Tidy := by
  refine gives_expression.bind fun condition hc => h.bind fun yes hy => ?_
  refine (gives_nextIsWord _).bind fun other _ => .ite ?_ ?_
  · refine gives_consume.bind fun _ _ => h.bind fun no hn => ?_
    refine gives_position.bind fun _ _ => .pure ?_
    simpa only [Stmt.Tidy] using ⟨hc, hy, hn⟩
  · refine gives_position.bind fun _ _ => .pure ?_
    simpa only [Stmt.Tidy] using ⟨hc, hy⟩

theorem gives_statementOver {block : Parser Block} (h : Gives block Block.Tidy) :
    Gives (statementOver block) Stmt.Tidy := by
  refine gives_peek.bind fun token _ => ?_
  dsimp only
  split
  · exact gives_consume.bind fun _ _ => gives_letAfter _ _
  · exact gives_consume.bind fun _ _ => gives_letAfter _ _
  · refine gives_consume.bind fun _ _ => (gives_place gives_expression).bind fun target ht => ?_
    refine (gives_expectMark _ _).bind fun _ _ => gives_expression.bind fun value hv => ?_
    refine gives_position.bind fun _ _ => .pure ?_
    simpa only [Stmt.Tidy] using ⟨ht, hv⟩
  · refine gives_consume.bind fun _ _ => gives_expression.bind fun value hv => ?_
    refine gives_position.bind fun _ _ => .pure ?_
    simpa only [Stmt.Tidy] using hv
  · refine gives_consume.bind fun _ _ => gives_expression.bind fun value hv => ?_
    refine gives_position.bind fun _ _ => .pure ?_
    simpa only [Stmt.Tidy] using hv
  · refine gives_consume.bind fun _ _ => (gives_ahead 0).bind fun next _ => .ite ?_ ?_
    · refine gives_expression.bind fun value hv => gives_position.bind fun _ _ => .pure ?_
      simpa only [Stmt.Tidy] using hv
    · exact gives_position.bind fun _ _ => .pure (by simp only [Stmt.Tidy])
  · refine gives_consume.bind fun _ _ => gives_position.bind fun _ _ => .pure ?_
    simp only [Stmt.Tidy]
  · refine gives_consume.bind fun _ _ => gives_position.bind fun _ _ => .pure ?_
    simp only [Stmt.Tidy]
  · exact gives_consume.bind fun _ _ => gives_ifAfter _ h
  · refine gives_consume.bind fun _ _ => gives_expression.bind fun condition hc => ?_
    refine h.bind fun body hb => gives_position.bind fun _ _ => .pure ?_
    simpa only [Stmt.Tidy] using ⟨hc, hb⟩
  · refine gives_consume.bind fun _ _ => h.bind fun body hb => ?_
    refine (gives_expectWord _ _).bind fun _ _ => gives_expression.bind fun condition hc => ?_
    refine gives_position.bind fun _ _ => .pure ?_
    simpa only [Stmt.Tidy] using ⟨hc, hb⟩
  · exact gives_consume.bind fun _ _ => gives_forAfter _ h
  · refine h.bind fun body hb => gives_position.bind fun _ _ => .pure ?_
    simpa only [Stmt.Tidy] using hb
  · refine h.bind fun body hb => gives_position.bind fun _ _ => .pure ?_
    simpa only [Stmt.Tidy] using hb
  · exact gives_consume.bind fun _ _ => .fail

theorem gives_statementAt (n : Nat) : Gives (statementAt n) Stmt.Tidy := by
  induction n with
  | zero => exact .throw
  | succ n ih => exact gives_statementOver (gives_blockOf ih)

theorem gives_block : Gives block Block.Tidy :=
  .bounded fun n => gives_blockOf (gives_statementAt n)

/-! Declarations. -/

theorem gives_resultType : Gives resultType fun t => t.value.IsData := by
  refine (gives_ahead 0).bind fun next _ => ?_
  split
  · exact gives_type
  · exact gives_position.bind fun _ _ => .pure trivial

theorem gives_parameter : Gives parameter fun p => p.ty.value.IsData ∧ IsName p.name.value :=
  gives_type.bind fun _ ht => (gives_expectName _).bind fun _ hn => .pure ⟨ht, hn⟩

theorem gives_functionAfter (start : Location) : Gives (functionAfter start) Function.Tidy := by
  refine (gives_expectName _).bind fun name hn => (gives_expectMark _ _).bind fun _ _ => ?_
  refine (gives_items gives_parameter _ _).bind fun parameters hp => ?_
  refine gives_resultType.bind fun result hr => gives_peek.bind fun token _ => ?_
  have hbody : Gives (do
      let body ← block
      return Function.mk ⟨start, ← position⟩ name parameters result body .empty)
      Function.Tidy :=
    gives_block.bind fun body hb => gives_position.bind fun _ _ => .pure ⟨hn, hp, hr, hb⟩
  dsimp only
  split
  · exact Gives.fail (P := fun _ => True) |>.bind fun _ _ => hbody
  · exact hbody

theorem gives_foreignParameter :
    Gives foreignParameter fun p => ∀ t, p.ty? = some t → t.IsData := by
  refine (gives_nextIsMark _).bind fun variadic _ => .ite ?_ ?_
  · exact gives_consume.bind fun _ _ => .pure (by simp [ForeignParameter.ty?])
  · refine gives_type.bind fun ty ht => gives_peek.bind fun token _ => ?_
    split
    · exact gives_consume.bind fun _ _ => .pure (by simpa [ForeignParameter.ty?] using ht)
    · exact .pure (by simpa [ForeignParameter.ty?] using ht)

theorem gives_linkName : Gives linkName fun l => ∀ n, l = some n → IsName n.value := by
  refine (gives_nextIsWord _).bind fun from_ _ => .ite ?_ (.pure (by simp))
  exact gives_consume.bind fun _ _ => (gives_expectName _).bind fun name hn =>
    .pure (by simpa using hn)

theorem gives_foreignAfter (start : Location) :
    Gives (foreignAfter start) ForeignFunction.Tidy := by
  refine (gives_expectName _).bind fun name hn => gives_linkName.bind fun link hl => ?_
  refine (gives_expectMark _ _).bind fun _ _ => ?_
  refine (gives_items gives_foreignParameter _ _).bind fun parameters hp => ?_
  refine gives_resultType.bind fun result hr => gives_position.bind fun _ _ => .pure ?_
  refine ⟨hn, ?_, hp, hr⟩
  cases link with
  | none => exact hn
  | some other => exact hl other rfl

theorem gives_recordAfter (start : Location) : Gives (recordAfter start) Record.Tidy := by
  have hmember : Gives member fun m => m.ty.value.IsData :=
    gives_type.bind fun _ ht => (gives_expectName _).bind fun _ _ => .pure ht
  refine (gives_expectName _).bind fun name _ => (gives_expectMark _ _).bind fun _ _ => ?_
  refine (gives_trailingItems hmember _ _).bind fun members hm => ?_
  exact gives_position.bind fun _ _ => .pure hm

theorem gives_embedAfter (start : Location) :
    Gives (embedAfter start) fun e => IsName e.name.value := by
  refine (gives_expectString _).bind fun path _ => (gives_expectWord _ _).bind fun _ _ => ?_
  refine (gives_expectName _).bind fun name hn => ?_
  exact gives_position.bind fun _ _ => .pure hn

theorem gives_declaration : Gives declaration Declaration.Tidy := by
  refine gives_consume.bind fun token _ => ?_
  split
  · exact (gives_functionAfter _).bind fun f hf => .pure hf
  · exact (gives_foreignAfter _).bind fun f hf => .pure hf
  · exact (gives_recordAfter _).bind fun r hr => .pure hr
  · exact (gives_expectString _).bind fun _ _ => .pure trivial
  · exact (gives_embedAfter _).bind fun e he => .pure he
  · exact .fail

theorem declarationsAt_tidy (n : Nat) {c : Cursor} (hc : c.Tidy) :
    ∀ d ∈ (declarationsAt n c).1, d.Tidy := by
  induction n generalizing c with
  | zero => simp [declarationsAt]
  | succ n ih =>
    have hd := gives_declaration c hc
    unfold declarationsAt
    split
    · simp
    · split at hd
      · rename_i one next heq
        rw [heq]
        simpa using ⟨hd.1, ih hd.2⟩
      · rename_i failure stopped heq
        rw [heq]
        cases failure with
        | endOfFile => simp
        | reported d =>
          -- resuming only drops tokens
          exact ih fun t ht => hd t ((List.dropWhile_suffix _).subset ht)

/-- Every program read from a text is tidy, whatever else is wrong with it. -/
theorem source_program_tidy (path text : String) : (source path text).program.Tidy :=
  Program.tidy_ofDeclarations (declarationsAt_tidy _ (Token.lex_tidy text))

end RegionCompiler.Parse
