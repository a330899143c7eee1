import RegionCompiler.Proofs.Parse.Grammar

/-! Every tree has a canonical text, with braces around every block. A tree whose operators stand
in parentheses wherever their level asks for them derives from its own text. -/
namespace RegionCompiler

open Token (Kind)

/-! ### Types -/

def Ty.tokens : Ty → List Kind
  | .base name => [.identifier name]
  | .pointer t => t.tokens ++ [.punctuator .atSign]
  | .array t .dynamic => t.tokens ++ [.punctuator .leftBracket, .punctuator .rightBracket]
  | .array t (.fixed n) => t.tokens ++
      [.punctuator .leftBracket, .integer ⟨.ofNat n, .decimal⟩, .punctuator .rightBracket]
  | .invalid | .function _ _ _ _ => []

/-- The types that can be written: lengths are integer literals. -/
def Ty.Writable : Ty → Prop
  | .base _ => True
  | .pointer t | .array t .dynamic => t.Writable
  | .array t (.fixed n) => t.Writable ∧ n < UInt64.size
  | .invalid | .function _ _ _ _ => False

open Grammar

theorem Ty.Writable.derives : ∀ {t : Ty}, t.Writable → ∀ rest, TypeName t (t.tokens ++ rest) rest
  | .base _, _, _ => .base
  | .pointer t, h, rest => by
    rw [Ty.tokens, List.append_assoc]
    exact .pointer (Writable.derives (t := t) h _)
  | .array t .dynamic, h, rest => by
    rw [Ty.tokens, List.append_assoc]
    exact .dynamic (Writable.derives (t := t) h _)
  | .array t (.fixed n), ⟨ht, hn⟩, rest => by
    have h := @TypeName.fixed _ ⟨.ofNat n, .decimal⟩ _ rest (Writable.derives ht _)
    rw [UInt64.toNat_ofNat_of_lt' hn] at h
    rw [Ty.tokens, List.append_assoc]
    exact h

/-! ### Lists -/

/-- Texts between commas up to a closing mark. -/
def listed (close : Punctuator) : List (List Kind) → List Kind
  | [] => [.punctuator close]
  | [text] => text ++ [.punctuator close]
  | text :: rest => text ++ .punctuator .comma :: listed close rest

section Lists

variable {α : Type} {item : Grammar α} {view : α → α} {tokens : α → List Kind}
  {close : Punctuator}

theorem separated_listed {xs : List α} (hne : xs ≠ [])
    (h : ∀ x ∈ xs, ∀ rest, item (view x) (tokens x ++ rest) rest) (rest : List Kind) :
    Separated item close (xs.map view) (listed close (xs.map tokens) ++ rest) rest := by
  induction xs with
  | nil => exact absurd rfl hne
  | cons x xs ih =>
    cases xs with
    | nil =>
      rw [List.map_singleton, List.map_singleton, listed, List.append_assoc]
      exact .last (h x (by simp) _)
    | cons y ys =>
      rw [List.map_cons, List.map_cons, List.map_cons, listed, List.append_assoc]
      · exact .more (h x (by simp) _) (ih (by simp) fun z hz => h z (by simp [hz]))
      · simp

theorem listed_listed {xs : List α}
    (h : ∀ x ∈ xs, ∀ rest, item (view x) (tokens x ++ rest) rest) (rest : List Kind) :
    Listed item close (xs.map view) (listed close (xs.map tokens) ++ rest) rest := by
  cases xs with
  | nil => exact .none
  | cons x xs => exact .some (separated_listed (by simp) h rest)

theorem Grammar.Separated.trailing {xs : List α} {before after : List Kind}
    (h : Separated item close xs before after) : Trailing item close xs before after := by
  induction h with
  | last hx => exact .last hx
  | more hx _ ih => exact .more hx ih

theorem trailing_listed {xs : List α}
    (h : ∀ x ∈ xs, ∀ rest, item (view x) (tokens x ++ rest) rest) (rest : List Kind) :
    Trailing item close (xs.map view) (listed close (xs.map tokens) ++ rest) rest := by
  cases xs with
  | nil => exact .none
  | cons x xs => exact (separated_listed (by simp) h rest).trailing

end Lists

/-! ### Expressions -/

def UnaryOp.token : UnaryOp → Kind
  | .not_ => .keyword .not_
  | .negate => .punctuator .minus
  | .release => .punctuator .ampersand

mutual
def Expr.tokens : Expr → List Kind
  | .integer _ literal => [.integer literal]
  | .float _ bits => [.float bits]
  | .boolean _ value => [.keyword (if value then .true_ else .false_)]
  | .string _ value => [.string value]
  | .null _ => [.keyword .null_]
  | .variable _ head accessors =>
    .identifier head.name.value :: Accessor.tokensAll accessors
  | .parenthesized _ inner =>
    .punctuator .leftParen :: (inner.tokens ++ [.punctuator .rightParen])
  | .array _ elements => .punctuator .leftBracket :: listed .rightBracket (Expr.texts elements)
  | .allocation _ size => .punctuator .asterisk :: size.tokens
  | .addressOf _ _ head accessors =>
    .punctuator .atSign :: .identifier head.name.value :: Accessor.tokensAll accessors
  | .unary _ op operand => op.value.token :: operand.tokens
  | .binary _ op lhs rhs => lhs.tokens ++ op.value.token :: rhs.tokens
  | .conversion _ inner target =>
    inner.tokens ++ .punctuator .arrow :: target.value.tokens
  | .construct _ record arguments =>
    .identifier record.value :: .punctuator .exclamation :: .punctuator .leftBrace ::
      listed .rightBrace (Argument.texts arguments)

def Expr.texts : List Expr → List (List Kind)
  | [] => []
  | e :: rest => e.tokens :: Expr.texts rest

def Accessor.tokens : Accessor → List Kind
  | .call _ arguments => .punctuator .leftParen :: listed .rightParen (Expr.texts arguments)
  | .index _ position =>
    .punctuator .leftBracket :: (position.tokens ++ [.punctuator .rightBracket])
  | .dereference _ => [.punctuator .atSign]
  | .member _ name => [.punctuator .period, .identifier name.value]

def Accessor.tokensAll : List Accessor → List Kind
  | [] => []
  | a :: rest => a.tokens ++ Accessor.tokensAll rest

def Argument.tokens : Argument → List Kind
  | .mk none value => value.tokens
  | .mk (some name) value =>
    .identifier name.value :: .punctuator .assignment :: value.tokens

def Argument.texts : List Argument → List (List Kind)
  | [] => []
  | a :: rest => a.tokens :: Argument.texts rest
end

@[simp]
theorem Expr.texts_eq_map (es : List Expr) : Expr.texts es = es.map Expr.tokens := by
  induction es with
  | nil => rfl
  | cons e es ih => rw [Expr.texts, ih, List.map_cons]

@[simp]
theorem Argument.texts_eq_map (as : List Argument) :
    Argument.texts as = as.map Argument.tokens := by
  induction as with
  | nil => rfl
  | cons a as ih => rw [Argument.texts, ih, List.map_cons]

/-- Binary levels come first, then prefix operators at 4, conversions at 5 and leaves at 6. -/
def Level.rank : Level → Nat
  | .logical => 0
  | .comparison => 1
  | .additive => 2
  | .multiplicative => 3

/-- A name that was not looked up. -/
def Head.IsFresh (h : Head) : Prop := h.ty = none ∧ h.binding = none

mutual
/-- The trees that may stand where the rank is at least the given one. Nothing is checked yet. -/
def Expr.Fits : Expr → Nat → Prop
  | .integer n _, _ | .float n _, _ | .boolean n _, _ | .string n _, _ | .null n, _ =>
    n.ty = none
  | .variable n head accessors, _ => n.ty = none ∧ head.IsFresh ∧ Accessor.AllFit accessors
  | .parenthesized n inner, _ => n.ty = none ∧ inner.Fits 0
  | .array n elements, _ => n.ty = none ∧ Expr.AllFit elements
  | .allocation n size, _ => n.ty = none ∧ size.Fits 6
  | .addressOf n _ head accessors, _ => n.ty = none ∧ head.IsFresh ∧ Accessor.AllFit accessors
  | .unary n _ operand, rank => n.ty = none ∧ rank ≤ 4 ∧ operand.Fits 4
  | .binary n op lhs rhs, rank => n.ty = none ∧ rank ≤ op.value.level.rank ∧
      lhs.Fits op.value.level.rank ∧ rhs.Fits (op.value.level.rank + 1)
  | .conversion n inner target, rank =>
    n.ty = none ∧ rank ≤ 5 ∧ inner.Fits 5 ∧ target.value.Writable
  | .construct n _ arguments, _ => n.ty = none ∧ Argument.AllFit arguments

def Expr.AllFit : List Expr → Prop
  | [] => True
  | e :: rest => e.Fits 0 ∧ Expr.AllFit rest

def Accessor.Fits : Accessor → Prop
  | .call n arguments => n.ty = none ∧ Expr.AllFit arguments
  | .index n position => n.ty = none ∧ position.Fits 0
  | .dereference n | .member n _ => n.ty = none

def Accessor.AllFit : List Accessor → Prop
  | [] => True
  | a :: rest => a.Fits ∧ Accessor.AllFit rest

def Argument.Fits : Argument → Prop
  | .mk _ value => value.Fits 0

def Argument.AllFit : List Argument → Prop
  | [] => True
  | a :: rest => a.Fits ∧ Argument.AllFit rest
end

/-- What derives where a rank is asked for. -/
def Grammar.Ranked : Nat → Grammar Expr
  | 0 => Chain .logical (Chain .comparison (Chain .additive (Chain .multiplicative Operand)))
  | 1 => Chain .comparison (Chain .additive (Chain .multiplicative Operand))
  | 2 => Chain .additive (Chain .multiplicative Operand)
  | 3 => Chain .multiplicative Operand
  | 4 => Operand
  | 5 => Converted (Primary Expression)
  | _ => Primary Expression

theorem Grammar.Ranked.looser {rank : Nat} {e : Expr} {before after : List Kind}
    (h : Ranked (rank + 1) e before after) : Ranked rank e before after :=
  match rank, h with
  | 0, h | 1, h | 2, h | 3, h => Chain.operand h
  | 4, h => Prefixed.operand h
  | 5, h => Converted.leaf h
  | _ + 6, h => h

theorem Grammar.Ranked.mono {rank other : Nat} {e : Expr} {before after : List Kind}
    (hle : rank ≤ other) (h : Ranked other e before after) : Ranked rank e before after := by
  induction hle with
  | refl => exact h
  | step _ ih => exact ih h.looser

theorem Grammar.Primary.ranked {rank : Nat} {e : Expr} {before after : List Kind}
    (h : Primary Expression e before after) : Ranked rank e before after :=
  Ranked.mono (Nat.le_add_right rank 6) h

theorem Grammar.Ranked.binary {op : BinaryOp} {lhs rhs : Expr} {before middle after : List Kind}
    (hlhs : Ranked op.level.rank lhs before (op.token :: middle))
    (hrhs : Ranked (op.level.rank + 1) rhs middle after) :
    Ranked op.level.rank (.binary .blank (.blank op) lhs rhs) before after := by
  generalize hlevel : op.level = level at hlhs hrhs ⊢
  cases level <;> exact Chain.operator hlevel hlhs hrhs

mutual
theorem Expr.Fits.derives : ∀ {e : Expr} {rank : Nat}, e.Fits rank → ∀ rest,
    Ranked rank e.bare (e.tokens ++ rest) rest
  | .integer ⟨_, _⟩ _, _, h, _ => by
    cases h
    exact Primary.integer.ranked
  | .float ⟨_, _⟩ _, _, h, _ => by
    cases h
    exact Primary.float.ranked
  | .boolean ⟨_, _⟩ value, _, h, _ => by
    cases h
    cases value
    · exact Primary.false_.ranked
    · exact Primary.true_.ranked
  | .string ⟨_, _⟩ _, _, h, _ => by
    cases h
    exact Primary.string.ranked
  | .null ⟨_, _⟩, _, h, _ => by
    cases h
    exact Primary.null.ranked
  | .variable ⟨_, _⟩ ⟨name, _, _⟩ accessors, _, ⟨hn, hhead, haccessors⟩, rest => by
    cases hn
    cases hhead.1
    cases hhead.2
    have h := Accessor.AllFit.derives haccessors rest
    rw [Expr.bare, Accessor.bareAll_eq_map]
    exact (Primary.place (.mk h)).ranked
  | .parenthesized ⟨_, _⟩ inner, _, ⟨hn, hinner⟩, rest => by
    cases hn
    rw [Expr.tokens, List.cons_append, List.append_assoc]
    exact (Primary.parenthesized (.levels (Expr.Fits.derives hinner _))).ranked
  | .array ⟨_, _⟩ elements, _, ⟨hn, helements⟩, rest => by
    cases hn
    rw [Expr.tokens, Expr.texts_eq_map, List.cons_append, Expr.bare, Expr.bareAll_eq_map]
    refine (Primary.array (listed_listed (fun e he rest => ?_) rest)).ranked
    exact .levels (Expr.AllFit.derives helements e he rest)
  | .allocation ⟨_, _⟩ size, _, ⟨hn, hsize⟩, rest => by
    cases hn
    exact (Primary.allocation (Expr.Fits.derives hsize rest)).ranked
  | .addressOf ⟨_, _⟩ _ ⟨name, _, _⟩ accessors, _, ⟨hn, hhead, haccessors⟩, rest => by
    cases hn
    cases hhead.1
    cases hhead.2
    have h := Accessor.AllFit.derives haccessors rest
    rw [Expr.bare, Accessor.bareAll_eq_map]
    exact (Primary.addressOf (.mk h)).ranked
  | .unary ⟨_, _⟩ op operand, _, ⟨hn, hrank, hoperand⟩, rest => by
    cases hn
    refine Ranked.mono hrank (Prefixed.operator ?_ (Expr.Fits.derives hoperand rest))
    cases op.value <;> decide
  | .binary ⟨_, _⟩ op lhs rhs, _, ⟨hn, hrank, hlhs, hrhs⟩, rest => by
    cases hn
    rw [Expr.tokens, List.append_assoc]
    exact Ranked.mono hrank (Ranked.binary (Expr.Fits.derives hlhs _)
      (Expr.Fits.derives hrhs rest))
  | .conversion ⟨_, _⟩ inner target, _, ⟨hn, hrank, hinner, htarget⟩, rest => by
    cases hn
    rw [Expr.tokens, List.append_assoc]
    exact Ranked.mono hrank (Converted.conversion (Expr.Fits.derives hinner _)
      (htarget.derives rest))
  | .construct ⟨_, _⟩ _ arguments, _, ⟨hn, harguments⟩, rest => by
    cases hn
    rw [Expr.tokens, Argument.texts_eq_map, Expr.bare, Argument.bareAll_eq_map]
    exact (Primary.construct (trailing_listed (Argument.AllFit.derives harguments) rest)).ranked

theorem Expr.AllFit.derives : ∀ {es : List Expr}, Expr.AllFit es → ∀ e ∈ es, ∀ rest,
    Ranked 0 e.bare (e.tokens ++ rest) rest
  | e :: _, ⟨he, hes⟩, e', hmem, rest => by
    rcases List.mem_cons.1 hmem with h | hmem
    · rw [h]
      exact Expr.Fits.derives he rest
    · exact Expr.AllFit.derives hes e' hmem rest

theorem Accessor.AllFit.derives : ∀ {as : List Accessor}, Accessor.AllFit as → ∀ rest,
    Accessors Expression (as.map Accessor.bare) (Accessor.tokensAll as ++ rest) rest
  | [], _, _ => .none
  | .call ⟨_, _⟩ arguments :: _, ⟨⟨hn, harguments⟩, has⟩, rest => by
    cases hn
    rw [Accessor.tokensAll, Accessor.tokens, List.append_assoc, List.cons_append, List.map_cons,
      Accessor.bare, Expr.bareAll_eq_map, Expr.texts_eq_map]
    refine .call (listed_listed (fun e he rest => ?_) _) (Accessor.AllFit.derives has rest)
    exact .levels (Expr.AllFit.derives harguments e he rest)
  | .index ⟨_, _⟩ position :: _, ⟨⟨hn, hposition⟩, has⟩, rest => by
    cases hn
    rw [Accessor.tokensAll, Accessor.tokens, List.append_assoc, List.cons_append,
      List.append_assoc]
    exact .index (.levels (Expr.Fits.derives hposition _)) (Accessor.AllFit.derives has rest)
  | .dereference ⟨_, _⟩ :: _, ⟨hn, has⟩, rest => by
    cases hn
    exact .dereference (Accessor.AllFit.derives has rest)
  | .member ⟨_, _⟩ _ :: _, ⟨hn, has⟩, rest => by
    cases hn
    exact .member (Accessor.AllFit.derives has rest)

theorem Argument.AllFit.derives : ∀ {as : List Argument}, Argument.AllFit as → ∀ a ∈ as,
    ∀ rest, Valued Expression a.bare (a.tokens ++ rest) rest
  | .mk name value :: _, ⟨hvalue, has⟩, a, hmem, rest => by
    rcases List.mem_cons.1 hmem with h | hmem
    · rw [h]
      cases name with
      | none => exact .plain (.levels (Expr.Fits.derives hvalue rest))
      | some name => exact .named (.levels (Expr.Fits.derives hvalue rest))
    · exact Argument.AllFit.derives has a hmem rest
end

/-! Conversely, what derives stands in parentheses wherever its level asks for them. -/

theorem Grammar.TypeName.writable {t : Ty} {before after : List Kind}
    (h : TypeName t before after) : t.Writable := by
  induction h with
  | base => trivial
  | pointer _ ih => exact ih
  | dynamic _ ih => exact ih
  | fixed _ ih => exact ⟨ih, UInt64.toNat_lt_size _⟩

theorem Expr.Fits.mono {e : Expr} {rank other : Nat} (hle : rank ≤ other) (h : e.Fits other) :
    e.Fits rank := by
  cases e with
  | unary | binary | conversion => exact ⟨h.1, Nat.le_trans hle h.2.1, h.2.2⟩
  | _ => exact h

theorem Expr.Fits.binary {op : BinaryOp} {level : Level} {lhs rhs : Expr}
    (hlevel : op.level = level) (hlhs : lhs.Fits level.rank) (hrhs : rhs.Fits (level.rank + 1)) :
    (Expr.binary .blank (.blank op) lhs rhs).Fits level.rank := by
  subst hlevel
  exact ⟨rfl, Nat.le_refl _, hlhs, hrhs⟩

namespace Grammar

mutual
theorem Expression.fits {e : Expr} {before after : List Kind} :
    Expression e before after → e.Fits 0
  | .levels h => logical_fits h
termination_by (sizeOf e, 8)

theorem logical_fits {e : Expr} {before after : List Kind} :
    Chain .logical (Chain .comparison (Chain .additive (Chain .multiplicative
      (Prefixed (Converted (Primary Expression)))))) e before after → e.Fits 0
  | .operand h => (comparison_fits h).mono (by decide)
  | .operator hlevel hlhs hrhs => .binary hlevel (logical_fits hlhs) (comparison_fits hrhs)
termination_by (sizeOf e, 7)

theorem comparison_fits {e : Expr} {before after : List Kind} :
    Chain .comparison (Chain .additive (Chain .multiplicative
      (Prefixed (Converted (Primary Expression))))) e before after → e.Fits 1
  | .operand h => (additive_fits h).mono (by decide)
  | .operator hlevel hlhs hrhs => .binary hlevel (comparison_fits hlhs) (additive_fits hrhs)
termination_by (sizeOf e, 6)

theorem additive_fits {e : Expr} {before after : List Kind} :
    Chain .additive (Chain .multiplicative (Prefixed (Converted (Primary Expression))))
      e before after → e.Fits 2
  | .operand h => (multiplicative_fits h).mono (by decide)
  | .operator hlevel hlhs hrhs => .binary hlevel (additive_fits hlhs) (multiplicative_fits hrhs)
termination_by (sizeOf e, 5)

theorem multiplicative_fits {e : Expr} {before after : List Kind} :
    Chain .multiplicative (Prefixed (Converted (Primary Expression))) e before after → e.Fits 3
  | .operand h => (prefixed_fits h).mono (by decide)
  | .operator hlevel hlhs hrhs => .binary hlevel (multiplicative_fits hlhs) (prefixed_fits hrhs)
termination_by (sizeOf e, 4)

theorem prefixed_fits {e : Expr} {before after : List Kind} :
    Prefixed (Converted (Primary Expression)) e before after → e.Fits 4
  | .operand h => (converted_fits h).mono (by decide)
  | .operator _ h => ⟨rfl, Nat.le_refl _, prefixed_fits h⟩
termination_by (sizeOf e, 3)

theorem converted_fits {e : Expr} {before after : List Kind} :
    Converted (Primary Expression) e before after → e.Fits 5
  | .leaf h => (leaf_fits h).mono (by decide)
  | .conversion h ht => ⟨rfl, Nat.le_refl _, converted_fits h, ht.writable⟩
termination_by (sizeOf e, 2)

theorem leaf_fits {e : Expr} {before after : List Kind} :
    Primary Expression e before after → e.Fits 6
  | .integer | .float | .string | .true_ | .false_ | .null => rfl
  | .place h => ⟨rfl, place_fits h⟩
  | .parenthesized h => ⟨rfl, h.fits⟩
  | .array h => ⟨rfl, listed_fit h⟩
  | .allocation h => ⟨rfl, leaf_fits h⟩
  | .addressOf h => ⟨rfl, place_fits h⟩
  | .construct h => ⟨rfl, arguments_fit h⟩
termination_by (sizeOf e, 1)

theorem place_fits {p : Place} {before after : List Kind} :
    Variable Expression p before after → p.head.IsFresh ∧ Accessor.AllFit p.accessors
  | .mk h => ⟨⟨rfl, rfl⟩, accessors_fit h⟩
termination_by (sizeOf p, 0)

theorem accessors_fit {accessors : List Accessor} {before after : List Kind} :
    Accessors Expression accessors before after → Accessor.AllFit accessors
  | .none => trivial
  | .call harguments h => ⟨⟨rfl, listed_fit harguments⟩, accessors_fit h⟩
  | .index he h => ⟨⟨rfl, he.fits⟩, accessors_fit h⟩
  | .member h => ⟨rfl, accessors_fit h⟩
  | .dereference h => ⟨rfl, accessors_fit h⟩
termination_by (sizeOf accessors, 0)

theorem listed_fit {es : List Expr} {close : Punctuator} {before after : List Kind} :
    Listed Expression close es before after → Expr.AllFit es
  | .none => trivial
  | .some h => separated_fit h
termination_by (sizeOf es, 1)

theorem separated_fit {es : List Expr} {close : Punctuator} {before after : List Kind} :
    Separated Expression close es before after → Expr.AllFit es
  | .last h => ⟨h.fits, trivial⟩
  | .more h hs => ⟨h.fits, separated_fit hs⟩
termination_by (sizeOf es, 0)

theorem valued_fits {a : Argument} {before after : List Kind} :
    Valued Expression a before after → a.Fits
  | .plain h => h.fits
  | .named h => h.fits
termination_by (sizeOf a, 0)

theorem arguments_fit {arguments : List Argument} {close : Punctuator}
    {before after : List Kind} :
    Trailing (Valued Expression) close arguments before after → Argument.AllFit arguments
  | .none => trivial
  | .last h => ⟨valued_fits h, trivial⟩
  | .more h hs => ⟨valued_fits h, arguments_fit hs⟩
termination_by (sizeOf arguments, 0)
end

end Grammar

/-! ### Statements -/

mutual
def Stmt.tokens : Stmt → List Kind
  | .let_ _ allocate ty name value _ => .keyword (.ofLet allocate) :: (ty.value.tokens ++
      .identifier name.value :: .punctuator .assignment :: value.tokens)
  | .mut_ _ target value => .keyword .mut_ :: .identifier target.value.head.name.value ::
      (Accessor.tokensAll target.value.accessors ++ .punctuator .assignment :: value.tokens)
  | .call _ value => .keyword .call_ :: value.tokens
  | .collect _ value => .keyword .collect_ :: value.tokens
  | .return_ _ none => [.keyword .ret_]
  | .return_ _ (some value) => .keyword .ret_ :: value.tokens
  | .break_ _ => [.keyword .break_]
  | .continue_ _ => [.keyword .continue_]
  | .if_ _ condition yes => .keyword .if_ :: (condition.tokens ++ yes.tokens)
  | .ifElse _ condition yes no =>
    .keyword .if_ :: (condition.tokens ++ (yes.tokens ++ .keyword .else_ :: no.tokens))
  | .while_ _ condition body => .keyword .while_ :: (condition.tokens ++ body.tokens)
  | .doWhile _ body condition =>
    .keyword .do_ :: (body.tokens ++ .keyword .while_ :: condition.tokens)
  | .for_ _ iterator start stop body _ =>
    .keyword .for_ :: .identifier iterator.value :: .keyword .from_ ::
      (start.tokens ++ .keyword .until_ :: (stop.tokens ++ body.tokens))
  | .block _ body => body.tokens

def Stmt.tokensAll : List Stmt → List Kind
  | [] => []
  | s :: rest => s.tokens ++ Stmt.tokensAll rest

def Block.tokens : Block → List Kind
  | .mk _ manual statements =>
    (if manual then [.punctuator .doubleAmpersand] else []) ++
      .punctuator .leftBrace :: (Stmt.tokensAll statements ++ [.punctuator .rightBrace])
end

mutual
def Stmt.Fits : Stmt → Prop
  | .let_ _ _ ty _ value mangled => ty.value.Writable ∧ value.Fits 0 ∧ mangled = none
  | .mut_ _ target value =>
    target.value.head.IsFresh ∧ Accessor.AllFit target.value.accessors ∧ value.Fits 0
  | .call _ value | .collect _ value | .return_ _ (some value) => value.Fits 0
  | .return_ _ none | .break_ _ | .continue_ _ => True
  | .if_ _ condition yes => condition.Fits 0 ∧ yes.Fits
  | .ifElse _ condition yes no => condition.Fits 0 ∧ yes.Fits ∧ no.Fits
  | .while_ _ condition body | .doWhile _ body condition => condition.Fits 0 ∧ body.Fits
  | .for_ _ _ start stop body mangled =>
    start.Fits 0 ∧ stop.Fits 0 ∧ body.Fits ∧ mangled = none
  | .block _ body => body.Fits

def Stmt.AllFit : List Stmt → Prop
  | [] => True
  | s :: rest => s.Fits ∧ Stmt.AllFit rest

def Block.Fits : Block → Prop
  | .mk _ _ statements => Stmt.AllFit statements
end

theorem Expr.Fits.expression {e : Expr} (h : e.Fits 0) (rest : List Kind) :
    Expression e.bare (e.tokens ++ rest) rest :=
  .levels (h.derives rest)

mutual
theorem Stmt.Fits.derives : ∀ {s : Stmt}, s.Fits → ∀ rest, ∃ dangling,
    Statement true s.bare dangling (s.tokens ++ rest) rest
  | .let_ _ allocate ty name value _, ⟨hty, hvalue, hmangled⟩, rest => by
    cases hmangled
    rw [Stmt.tokens, List.cons_append, List.append_assoc]
    exact ⟨_, .let_ (hty.derives _) (hvalue.expression rest)⟩
  | .mut_ _ ⟨_, ⟨⟨_, _, _⟩, _⟩⟩ value, ⟨hhead, haccessors, hvalue⟩, rest => by
    cases hhead.1
    cases hhead.2
    rw [Stmt.tokens, List.cons_append, List.cons_append, List.append_assoc]
    exact ⟨_, .mut_ (.mk (haccessors.derives _)) (hvalue.expression rest)⟩
  | .call _ _, hvalue, rest => ⟨_, .call (Expr.Fits.expression hvalue rest)⟩
  | .collect _ _, hvalue, rest => ⟨_, .collect (Expr.Fits.expression hvalue rest)⟩
  | .return_ _ none, _, _ => ⟨_, .returnNothing⟩
  | .return_ _ (some _), hvalue, rest => ⟨_, .returnValue (Expr.Fits.expression hvalue rest)⟩
  | .break_ _, _, _ => ⟨_, .break_⟩
  | .continue_ _, _, _ => ⟨_, .continue_⟩
  | .if_ _ _ yes, ⟨hcondition, hyes⟩, rest => by
    rw [Stmt.tokens, List.cons_append, List.append_assoc]
    exact ⟨_, .if_ (hcondition.expression _) (.body (Block.Fits.derives hyes rest))⟩
  | .ifElse _ _ yes no, ⟨hcondition, hyes, hno⟩, rest => by
    rw [Stmt.tokens, List.cons_append, List.append_assoc, List.append_assoc]
    exact ⟨_, .ifElse (hcondition.expression _) (.body (Block.Fits.derives hyes _))
      (fun _ => rfl) (.body (Block.Fits.derives hno rest))⟩
  | .while_ _ _ body, ⟨hcondition, hbody⟩, rest => by
    rw [Stmt.tokens, List.cons_append, List.append_assoc]
    exact ⟨_, .while_ (hcondition.expression _) (.body (Block.Fits.derives hbody rest))⟩
  | .doWhile _ body _, ⟨hcondition, hbody⟩, rest => by
    rw [Stmt.tokens, List.cons_append, List.append_assoc]
    exact ⟨_, .doWhile (.body (Block.Fits.derives hbody _)) (hcondition.expression rest)⟩
  | .for_ _ _ _ _ body _, ⟨hstart, hstop, hbody, hmangled⟩, rest => by
    cases hmangled
    rw [Stmt.tokens, List.cons_append, List.cons_append, List.cons_append, List.append_assoc,
      List.cons_append, List.append_assoc]
    exact ⟨_, .for_ (hstart.expression _) (hstop.expression _)
      (.body (Block.Fits.derives hbody rest))⟩
  | .block _ body, hbody, rest => ⟨_, .body (Block.Fits.derives hbody rest)⟩

theorem Stmt.AllFit.derives : ∀ {ss : List Stmt}, Stmt.AllFit ss → ∀ rest,
    Statements true (ss.map Stmt.bare)
      (Stmt.tokensAll ss ++ .punctuator .rightBrace :: rest) rest
  | [], _, _ => .none
  | s :: ss, ⟨hs, hss⟩, rest => by
    rw [Stmt.tokensAll, List.append_assoc]
    obtain ⟨dangling, h⟩ := Stmt.Fits.derives hs
      (Stmt.tokensAll ss ++ .punctuator .rightBrace :: rest)
    exact .more h (Stmt.AllFit.derives hss rest)

theorem Block.Fits.derives : ∀ {b : Block}, b.Fits → ∀ rest,
    Body true b.bare false (b.tokens ++ rest) rest
  | .mk _ manual statements, h, rest => by
    have hbraces := Stmt.AllFit.derives h rest
    rw [Block.bare, Stmt.bareAll_eq_map, Block.tokens, List.append_assoc, List.cons_append,
      List.append_assoc]
    cases manual with
    | true => exact .manual (.body (.braces hbraces))
    | false => exact .braces hbraces
end

theorem Stmt.Fits.asBlock {s : Stmt} (h : s.Fits) : s.asBlock.Fits := by
  cases s with
  | block => exact h
  | _ => exact ⟨h, trivial⟩

theorem Block.Fits.marked {b : Block} (h : b.Fits) : b.marked.Fits := by
  obtain ⟨span, manual, statements⟩ := b
  cases manual
  · exact h
  · exact ⟨h, trivial⟩

namespace Grammar

mutual
theorem Statement.fits {nearest : Bool} {s : Stmt} {dangling : Bool} {before after : List Kind} :
    Statement nearest s dangling before after → s.Fits
  | .let_ ht he => ⟨ht.writable, he.fits, rfl⟩
  | .mut_ h he => ⟨(place_fits h).1, (place_fits h).2, he.fits⟩
  | .call he | .collect he | .returnValue he => he.fits
  | .returnNothing | .break_ | .continue_ => trivial
  | .if_ he hyes => ⟨he.fits, Single.fits hyes⟩
  | .ifElse he hyes _ hno => ⟨he.fits, Single.fits hyes, Single.fits hno⟩
  | .while_ he hbody | .doWhile hbody he => ⟨he.fits, Single.fits hbody⟩
  | .for_ hfirst hlast hbody => ⟨hfirst.fits, hlast.fits, Single.fits hbody, rfl⟩
  | .body hbody => Body.fits hbody

theorem Body.fits {nearest : Bool} {b : Block} {dangling : Bool} {before after : List Kind} :
    Body nearest b dangling before after → b.Fits
  | .braces h => Statements.fit h
  | .manual h => (Single.fits h).marked

theorem Single.fits {nearest : Bool} {b : Block} {dangling : Bool} {before after : List Kind} :
    Single nearest b dangling before after → b.Fits
  | .body h => Body.fits h
  | .statement h => (Statement.fits h).asBlock

theorem Statements.fit {nearest : Bool} {statements : List Stmt} {before after : List Kind} :
    Statements nearest statements before after → Stmt.AllFit statements
  | .none => trivial
  | .more h hrest => ⟨Statement.fits h, Statements.fit hrest⟩
end

end Grammar

/-! ### Declarations -/

def Parameter.tokens (p : Parameter) : List Kind :=
  p.ty.value.tokens ++ [.identifier p.name.value]

def RecordMember.tokens (m : RecordMember) : List Kind :=
  m.ty.value.tokens ++ [.identifier m.name.value]

def ForeignParameter.tokens : ForeignParameter → List Kind
  | .typed ty none => ty.value.tokens
  | .typed ty (some name) => ty.value.tokens ++ [.identifier name.value]
  | .variadic _ => [.punctuator .asterisk]

def ForeignParameter.Fits : ForeignParameter → Prop
  | .typed ty _ => ty.value.Writable
  | .variadic _ => True

def Function.tokens (f : Function) : List Kind :=
  .keyword .fn_ :: .identifier f.name.value :: .punctuator .leftParen ::
    (listed .rightParen (f.parameters.map Parameter.tokens) ++ f.result.value.tokens ++
      f.body.tokens)

structure Function.Fits (f : Function) : Prop where
  parameters : ∀ p ∈ f.parameters, p.ty.value.Writable
  result : f.result.value.Writable
  body : f.body.Fits
  stack : f.stack = .empty

def ForeignFunction.linkTokens : Option (Located String) → List Kind
  | none => []
  | some link => [.keyword .from_, .identifier link.value]

def ForeignFunction.tokens (f : ForeignFunction) : List Kind :=
  .keyword .cfn_ :: .identifier f.name.value :: (linkTokens f.link ++
    .punctuator .leftParen :: (listed .rightParen (f.parameters.map ForeignParameter.tokens) ++
      f.result.value.tokens))

structure ForeignFunction.Fits (f : ForeignFunction) : Prop where
  parameters : ∀ p ∈ f.parameters, p.Fits
  result : f.result.value.Writable

def Record.tokens (r : Record) : List Kind :=
  .keyword .type_ :: .identifier r.name.value :: .punctuator .leftBrace ::
    listed .rightBrace (r.members.map RecordMember.tokens)

def Embed.tokens (e : Embed) : List Kind :=
  [.keyword .embed_, .string e.path.value, .keyword .as_, .identifier e.name.value]

def Declaration.tokens : Declaration → List Kind
  | .function f => f.tokens
  | .foreign f => f.tokens
  | .record r => r.tokens
  | .link library => [.keyword .link_, .string library.value]
  | .embed e => e.tokens

def Declaration.Fits : Declaration → Prop
  | .function f => f.Fits
  | .foreign f => f.Fits
  | .record r => ∀ m ∈ r.members, m.ty.value.Writable
  | .link _ => True
  | .embed e => e.resolved = none

theorem Parameter.derives {p : Parameter} (h : p.ty.value.Writable) (rest : List Kind) :
    TypedParameter p.bare (p.tokens ++ rest) rest := by
  rw [Parameter.tokens, List.append_assoc]
  exact .mk (h.derives _)

theorem RecordMember.derives {m : RecordMember} (h : m.ty.value.Writable) (rest : List Kind) :
    Member m.bare (m.tokens ++ rest) rest := by
  rw [RecordMember.tokens, List.append_assoc]
  exact .mk (h.derives _)

theorem ForeignParameter.Fits.derives {p : ForeignParameter} (h : p.Fits) (rest : List Kind) :
    Foreign p.bare (p.tokens ++ rest) rest := by
  cases p with
  | typed ty name =>
    cases name with
    | none => exact .unnamed (Ty.Writable.derives h rest)
    | some name =>
      rw [ForeignParameter.tokens, List.append_assoc]
      exact .named (Ty.Writable.derives h _)
  | variadic span => exact .variadic

theorem Declaration.Fits.derives {d : Declaration} (h : d.Fits) (rest : List Kind) :
    Declared true d.bare (d.tokens ++ rest) rest := by
  cases d with
  | function f =>
    obtain ⟨span, name, parameters, result, body, stack⟩ := f
    obtain ⟨hparameters, hresult, hbody, rfl⟩ := h
    simp only [Declaration.tokens, Function.tokens, List.cons_append, List.append_assoc]
    exact .function (listed_listed (fun p hp => Parameter.derives (hparameters p hp)) _)
      (.some (hresult.derives _)) (hbody.derives rest)
  | foreign f =>
    obtain ⟨span, name, link, parameters, result⟩ := f
    simp only [Declaration.tokens, ForeignFunction.tokens, List.cons_append, List.append_assoc]
    have hlink : ∀ rest, LinkName (link.map Located.bare)
        (ForeignFunction.linkTokens link ++ rest) rest := by
      intro rest
      cases link with
      | none => exact .none
      | some link => exact .some
    exact .foreign (hlink _) (listed_listed (fun p hp => (h.parameters p hp).derives) _)
      (.some (h.result.derives rest))
  | record r =>
    exact .record (trailing_listed (fun m hm => RecordMember.derives (h m hm)) rest)
  | link library => exact .link
  | embed e =>
    obtain ⟨span, path, name, resolved⟩ := e
    cases h
    exact .embed

namespace Grammar

variable {α : Type} {item : Grammar α} {P : α → Prop} {close : Punctuator} {xs : List α}
  {before after : List Kind}

theorem Separated.forall (hitem : ∀ x before after, item x before after → P x)
    (h : Separated item close xs before after) : ∀ x ∈ xs, P x := by
  induction h with
  | last hx => simpa using hitem _ _ _ hx
  | more hx _ ih => exact List.forall_mem_cons.2 ⟨hitem _ _ _ hx, ih⟩

theorem Listed.forall (hitem : ∀ x before after, item x before after → P x)
    (h : Listed item close xs before after) : ∀ x ∈ xs, P x := by
  cases h with
  | none => simp
  | some h => exact h.forall hitem

theorem Trailing.forall (hitem : ∀ x before after, item x before after → P x)
    (h : Trailing item close xs before after) : ∀ x ∈ xs, P x := by
  induction h with
  | none => simp
  | last hx => simpa using hitem _ _ _ hx
  | more hx _ ih => exact List.forall_mem_cons.2 ⟨hitem _ _ _ hx, ih⟩

theorem Result.writable {t : Ty} (h : Result t before after) : t.Writable := by
  cases h with
  | none => trivial
  | some h => exact h.writable

theorem Declared.fits {nearest : Bool} {d : Declaration}
    (h : Declared nearest d before after) : d.Fits := by
  cases h with
  | function hparameters hresult hbody =>
    refine ⟨hparameters.forall fun p before after hp => ?_, hresult.writable, hbody.fits, rfl⟩
    cases hp with
    | mk ht => exact ht.writable
  | foreign _ hparameters hresult =>
    refine ⟨hparameters.forall fun p before after hp => ?_, hresult.writable⟩
    cases hp with
    | unnamed ht => exact ht.writable
    | named ht => exact ht.writable
    | variadic => trivial
  | record hmembers =>
    refine hmembers.forall fun m before after hm => ?_
    cases hm with
    | mk ht => exact ht.writable
  | link => trivial
  | embed => rfl

theorem Declarations.fit {nearest : Bool} {ds : List Declaration} {tokens : List Kind}
    (h : Declarations nearest ds tokens) : ∀ d ∈ ds, d.Fits := by
  induction h with
  | none => simp
  | more hd _ ih => exact List.forall_mem_cons.2 ⟨hd.fits, ih⟩

end Grammar

namespace Program

/-- The declarations of a program, sorted by their kind. -/
def declarations (p : Program) : List Declaration :=
  p.functions.map .function ++ p.foreign.map .foreign ++ p.records.map .record ++
    p.links.map .link ++ p.embeds.map .embed

theorem ofDeclarations_declarations (p : Program) : ofDeclarations p.path p.declarations = p := by
  have hnone : ∀ {α β : Type} (l : List α), l.filterMap (fun _ => (none : Option β)) = [] :=
    fun l => List.filterMap_eq_nil_iff.2 fun _ _ => rfl
  simp only [ofDeclarations, declarations, List.filterMap_append, List.filterMap_map,
    Function.comp_def, hnone, List.filterMap_some, List.append_nil, List.nil_append]

def tokens (p : Program) : List Kind :=
  p.declarations.flatMap Declaration.tokens

/-- The trees that the grammar can build. -/
def Fits (p : Program) : Prop :=
  ∀ d ∈ p.declarations, d.Fits

theorem derives_flatMap {ds : List Declaration} (h : ∀ d ∈ ds, d.Fits) :
    Declarations true (ds.map Declaration.bare) (ds.flatMap Declaration.tokens) := by
  induction ds with
  | nil => exact .none
  | cons d ds ih =>
    rw [List.map_cons, List.flatMap_cons]
    exact .more ((h d (by simp)).derives _) (ih fun d' hd' => h d' (by simp [hd']))

theorem Fits.derives {p : Program} (h : p.Fits) :
    Declarations true (p.declarations.map Declaration.bare) p.tokens :=
  derives_flatMap h

end Program

end RegionCompiler
