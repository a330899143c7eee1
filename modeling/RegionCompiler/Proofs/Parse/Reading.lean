import RegionCompiler.Parse

/-! Where parsers stop. None reads past a keyword that starts a declaration, unless it is the very
token that does not fit; and a parser runs out of tokens only at the end of the text. The statements
are about cursors with at most `n` tokens left, since parsers count the steps that they may take. -/
namespace RegionCompiler.Parse

/-- Tokens among which no declaration starts. -/
def Inner (tokens : List Token) : Prop := ∀ t ∈ tokens, startsDeclaration t = false

/-- The tokens from the one that a diagnostic is about on. It has been read, except that a missing
body is noticed by looking ahead. -/
def Diagnostic.offending (d : Diagnostic) (rest : List Token) : List Token :=
  match d with
  | .expectedBody _ => rest
  | d => d.token?.toList ++ rest

/-- How reading may end, as seen from the tokens before it; on success it takes at least some. -/
def Outcome {α : Type} (tokens : List Token) (least : Nat) :
    EStateM.Result Failure Cursor α → Prop
  | .ok _ next => ∃ before, tokens = before ++ next.rest ∧ Inner before ∧ least ≤ before.length
  | .error .endOfFile stopped => Inner tokens ∧ stopped.rest = []
  | .error (.reported d) stopped => ∃ before, tokens = before ++ d.offending stopped.rest ∧
    Inner before ∧ d.token?.isSome ∧ (d.offending stopped.rest).head? = d.token?

/-- The parser ends well at every cursor with at most `n` tokens of the given form. The tokens in
`taken` stand before the cursor and are counted with it. -/
def Reads {α : Type} (taken : List Token) (n least : Nat) (p : Parser α)
    (H : List Token → Prop := fun _ => True) : Prop :=
  ∀ c : Cursor, c.rest.length ≤ n → H c.rest → Outcome (taken ++ c.rest)
    (taken.length + least) (p c)

theorem inner_nil : Inner [] := nofun

theorem Inner.append {s t : List Token} (hs : Inner s) (ht : Inner t) : Inner (s ++ t) := by
  intro u hu
  rcases List.mem_append.1 hu with hu | hu
  · exact hs u hu
  · exact ht u hu

theorem inner_one {t : Token} (h : startsDeclaration t = false) : Inner [t] := by
  simpa [Inner] using h

section Outcomes

variable {α β : Type} {tokens : List Token} {least : Nat} {before : List Token}

theorem Outcome.prepend {r : EStateM.Result Failure Cursor α} (h : Outcome tokens least r)
    (hbefore : Inner before) : Outcome (before ++ tokens) (before.length + least) r := by
  rcases r with ⟨a, next⟩ | ⟨failure, stopped⟩
  · obtain ⟨read, rfl, hread, hleast⟩ := h
    exact ⟨before ++ read, by simp, hbefore.append hread, by simp; omega⟩
  · cases failure with
    | endOfFile => exact ⟨hbefore.append h.1, h.2⟩
    | reported d =>
      obtain ⟨read, rfl, hread, htoken, hhead⟩ := h
      exact ⟨before ++ read, by simp, hbefore.append hread, htoken, hhead⟩

theorem Outcome.mono {r : EStateM.Result Failure Cursor α} (h : Outcome tokens least r)
    {fewer : Nat} (hfewer : fewer ≤ least) : Outcome tokens fewer r := by
  rcases r with ⟨a, next⟩ | ⟨failure, stopped⟩
  · obtain ⟨read, hread, hinner, hleast⟩ := h
    exact ⟨read, hread, hinner, Nat.le_trans hfewer hleast⟩
  · cases failure with
    | endOfFile => exact h
    | reported d => exact h

end Outcomes

namespace Reads

variable {α β : Type} {taken : List Token} {n least : Nat} {p q : Parser α}
  {H : List Token → Prop}

theorem mono {m fewer : Nat} {H' : List Token → Prop} (h : Reads taken n least p H) (hm : m ≤ n)
    (hfewer : fewer ≤ least) (hH : ∀ rest, H' rest → H rest) : Reads taken m fewer p H' :=
  fun c hc hrest => (h c (Nat.le_trans hc hm) (hH _ hrest)).mono (Nat.add_le_add_left hfewer _)

theorem fewer {m : Nat} (h : Reads taken n least p H) (hm : m ≤ n) : Reads taken m least p H :=
  h.mono hm (Nat.le_refl _) fun _ h => h

theorem anywhere (h : Reads taken n least p) : Reads taken n least p H :=
  fun c hc _ => h c hc trivial

theorem never (h : ∀ rest, ¬ H rest) : Reads taken n least p H :=
  fun c _ hrest => absurd hrest (h c.rest)

theorem maybe (h : Reads taken n least p H) : Reads taken n 0 p H :=
  h.mono (Nat.le_refl _) (Nat.zero_le _) fun _ h => h

theorem pure {a : α} (h : Inner taken) : Reads taken n 0 (pure a) H :=
  fun _ _ _ => ⟨taken, rfl, h, Nat.le_refl _⟩

theorem done : Reads [] 0 least (throw .endOfFile : Parser α) H := by
  intro c hc _
  have hempty : c.rest = [] := List.length_eq_zero_iff.1 (by omega)
  refine ⟨?_, hempty⟩
  rw [hempty]
  exact inner_nil

/-- A token that does not fit has just been taken. -/
theorem fail {t : Token} {d : Diagnostic} (h : ∀ rest, d.offending rest = t :: rest)
    (ht : d.token? = some t) : Reads [t] n least (Parse.fail d : Parser α) H := by
  intro c _ _
  exact ⟨[], by simp [h], inner_nil, by simp [ht], by simp [h, ht]⟩

theorem skip {t : Token} (ht : startsDeclaration t = false) (h : Reads [] n least p H) :
    Reads [t] n least p H :=
  fun c hc hrest => by simpa using (h c hc hrest).prepend (inner_one ht)

theorem ite {b : Prop} [Decidable b] (hp : b → Reads taken n least p H)
    (hq : ¬ b → Reads taken n least q H) : Reads taken n least (if b then p else q) H := by
  split
  · exact hp ‹_›
  · exact hq ‹_›

theorem bind {k : Nat} {f : α → Parser β} (hp : Reads taken n k p H)
    (hf : ∀ a, Reads [] (n - k) (least - k) (f a)) : Reads taken n least (p >>= f) H := by
  intro c hc hrest
  have hfirst := hp c hc hrest
  change Outcome _ _ (EStateM.bind p f c)
  unfold EStateM.bind
  split
  case h_1 a next heq =>
    rw [heq] at hfirst
    obtain ⟨before, htokens, hbefore, hk⟩ := hfirst
    have hlength : taken.length + c.rest.length = before.length + next.rest.length := by
      rw [← List.length_append, htokens, List.length_append]
    have hsecond := (hf a next (by omega) trivial).prepend hbefore
    rw [htokens]
    exact hsecond.mono (by simp; omega)
  case h_2 failure stopped heq =>
    rw [heq] at hfirst
    cases failure with
    | endOfFile => exact hfirst
    | reported d => exact hfirst

theorem bounded {p : Nat → Parser α} (h : ∀ m ≤ n, Reads taken m least (p m) H) :
    Reads taken n least (Parse.bounded p) H :=
  fun c hc hrest => h c.rest.length hc c (Nat.le_refl _) hrest

theorem consume {f : Token → Parser α}
    (h : ∀ t, (∃ rest, H (t :: rest)) →
      Reads [t] (n - 1) (least - 1) (f t) fun rest => H (t :: rest)) :
    Reads [] n least (Parse.consume >>= f) H := by
  rintro ⟨rest, last⟩ hc hrest
  cases rest with
  | nil => exact ⟨inner_nil, rfl⟩
  | cons t rest =>
    have hlength : rest.length ≤ n - 1 := by
      rw [List.length_cons] at hc
      omega
    exact (h t ⟨rest, hrest⟩ ⟨rest, t.span⟩ hlength hrest).mono (by simp; omega)

theorem peek {f : Token → Parser α}
    (h : ∀ t, Reads [] n least (f t) fun rest => H rest ∧ rest.head? = some t) :
    Reads [] n least (Parse.peek >>= f) H := by
  rintro ⟨rest, last⟩ hc hrest
  cases rest with
  | nil => exact ⟨inner_nil, rfl⟩
  | cons t rest => exact h t ⟨t :: rest, last⟩ hc ⟨hrest, rfl⟩

theorem ahead {f : Option Token.Kind → Parser α} (i : Nat)
    (h : ∀ kind, Reads [] n least (f kind) fun rest => H rest ∧ rest[i]?.map Token.kind = kind) :
    Reads [] n least (ahead? i >>= f) H :=
  fun c hc hrest => h _ c hc ⟨hrest, rfl⟩

theorem nextIs {kind : Token.Kind} {f : Bool → Parser α}
    (h : ∀ b, Reads [] n least (f b) fun rest =>
      H rest ∧ (b = true ↔ rest.head?.map Token.kind = some kind)) :
    Reads [] n least (Parse.nextIs kind >>= f) H := by
  intro c hc hrest
  refine h _ c hc ⟨hrest, ?_⟩
  rw [beq_iff_eq, List.head?_eq_getElem?]

/-- The position makes no difference. -/
theorem position {f : Location → Parser α} (h : ∀ l, Reads taken n least (f l) H) :
    Reads taken n least (Parse.position >>= f) H :=
  fun c hc hrest => h _ c hc hrest

theorem seen {f : Token → Parser α} (hinner : ∀ t rest, H (t :: rest) → startsDeclaration t = false)
    (h : ∀ t, Reads [] (n - 1) (least - 1) (f t)) : Reads [] n least (Parse.consume >>= f) H :=
  consume fun t ⟨rest, hrest⟩ => skip (hinner t rest hrest) (h t).anywhere

theorem peeked {f : Token → Parser α} {token : Token} (htoken : startsDeclaration token = false)
    (h : ∀ t, Reads [] (n - 1) (least - 1) (f t)) :
    Reads [] n least (Parse.consume >>= f) fun rest => H rest ∧ rest.head? = some token := by
  refine seen (fun t rest hrest => ?_) h
  obtain rfl : t = token := by simpa using hrest.2
  exact htoken

theorem found {f : Token → Parser α} {kind : Token.Kind}
    (hkind : ∀ t : Token, t.kind = kind → startsDeclaration t = false)
    (h : ∀ t, Reads [] (n - 1) (least - 1) (f t)) :
    Reads [] n least (Parse.consume >>= f) fun rest =>
      H rest ∧ rest[0]?.map Token.kind = some kind :=
  seen (fun t rest hrest => hkind t (by simpa using hrest.2)) h

theorem confirmed {f : Token → Parser α} {kind : Token.Kind}
    (hkind : ∀ t : Token, t.kind = kind → startsDeclaration t = false)
    (h : ∀ t, Reads [] (n - 1) (least - 1) (f t)) :
    Reads [] n least (Parse.consume >>= f) fun rest =>
      H rest ∧ rest.head?.map Token.kind = some kind :=
  seen (fun t rest hrest => hkind t (by simpa using hrest.2)) h

theorem branch {kind : Token.Kind} {p : Parser α}
    (hp : Reads [] n least p fun rest => H rest ∧ rest.head?.map Token.kind = some kind)
    (hq : Reads [] n least q fun rest => H rest ∧ rest.head?.map Token.kind ≠ some kind) :
    ∀ b, Reads [] n least (if b = true then p else q) fun rest =>
      H rest ∧ (b = true ↔ rest.head?.map Token.kind = some kind) := by
  intro b
  cases b with
  | true => exact hp.mono (Nat.le_refl _) (Nat.le_refl _) fun _ h => ⟨h.1, h.2.1 rfl⟩
  | false =>
    refine hq.mono (Nat.le_refl _) (Nat.le_refl _) fun _ h => ⟨h.1, fun heq => ?_⟩
    cases h.2.2 heq

end Reads

theorem startsDeclaration_punctuator {t : Token} {mark : Punctuator}
    (h : t.kind = .punctuator mark) : startsDeclaration t = false := by
  simp [startsDeclaration, h]

theorem startsDeclaration_keyword {t : Token} {word : Keyword} (h : t.kind = .keyword word)
    (hword : word.startsDeclaration = false) : startsDeclaration t = false := by
  simp [startsDeclaration, h, hword]

section Tokens

variable {n : Nat} {H : List Token → Prop}

theorem reads_expectMark (mark : Punctuator) (context : String) :
    Reads [] n 1 (expectMark mark context) H := by
  refine .consume fun t _ => .ite (fun _ => .fail (fun _ => rfl) rfl) fun h => .pure (inner_one ?_)
  exact startsDeclaration_punctuator (Decidable.not_not.1 h)

theorem reads_expectWord {word : Keyword} (hword : word.startsDeclaration = false)
    (context : String) : Reads [] n 1 (expectWord word context) H := by
  refine .consume fun t _ => .ite (fun _ => .fail (fun _ => rfl) rfl) fun h => .pure (inner_one ?_)
  exact startsDeclaration_keyword (Decidable.not_not.1 h) hword

theorem reads_expectName (context : String) : Reads [] n 1 (expectName context) H := by
  refine .consume fun t _ => ?_
  split
  case h_1 name heq => exact .pure (inner_one (by simp [startsDeclaration, heq]))
  case h_2 => exact .fail (fun _ => rfl) rfl

theorem reads_expectString (context : String) : Reads [] n 1 (expectString context) H := by
  refine .consume fun t _ => ?_
  split
  case h_1 value heq => exact .pure (inner_one (by simp [startsDeclaration, heq]))
  case h_2 => exact .fail (fun _ => rfl) rfl

theorem reads_another (close : Punctuator) (context : String) :
    Reads [] n 1 (another close context) H := by
  refine .consume fun t _ => .ite (fun h => ?_) fun _ => .ite (fun h => ?_) fun _ => ?_
  · exact .pure (inner_one (startsDeclaration_punctuator h))
  · exact .pure (inner_one (startsDeclaration_punctuator h))
  · exact .fail (fun _ => rfl) rfl

end Tokens

section Items

variable {α : Type} {item : Parser α} {n : Nat}

theorem reads_itemsAt (h : Reads [] n 0 item) (close : Punctuator) (context : String) :
    Reads [] n 1 (itemsAt item close context n) := by
  induction n with
  | zero => exact .done
  | succ n ih =>
    refine h.bind fun first => (reads_another close context).bind fun more => ?_
    refine .ite (fun _ => ?_) fun _ => .pure inner_nil
    exact (ih (h.fewer (Nat.le_succ n))).maybe.bind fun _ => .pure inner_nil

theorem reads_items (h : Reads [] n 0 item) (close : Punctuator) (context : String) :
    Reads [] n 1 (items item close context) := by
  refine .nextIs (.branch (.confirmed (fun _ => startsDeclaration_punctuator) fun _ => ?_) ?_)
  · exact .pure inner_nil
  · exact Reads.anywhere (.bounded fun m hm => reads_itemsAt (h.fewer hm) close context)

theorem reads_trailingItemsAt (h : Reads [] n 0 item) (close : Punctuator)
    (context : String) : Reads [] n 1 (trailingItemsAt item close context n) := by
  induction n with
  | zero => exact .done
  | succ n ih =>
    refine .nextIs (.branch (.confirmed (fun _ => startsDeclaration_punctuator) fun _ => ?_) ?_)
    · exact .pure inner_nil
    · refine h.anywhere.bind fun first => (reads_another close context).bind fun more => ?_
      refine .ite (fun _ => ?_) fun _ => .pure inner_nil
      exact (ih (h.fewer (Nat.le_succ n))).maybe.bind fun _ => .pure inner_nil

theorem reads_trailingItems (h : Reads [] n 0 item) (close : Punctuator)
    (context : String) : Reads [] n 1 (trailingItems item close context) :=
  .bounded fun _ hm => reads_trailingItemsAt (h.fewer hm) close context

end Items

theorem reads_modifiersAt (n m : Nat) (t : Ty) : Reads [] n 0 (modifiersAt m t) := by
  induction m generalizing n t with
  | zero => exact .pure inner_nil
  | succ m ih =>
    refine .ahead 0 fun kind => ?_
    split
    · refine .found (fun _ => startsDeclaration_punctuator) fun _ => .consume fun token _ => ?_
      split
      case h_1 heq => exact .skip (startsDeclaration_punctuator heq) (ih _ _).anywhere
      case h_2 literal heq =>
        refine .skip (by simp [startsDeclaration, heq]) ?_
        exact (reads_expectMark _ _).maybe.bind fun _ => ih _ _
      case h_3 => exact .fail (fun _ => rfl) rfl
    · exact .found (fun _ => startsDeclaration_punctuator) fun _ => ih _ _
    · exact .pure inner_nil

theorem reads_type {n : Nat} : Reads [] n 1 type := by
  refine .consume fun token _ => ?_
  split
  case h_1 name heq =>
    refine .skip (by simp [startsDeclaration, heq]) ?_
    refine (Reads.bounded fun m _ => reads_modifiersAt m m _).anywhere.bind fun _ => ?_
    exact .position fun _ => .pure inner_nil
  case h_2 => exact .fail (fun _ => rfl) rfl

/-! Expressions. -/

section Expressions

variable {n : Nat} {operand nested expr leaf : Parser Expr}

/-- Operators never start a declaration. -/
def InnerOp (op? : Token.Kind → Option BinaryOp) : Prop :=
  ∀ t : Token, (op? t.kind).isSome → startsDeclaration t = false

theorem reads_binaryAt {op? : Token.Kind → Option BinaryOp} (hop : InnerOp op?)
    (h : Reads [] n 0 operand) (m : Nat) (lhs : Expr) :
    Reads [] n 0 (binaryAt op? operand m lhs) := by
  induction m generalizing n lhs with
  | zero => exact .pure inner_nil
  | succ m ih =>
    refine .ahead 0 fun kind => ?_
    split
    case h_1 => exact .pure inner_nil
    case h_2 op heq =>
      refine .seen (fun t rest hrest => hop t ?_) fun _ => ?_
      · obtain rfl : some t.kind = kind := hrest.2
        simp [show op? t.kind = some op from heq]
      · exact (h.fewer (Nat.sub_le _ _)).bind fun rhs => ih (h.fewer (by omega)) _

theorem reads_binary {op? : Token.Kind → Option BinaryOp} (hop : InnerOp op?)
    (h : Reads [] n 1 operand) : Reads [] n 1 (binary op? operand) :=
  h.bind fun lhs => .bounded fun m hm =>
    (reads_binaryAt hop (h.fewer (by omega)).maybe m lhs)

theorem innerOp_logical : InnerOp logicalOp? := by
  intro t h
  unfold logicalOp? at h
  split at h <;> simp_all [startsDeclaration, Keyword.startsDeclaration]

theorem innerOp_comparison : InnerOp comparisonOp? := by
  intro t h
  unfold comparisonOp? at h
  split at h <;> simp_all [startsDeclaration]

theorem innerOp_additive : InnerOp additiveOp? := by
  intro t h
  unfold additiveOp? at h
  split at h <;> simp_all [startsDeclaration]

theorem innerOp_multiplicative : InnerOp multiplicativeOp? := by
  intro t h
  unfold multiplicativeOp? at h
  split at h <;> simp_all [startsDeclaration]

theorem reads_binaryLevels (h : Reads [] n 1 operand) : Reads [] n 1 (binaryLevels operand) :=
  reads_binary innerOp_logical <| reads_binary innerOp_comparison <|
    reads_binary innerOp_additive <| reads_binary innerOp_multiplicative h

theorem reads_unaryOver (hn : Reads [] (n - 1) 0 nested) (ho : Reads [] n 1 operand) :
    Reads [] n 1 (unaryOver nested operand) := by
  refine .peek fun token => ?_
  split
  case h_1 => exact ho.anywhere
  case h_2 op heq =>
    refine .peeked ?_ fun _ => hn.bind fun _ => .pure inner_nil
    unfold unaryOp? at heq
    split at heq <;> simp_all [startsDeclaration, Keyword.startsDeclaration]

theorem reads_conversionsAt (n m : Nat) (e : Expr) : Reads [] n 0 (conversionsAt m e) := by
  induction m generalizing n e with
  | zero => exact .pure inner_nil
  | succ m ih =>
    refine .nextIs (.branch (.confirmed (fun _ => startsDeclaration_punctuator) fun _ => ?_) ?_)
    · exact reads_type.maybe.bind fun _ => ih _ _
    · exact .pure inner_nil

theorem reads_converted (h : Reads [] n 1 leaf) : Reads [] n 1 (converted leaf) :=
  h.bind fun e => .bounded fun m _ => reads_conversionsAt m m e

theorem reads_accessorsAt (h : Reads [] n 0 expr) (m : Nat) :
    Reads [] n 0 (accessorsAt expr m) := by
  induction m generalizing n with
  | zero => exact .pure inner_nil
  | succ m ih =>
    have hrest {k : Nat} (hk : k ≤ n) (a : Accessor) :
        Reads [] k 0 (do return a :: (← accessorsAt expr m)) :=
      (ih (h.fewer hk)).bind fun _ => .pure inner_nil
    refine .ahead 0 fun kind => ?_
    split
    · refine .found (fun _ => startsDeclaration_punctuator) fun _ => ?_
      refine (reads_items (h.fewer (by omega)) _ _).maybe.bind fun _ => .position fun _ => ?_
      exact hrest (by omega) _
    · refine .found (fun _ => startsDeclaration_punctuator) fun _ => ?_
      refine (h.fewer (by omega)).bind fun _ => (reads_expectMark _ _).maybe.bind fun _ => ?_
      exact .position fun _ => hrest (by omega) _
    · refine .found (fun _ => startsDeclaration_punctuator) fun _ => ?_
      refine (reads_expectName _).maybe.bind fun _ => .position fun _ => ?_
      exact hrest (by omega) _
    · refine .found (fun _ => startsDeclaration_punctuator) fun _ => .position fun _ => ?_
      exact hrest (by omega) _
    · exact .pure inner_nil

theorem reads_place (h : Reads [] (n - 1) 0 expr) : Reads [] n 1 (place expr) := by
  refine (reads_expectName _).bind fun name => ?_
  refine (Reads.bounded fun m hm => reads_accessorsAt (h.fewer hm) m).bind fun _ => ?_
  exact .position fun _ => .pure inner_nil

theorem reads_argument (h : Reads [] n 1 expr) : Reads [] n 0 (argument expr) := by
  have hvalue {k : Nat} (hk : k ≤ n) (name : Option (Located String)) :
      Reads [] k 0 (do return Argument.mk name (← expr)) :=
    (h.fewer hk).maybe.bind fun _ => .pure inner_nil
  refine .peek fun token => ?_
  split
  case h_1 name heq =>
    refine .ahead 1 fun kind => .ite (fun hkind => ?_) fun _ => (hvalue (Nat.le_refl _) _).anywhere
    -- The name and the sign behind it have both been seen.
    refine .consume fun t ⟨rest, ⟨_, hfirst⟩, _⟩ => .skip ?_
      (.seen (fun u more hmore => ?_) fun _ => ?_)
    · obtain rfl : t = token := by simpa using hfirst
      simp [startsDeclaration, heq]
    · have hsecond : u.kind = .punctuator .assignment := by simpa [hkind] using hmore.2
      exact startsDeclaration_punctuator hsecond
    · exact hvalue (by omega) _
  case h_2 => exact (hvalue (Nat.le_refl _) _).anywhere

theorem reads_constructAfter (start : Location) (h : Reads [] (n - 1) 1 expr) :
    Reads [] n 1 (constructAfter start expr) := by
  refine (reads_expectName _).bind fun _ => (reads_expectMark _ _).maybe.bind fun _ => ?_
  refine (reads_expectMark _ _).maybe.bind fun _ => ?_
  refine (reads_trailingItems (reads_argument (h.fewer (by omega))) _ _).maybe.bind fun _ => ?_
  exact .position fun _ => .pure inner_nil

theorem reads_leafOver (he : Reads [] (n - 1) 1 expr) (hl : Reads [] (n - 1) 1 leaf) :
    Reads [] n 1 (leafOver expr leaf) := by
  have hsimple {token : Token} (htoken : startsDeclaration token = false) (e : Location → Expr) :
      Reads [] n 1 (do let _ ← consume; return e (← position)) fun rest =>
        True ∧ rest.head? = some token :=
    .peeked htoken fun _ => .position fun _ => .pure inner_nil
  have hplace : Reads [] n 1 (place expr) := reads_place he.maybe
  refine .peek fun token => ?_
  dsimp only
  split
  case h_1 heq => exact hsimple (by simp [startsDeclaration, heq]) _
  case h_2 heq => exact hsimple (by simp [startsDeclaration, heq]) _
  case h_3 heq => exact hsimple (by simp [startsDeclaration, heq]) _
  case h_4 heq => exact hsimple (startsDeclaration_keyword heq rfl) _
  case h_5 heq => exact hsimple (startsDeclaration_keyword heq rfl) _
  case h_6 heq => exact hsimple (startsDeclaration_keyword heq rfl) _
  case h_7 heq =>
    refine Reads.anywhere (.ahead 1 fun _ => .ahead 2 fun _ => .ite (fun _ => ?_) fun _ => ?_)
    · exact (reads_constructAfter _ he).anywhere
    · exact hplace.anywhere.bind fun _ => .position fun _ => .pure inner_nil
  case h_8 heq =>
    refine .peeked (startsDeclaration_punctuator heq) fun _ => he.maybe.bind fun _ => ?_
    exact (reads_expectMark _ _).maybe.bind fun _ => .position fun _ => .pure inner_nil
  case h_9 heq =>
    refine .peeked (startsDeclaration_punctuator heq) fun _ => ?_
    refine (reads_items he.maybe _ _).maybe.bind fun _ => ?_
    exact .position fun _ => .pure inner_nil
  case h_10 heq =>
    refine .peeked (startsDeclaration_punctuator heq) fun _ => hl.maybe.bind fun _ => ?_
    exact .position fun _ => .pure inner_nil
  case h_11 heq =>
    refine .peeked (startsDeclaration_punctuator heq) fun _ => ?_
    refine (reads_place (he.fewer (by omega)).maybe).maybe.bind fun _ => ?_
    exact .position fun _ => .pure inner_nil
  all_goals exact .consume fun _ _ => .fail (fun _ => rfl) rfl

end Expressions

theorem reads_levelsAt (n : Nat) : Reads [] n 1 (expressionAt n) ∧ Reads [] n 1 (unaryAt n) ∧
    Reads [] n 1 (leafAt n) := by
  induction n with
  | zero => exact ⟨.done, .done, .done⟩
  | succ n ih =>
    obtain ⟨he, hu, hl⟩ := ih
    have hleaf : Reads [] (n + 1) 1 (leafOver (expressionAt n) (leafAt n)) := reads_leafOver he hl
    have hunary : Reads [] (n + 1) 1 (unaryOver (unaryAt n)
        (converted (leafOver (expressionAt n) (leafAt n)))) :=
      reads_unaryOver hu.maybe (reads_converted hleaf)
    exact ⟨reads_binaryLevels hunary, hunary, hleaf⟩

theorem reads_expression {n : Nat} : Reads [] n 1 expression :=
  .bounded fun m _ => (reads_levelsAt m).1

/-! Statements. -/

section Statements

variable {n : Nat} {statement : Parser Stmt} {block : Parser Block}

theorem reads_statementsAt (h : Reads [] n 1 statement) :
    Reads [] n 1 (statementsAt statement n) := by
  induction n with
  | zero => exact .done
  | succ n ih =>
    refine .nextIs (.branch (.confirmed (fun _ => startsDeclaration_punctuator) fun _ => ?_) ?_)
    · exact .pure inner_nil
    · refine h.anywhere.bind fun _ => ?_
      exact (ih (h.fewer (Nat.le_succ n))).maybe.bind fun _ => .pure inner_nil

def BodyAhead (rest : List Token) : Prop :=
  rest.head?.map Token.kind = some (.punctuator .leftBrace) ∨
    rest.head?.map Token.kind = some (.punctuator .doubleAmpersand)

/-- A block that is a single statement needs as many steps as the statement; otherwise a token goes
before. -/
theorem reads_blockOf {H : List Token → Prop} (h : Reads [] (n - 1) 1 statement)
    (hsingle : (∀ rest, H rest → BodyAhead rest) ∨ Reads [] n 1 statement) :
    Reads [] n 1 (blockOf statement) H := by
  have hbraces {k : Nat} {H' : List Token → Prop} (hk : k ≤ n) (start : Location) (manual : Bool) :
      Reads [] k 1 (do
        let _ ← consume
        let statements ← bounded (statementsAt statement)
        return Block.mk ⟨start, ← position⟩ manual statements) fun rest =>
          H' rest ∧ rest.head?.map Token.kind = some (.punctuator .leftBrace) := by
    refine .confirmed (fun _ => startsDeclaration_punctuator) fun _ => ?_
    refine (Reads.bounded fun m hm => (reads_statementsAt (h.fewer ?_)).maybe).bind fun _ => ?_
    · omega
    · exact .position fun _ => .pure inner_nil
  have honly {k : Nat} (hk : Reads [] k 1 statement) (start : Location) (manual : Bool) :
      Reads [] k 1 (do
        let only ← statement
        return Block.mk ⟨start, ← position⟩ manual [only]) :=
    hk.bind fun _ => .position fun _ => .pure inner_nil
  refine .peek fun token => .nextIs fun manual => ?_
  dsimp only
  split
  case isTrue heq =>
    subst heq
    refine .seen (fun t rest hrest => ?_) fun _ => .nextIs (.branch ?_ ?_)
    · exact startsDeclaration_punctuator (Option.some.inj (hrest.2.1 rfl))
    · exact (hbraces (Nat.sub_le _ _) _ _).maybe
    · exact (honly h _ _).maybe.anywhere
  case isFalse heq =>
    refine .nextIs (.branch (hbraces (Nat.le_refl _) _ _) ?_)
    rcases hsingle with hopens | hsingle
    · refine .never fun rest hrest => ?_
      obtain ⟨⟨⟨hH, -⟩, hmanual⟩, hbrace⟩ := hrest
      rcases hopens rest hH with hleft | hboth
      · exact hbrace hleft
      · exact heq (hmanual.2 hboth)
    · exact (honly hsingle _ _).anywhere

theorem reads_letAfter (start : Location) (allocate : Bool) :
    Reads [] n 0 (letAfter start allocate) := by
  refine reads_type.maybe.bind fun _ => (reads_expectName _).maybe.bind fun _ => ?_
  refine (reads_expectMark _ _).maybe.bind fun _ => reads_expression.maybe.bind fun _ => ?_
  exact .position fun _ => .pure inner_nil

theorem reads_forAfter (start : Location) (h : Reads [] n 1 block) :
    Reads [] n 0 (forAfter start block) := by
  refine (reads_expectName _).maybe.bind fun _ => (reads_expectWord rfl _).maybe.bind fun _ => ?_
  refine reads_expression.maybe.bind fun _ => (reads_expectWord rfl _).maybe.bind fun _ => ?_
  refine reads_expression.maybe.bind fun _ => h.maybe.bind fun _ => ?_
  exact .position fun _ => .pure inner_nil

theorem reads_ifAfter (start : Location) (h : Reads [] n 1 block) :
    Reads [] n 0 (ifAfter start block) := by
  refine reads_expression.maybe.bind fun _ => h.maybe.bind fun _ => ?_
  refine .nextIs (.branch (.confirmed (fun _ ht => startsDeclaration_keyword ht rfl)
    fun _ => ?_) ?_)
  · refine (h.fewer (Nat.sub_le _ _)).maybe.bind fun _ => ?_
    exact .position fun _ => .pure inner_nil
  · exact .position fun _ => .pure inner_nil

/-- The block inside a statement starts after a token of the statement, unless it is all of it. -/
theorem reads_statementOver (hinner : Reads [] (n - 1) 1 block)
    (hbody : Reads [] n 1 block BodyAhead) : Reads [] n 1 (statementOver block) := by
  have hword {token : Token} {word : Keyword} (heq : token.kind = .keyword word)
      (hword : word.startsDeclaration = false) {f : Token → Parser Stmt}
      (hf : ∀ t, Reads [] (n - 1) 0 (f t)) :
      Reads [] n 1 (consume >>= f) fun rest => True ∧ rest.head? = some token :=
    .peeked (startsDeclaration_keyword heq hword) hf
  have hblock {H : List Token → Prop} {start : Location} (hH : ∀ rest, H rest → BodyAhead rest) :
      Reads [] n 1 (do let body ← block; return Stmt.block ⟨start, ← position⟩ body) H :=
    (hbody.mono (Nat.le_refl _) (Nat.le_refl _) hH).bind fun _ =>
      .position fun _ => .pure inner_nil
  refine .peek fun token => ?_
  dsimp only
  split
  case h_1 heq => exact hword heq rfl fun _ => reads_letAfter _ _
  case h_2 heq => exact hword heq rfl fun _ => reads_letAfter _ _
  case h_3 heq =>
    refine hword heq rfl fun _ => (reads_place reads_expression.maybe).maybe.bind fun _ => ?_
    refine (reads_expectMark _ _).maybe.bind fun _ => reads_expression.maybe.bind fun _ => ?_
    exact .position fun _ => .pure inner_nil
  case h_4 heq =>
    refine hword heq rfl fun _ => reads_expression.maybe.bind fun _ => ?_
    exact .position fun _ => .pure inner_nil
  case h_5 heq =>
    refine hword heq rfl fun _ => reads_expression.maybe.bind fun _ => ?_
    exact .position fun _ => .pure inner_nil
  case h_6 heq =>
    refine hword heq rfl fun _ => .ahead 0 fun _ => .ite (fun _ => ?_) fun _ => ?_
    · refine reads_expression.anywhere.maybe.bind fun _ => ?_
      exact .position fun _ => .pure inner_nil
    · exact .position fun _ => .pure inner_nil
  case h_7 heq => exact hword heq rfl fun _ => .position fun _ => .pure inner_nil
  case h_8 heq => exact hword heq rfl fun _ => .position fun _ => .pure inner_nil
  case h_9 heq => exact hword heq rfl fun _ => reads_ifAfter _ hinner
  case h_10 heq =>
    refine hword heq rfl fun _ => reads_expression.maybe.bind fun _ => ?_
    exact hinner.maybe.bind fun _ => .position fun _ => .pure inner_nil
  case h_11 heq =>
    refine hword heq rfl fun _ => hinner.maybe.bind fun _ => ?_
    refine (reads_expectWord rfl _).maybe.bind fun _ => reads_expression.maybe.bind fun _ => ?_
    exact .position fun _ => .pure inner_nil
  case h_12 heq => exact hword heq rfl fun _ => reads_forAfter _ hinner
  case h_13 heq => exact hblock fun rest hrest => .inl (by simp [hrest.2, heq])
  case h_14 heq => exact hblock fun rest hrest => .inr (by simp [hrest.2, heq])
  case h_15 => exact .consume fun _ _ => .fail (fun _ => rfl) rfl

end Statements

theorem reads_statementAt (n : Nat) : Reads [] n 1 (statementAt n) := by
  induction n with
  | zero => exact .done
  | succ n ih =>
    have hless : Reads [] (n - 1) 1 (statementAt n) := ih.fewer (Nat.sub_le _ _)
    exact reads_statementOver (reads_blockOf hless (.inr ih)) (reads_blockOf ih (.inl fun _ h => h))

theorem reads_block {n : Nat} : Reads [] n 1 block :=
  .bounded fun m _ => reads_blockOf ((reads_statementAt m).fewer (Nat.sub_le _ _))
    (.inr (reads_statementAt m))

/-! Declarations. -/

section Declarations

variable {n : Nat}

theorem reads_resultType : Reads [] n 0 resultType := by
  refine .ahead 0 fun _ => ?_
  split
  · exact reads_type.maybe.anywhere
  · exact .position fun _ => .pure inner_nil

theorem reads_parameter : Reads [] n 0 parameter :=
  reads_type.maybe.bind fun _ => (reads_expectName _).maybe.bind fun _ => .pure inner_nil

/-- Here the token that does not fit is left in place. -/
theorem reads_functionAfter (start : Location) : Reads [] n 0 (functionAfter start) := by
  refine (reads_expectName _).maybe.bind fun name => (reads_expectMark _ _).maybe.bind fun _ => ?_
  refine (reads_items reads_parameter _ _).maybe.bind fun parameters => ?_
  refine reads_resultType.bind fun result => .peek fun token => ?_
  have hbody : Reads [] n 0 (do
      let body ← block
      return Function.mk ⟨start, ← position⟩ name parameters result body .empty) :=
    reads_block.maybe.bind fun _ => .position fun _ => .pure inner_nil
  dsimp only
  split
  · intro c _ hc
    exact ⟨[], rfl, inner_nil, rfl, hc.2⟩
  · exact hbody.anywhere

theorem reads_foreignParameter : Reads [] n 0 foreignParameter := by
  refine .nextIs (.branch (.confirmed (fun _ => startsDeclaration_punctuator) fun _ => ?_) ?_)
  · exact .pure inner_nil
  · refine reads_type.maybe.anywhere.bind fun _ => .peek fun token => ?_
    split
    case h_1 heq => exact .peeked (by simp [startsDeclaration, heq]) fun _ => .pure inner_nil
    case h_2 => exact .pure inner_nil

theorem reads_linkName : Reads [] n 0 linkName := by
  refine .nextIs (.branch (.confirmed (fun _ ht => startsDeclaration_keyword ht rfl)
    fun _ => ?_) ?_)
  · exact (reads_expectName _).maybe.bind fun _ => .pure inner_nil
  · exact .pure inner_nil

theorem reads_foreignAfter (start : Location) : Reads [] n 0 (foreignAfter start) := by
  refine (reads_expectName _).maybe.bind fun _ => reads_linkName.bind fun _ => ?_
  refine (reads_expectMark _ _).maybe.bind fun _ => ?_
  refine (reads_items reads_foreignParameter _ _).maybe.bind fun _ => ?_
  exact reads_resultType.bind fun _ => .position fun _ => .pure inner_nil

theorem reads_recordAfter (start : Location) : Reads [] n 0 (recordAfter start) := by
  have hmember {k : Nat} : Reads [] k 0 member :=
    reads_type.maybe.bind fun _ => (reads_expectName _).maybe.bind fun _ => .pure inner_nil
  refine (reads_expectName _).maybe.bind fun _ => (reads_expectMark _ _).maybe.bind fun _ => ?_
  refine (reads_trailingItems hmember _ _).maybe.bind fun _ => ?_
  exact .position fun _ => .pure inner_nil

theorem reads_embedAfter (start : Location) : Reads [] n 0 (embedAfter start) := by
  refine (reads_expectString _).maybe.bind fun _ => (reads_expectWord rfl _).maybe.bind fun _ => ?_
  exact (reads_expectName _).maybe.bind fun _ => .position fun _ => .pure inner_nil

end Declarations

theorem declaration_stray {t : Token} (ht : startsDeclaration t = false) (rest : List Token)
    (last : Span) : declaration ⟨t :: rest, last⟩ =
      .error (.reported (.expectedDeclaration t)) ⟨rest, t.span⟩ := by
  obtain ⟨kind, start, stop⟩ := t
  cases kind with
  | keyword word => cases word <;> first | rfl | cases ht
  | _ => rfl

/-- How an attempt at a declaration ends. Only its first token may be a keyword that starts one,
besides the token that does not fit. -/
theorem declaration_outcome {t : Token} (ht : startsDeclaration t = true) (rest : List Token)
    (last : Span) : Outcome rest 0 (declaration ⟨t :: rest, last⟩) := by
  have hrun {α : Type} {p : Parser α} (f : α → Declaration)
      (h : Reads [] rest.length 0 p) : Outcome rest 0 ((do return f (← p)) ⟨rest, t.span⟩) :=
    (h.bind fun _ => .pure inner_nil) ⟨rest, t.span⟩ (Nat.le_refl _) trivial
  obtain ⟨kind, start, stop⟩ := t
  cases kind with
  | keyword word =>
    cases word with
    | fn_ => exact hrun _ (reads_functionAfter _)
    | cfn_ => exact hrun _ (reads_foreignAfter _)
    | type_ => exact hrun _ (reads_recordAfter _)
    | link_ => exact hrun _ (reads_expectString _).maybe
    | embed_ => exact hrun _ (reads_embedAfter _)
    | _ => cases ht
  | _ => cases ht

end RegionCompiler.Parse
