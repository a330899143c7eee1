import RegionCompiler.Proofs.Parse.Exact.Expr
import RegionCompiler.Proofs.Parse.Recovery
import RegionCompiler.Proofs.Token.Tiling

/-! Every node of a statement or a declaration that a parser reads has the span of the tokens that
were taken for it, whatever was given up before it. -/
namespace RegionCompiler.Parse

open Phrase

open Token (Kind)

/-! ### Statements -/

section Statements

variable {statement : Parser Stmt} {block : Parser Block}

theorem moves_statementsAt (h : Moves statement fun c s next => c.Takes s.phrase.tokens next)
    (n : Nat) : Moves (statementsAt statement n) fun c ss next =>
      c.Takes (seq (Stmt.phrases ss ++ [mark .rightBrace])).tokens next := by
  induction n with
  | zero => exact .throw
  | succ n ih =>
    refine (moves_nextIs _).bind fun closed => .ite (fun hclosed => ?_) fun _ => ?_
    · refine .confirmed hclosed fun _ => .pure ?_
      intro next c _ hclose
      exact hclose.single
    · refine h.bind fun first => ih.bind fun rest => .pure ?_
      rintro next m hrest c hfirst _ ⟨rfl, -⟩
      exact hfirst.cons hrest

theorem moves_contents (manual : Bool) (start : Location)
    (h : Moves statement fun c s next => c.Takes s.phrase.tokens next) :
    Moves (do
      if ← nextIsMark .leftBrace then
        let _ ← consume
        let statements ← bounded (statementsAt statement)
        return Block.mk ⟨start, ← position⟩ manual statements
      else
        let only ← statement
        return Block.mk ⟨start, ← position⟩ manual [only])
      fun m b next => ∀ c : Cursor, c.Begins start →
        c.Takes (seq (if manual then [mark .doubleAmpersand] else [])).tokens m →
          c.Takes b.phrase.tokens next := by
  have hsolid (ss : List Stmt) : ∃ p ∈ (if manual then [mark .doubleAmpersand] else []) ++
      [body (Stmt.phrases ss)], p.Solid := by
    refine ⟨_, List.mem_append_right _ (List.mem_singleton_self _), ?_⟩
    rw [Stmt.phrases_eq_map]
    exact solid_body ss
  refine (moves_nextIs _).bind fun braced => .ite (fun hbraced => ?_) fun hbraced => ?_
  · refine .confirmed hbraced fun _ =>
      (Moves.bounded fun n => moves_statementsAt h n).bind fun statements => .stop ?_
    intro next c₂ hstatements c₁ _ hopen c hstart hmanual
    have hbody : c₁.Takes (body (Stmt.phrases statements)).tokens next :=
      (hopen.cons hstatements).mono fun _ => .inl
    exact (hmanual.append hbody.single).node (hsolid _) hstart rfl
  · refine h.bind fun only => .stop ?_
    rintro next c₁ honly _ ⟨rfl, -⟩ c hstart hmanual
    have hbody : c₁.Takes (body (Stmt.phrases [only])).tokens next :=
      honly.single.mono fun _ hts => .inr ⟨hts, rfl⟩
    exact (hmanual.append hbody.single).node (hsolid _) hstart rfl

theorem moves_blockOf (h : Moves statement fun c s next => c.Takes s.phrase.tokens next) :
    Moves (blockOf statement) fun c b next => c.Takes b.phrase.tokens next := by
  refine moves_peek.bind fun token => (moves_nextIs _).bind fun manual => ?_
  cases manual with
  | true =>
    refine .confirmed rfl fun _ => (moves_contents true token.start h).mono ?_
    rintro m b next hb c _ hmark _ ⟨rfl, hpeek⟩
    exact hb c (Cursor.begins_of_head hpeek) hmark.single
  | false =>
    refine (moves_contents false token.start h).mono ?_
    rintro c b next hb _ ⟨rfl, -⟩ _ ⟨rfl, hpeek⟩
    exact hb c (Cursor.begins_of_head hpeek) (.nil c)

theorem moves_letAfter (start : Location) (allocate : Bool) :
    Moves (letAfter start allocate) fun m s next => ∀ c : Cursor, c.Begins start →
      c.Takes (word (.ofLet allocate)).tokens m → c.Takes s.phrase.tokens next := by
  refine moves_type.bind fun ty => (moves_expectName _).bind fun name =>
    (moves_expectMark _ _).bind fun _ => moves_expression.bind fun value => .stop ?_
  intro next c₄ hvalue c₃ hassign c₂ hname c₁ hty c hstart hlet
  refine Cursor.Takes.node ?_ (by simp) hstart rfl
  exact hlet.cons (hty.cons (hname.cons (hassign.cons hvalue.single)))

theorem moves_forAfter (start : Location)
    (h : Moves block fun c b next => c.Takes b.phrase.tokens next) :
    Moves (forAfter start block) fun m s next => ∀ c : Cursor, c.Begins start →
      c.Takes (word .for_).tokens m → c.Takes s.phrase.tokens next := by
  refine (moves_expectName _).bind fun iterator => (moves_expectWord _ _).bind fun _ =>
    moves_expression.bind fun first => (moves_expectWord _ _).bind fun _ =>
      moves_expression.bind fun last => h.bind fun body => .stop ?_
  intro next c₆ hbody c₅ hlast c₄ huntil c₃ hfirst c₂ hfrom c₁ hiterator c hstart hfor
  have hbounds := hfirst.cons (huntil.cons (hlast.cons hbody.single))
  refine Cursor.Takes.node ?_ (by simp) hstart rfl
  exact hfor.cons (hiterator.cons (hfrom.cons hbounds))

theorem moves_ifAfter (start : Location)
    (h : Moves block fun c b next => c.Takes b.phrase.tokens next) :
    Moves (ifAfter start block) fun m s next => ∀ c : Cursor, c.Begins start →
      c.Takes (word .if_).tokens m → c.Takes s.phrase.tokens next := by
  refine moves_expression.bind fun condition => h.bind fun yes =>
    (moves_nextIs _).bind fun other => .ite (fun hother => ?_) fun _ => ?_
  · refine .confirmed hother fun _ => h.bind fun no => .stop ?_
    intro next c₄ hno c₃ _ helse c₂ hyes c₁ hcondition c hstart hif
    refine Cursor.Takes.node ?_ (by simp) hstart rfl
    exact hif.cons (hcondition.cons (hyes.cons (helse.cons hno.single)))
  · refine .stop ?_
    rintro next _ ⟨rfl, -⟩ c₂ hyes c₁ hcondition c hstart hif
    exact (hif.cons (hcondition.cons hyes.single)).node (by simp) hstart rfl

theorem moves_body {token : Token} (h : Moves block fun c b next => c.Takes b.phrase.tokens next) :
    Moves (do
      let body ← block
      return Stmt.block ⟨token.start, ← position⟩ body) fun m s next => ∀ c : Cursor,
        m = c ∧ c.rest.head? = some token → c.Takes s.phrase.tokens next := by
  refine h.bind fun body => .stop ?_
  rintro next c hbody _ ⟨rfl, hpeek⟩
  exact hbody.single.node (by simp) (Cursor.begins_of_head hpeek) rfl

theorem moves_statementOver (h : Moves block fun c b next => c.Takes b.phrase.tokens next) :
    Moves (statementOver block) fun c s next => c.Takes s.phrase.tokens next := by
  refine moves_peek.bind fun token => ?_
  dsimp only
  split
  · exact .peeked ‹_› fun _ => moves_letAfter token.start false
  · exact .peeked ‹_› fun _ => moves_letAfter token.start true
  · refine .peeked ‹_› fun _ => (moves_place moves_expression).bind fun target =>
      (moves_expectMark _ _).bind fun _ => moves_expression.bind fun value => .stop ?_
    intro next c₃ hvalue c₂ hassign c₁ htarget c hstart hmut
    refine Cursor.Takes.node ?_ (by simp) hstart rfl
    exact hmut.cons (htarget.cons (hassign.cons hvalue.single))
  · refine .peeked ‹_› fun _ => moves_expression.bind fun value => .stop ?_
    intro next c₁ hvalue c hstart hcall
    exact (hcall.cons hvalue.single).node (by simp) hstart rfl
  · refine .peeked ‹_› fun _ => moves_expression.bind fun value => .stop ?_
    intro next c₁ hvalue c hstart hcollect
    exact (hcollect.cons hvalue.single).node (by simp) hstart rfl
  · refine .peeked ‹_› fun _ => (moves_ahead 0).bind fun next => .ite (fun _ => ?_) fun _ => ?_
    · refine moves_expression.bind fun value => .stop ?_
      rintro next c₁ hvalue _ ⟨rfl, -⟩ c hstart hret
      exact (hret.cons hvalue.single).node (by simp) hstart rfl
    · refine .stop ?_
      rintro next _ ⟨rfl, -⟩ c hstart hret
      exact hret.single.node (by simp) hstart rfl
  · refine .peeked ‹_› fun _ => .stop ?_
    intro next c hstart hbreak
    exact hbreak.single.node (by simp) hstart rfl
  · refine .peeked ‹_› fun _ => .stop ?_
    intro next c hstart hcontinue
    exact hcontinue.single.node (by simp) hstart rfl
  · exact .peeked ‹_› fun _ => moves_ifAfter token.start h
  · refine .peeked ‹_› fun _ => moves_expression.bind fun condition => h.bind fun body => .stop ?_
    intro next c₂ hbody c₁ hcondition c hstart hwhile
    exact (hwhile.cons (hcondition.cons hbody.single)).node (by simp) hstart rfl
  · refine .peeked ‹_› fun _ => h.bind fun body => (moves_expectWord _ _).bind fun _ =>
      moves_expression.bind fun condition => .stop ?_
    intro next c₃ hcondition c₂ hwhile c₁ hbody c hstart hdo
    refine Cursor.Takes.node ?_ (by simp) hstart rfl
    exact hdo.cons (hbody.cons (hwhile.cons hcondition.single))
  · exact .peeked ‹_› fun _ => moves_forAfter token.start h
  · exact moves_body h
  · exact moves_body h
  · exact moves_consume.bind fun t => .fail

theorem moves_statementAt (n : Nat) :
    Moves (statementAt n) fun c s next => c.Takes s.phrase.tokens next := by
  induction n with
  | zero => exact .throw
  | succ n ih => exact moves_statementOver (moves_blockOf ih)

end Statements

theorem moves_block : Moves block fun c b next => c.Takes b.phrase.tokens next :=
  .bounded fun n => moves_blockOf (moves_statementAt n)

/-! ### Declarations -/

theorem moves_resultType : Moves resultType fun m t next => ∀ c : Cursor,
    c.Takes (mark .rightParen).tokens m → c.Takes t.resultPhrase.tokens next := by
  refine (moves_ahead 0).bind fun next => ?_
  split
  · refine moves_type.mono ?_
    rintro m t next ht _ ⟨rfl, -⟩ c hclose
    exact (hclose.cons ht.single).mono fun _ => .inl
  · refine moves_position.bind fun here => .pure ?_
    rintro next m ⟨rfl, rfl⟩ _ ⟨rfl, -⟩ c ⟨ts, ⟨u, rfl, hu⟩, hrest, hlast⟩
    exact ⟨[u], .inr ⟨u, rfl, hu, by rw [hlast]; rfl⟩, hrest, hlast⟩

theorem Cursor.Takes.result {c m next : Cursor} {ps : List Phrase} {t : Located Ty}
    (h : c.Takes (seq (ps ++ [mark .rightParen])).tokens m)
    (ht : ∀ c : Cursor, c.Takes (mark .rightParen).tokens m → c.Takes t.resultPhrase.tokens next) :
    c.Takes (seq (ps ++ [t.resultPhrase])).tokens next := by
  obtain ⟨c', hps, hclose⟩ := h.split
  exact hps.append (ht c' hclose.of_single).single

theorem moves_parameter : Moves parameter fun c p next => c.Takes p.phrase.tokens next := by
  refine moves_type.bind fun ty => (moves_expectName _).bind fun name => .pure ?_
  intro next c₁ hname c hty
  exact hty.cons hname.single

theorem moves_member : Moves member fun c m next => c.Takes m.phrase.tokens next := by
  refine moves_type.bind fun ty => (moves_expectName _).bind fun name => .pure ?_
  intro next c₁ hname c hty
  exact hty.cons hname.single

theorem moves_functionAfter (start : Location) :
    Moves (functionAfter start) fun m f next => ∀ c : Cursor, c.Begins start →
      c.Takes (word .fn_).tokens m → c.Takes f.phrase.tokens next := by
  refine (moves_expectName _).bind fun name => (moves_expectMark _ _).bind fun _ =>
    (moves_items moves_parameter).bind fun parameters => moves_resultType.bind fun result =>
      moves_peek.bind fun token => .ite (fun _ => .fail) fun _ => ?_
  refine moves_block.bind fun body => .stop ?_
  rintro next m hbody _ ⟨rfl, -⟩ c₃ hresult c₂ hparameters c₁ hopen c₀ hname c hstart hfn
  refine Cursor.Takes.node ?_ (by simp) hstart rfl
  have hall := (hparameters.result hresult).append hbody.single
  rw [List.append_assoc, List.singleton_append] at hall
  exact hfn.cons (hname.cons (hopen.cons hall))

theorem moves_foreignParameter :
    Moves foreignParameter fun c p next => c.Takes p.phrase.tokens next := by
  refine (moves_nextIs _).bind fun variadic => .ite (fun hvariadic => ?_) fun _ => ?_
  · have hconsume : Moves (do return ForeignParameter.variadic (← consume).span) fun c p next =>
        c.rest.head?.map Token.kind = some (.punctuator .asterisk) →
          c.Takes p.phrase.tokens next := by
      refine moves_consume.bind fun t => .pure ?_
      rintro next c ⟨hhead, htakes, hlast⟩ hstar
      rw [hhead] at hstar
      rw [Option.some.inj hstar] at htakes
      exact htakes.single.node (by simp) (Cursor.begins_of_head hhead) (by rw [hlast]; rfl)
    refine hconsume.mono ?_
    rintro c p next hp _ ⟨rfl, hstar⟩
    exact hp (hstar hvariadic)
  · refine moves_type.bind fun ty => moves_peek.bind fun token => ?_
    split
    · rename_i name hkind
      refine moves_consume.bind fun t => .pure ?_
      rintro next c₁ ⟨hhead, hname, hlast⟩ _ ⟨rfl, hpeek⟩ c hty _ ⟨rfl, -⟩
      obtain rfl : t = token := Option.some.inj (hhead.symm.trans hpeek)
      rw [hkind] at hname
      have hname : c₁.Takes (Located.namePhrase ⟨t.span, name⟩).tokens next :=
        hname.single.node (by simp) (Cursor.begins_of_head hhead) (by rw [hlast])
      refine Cursor.Takes.node (hty.cons hname.single) ?_ hty.begins hname.stop
      simp [Located.namePhrase]
    · refine .pure ?_
      rintro next _ ⟨rfl, -⟩ c hty _ ⟨rfl, -⟩
      exact hty.single.node (by simp [Located.typePhrase]) hty.begins hty.stop

theorem moves_linkName : Moves linkName fun c l next => ∀ f : ForeignFunction, f.link = l →
    c.Takes (seq f.linkPhrases).tokens next := by
  refine (moves_nextIs _).bind fun from_ => .ite (fun hfrom => ?_) fun _ => ?_
  · refine .confirmed hfrom fun _ => (moves_expectName _).bind fun name => .pure ?_
    intro next c₁ hname c _ hword f hf
    rw [ForeignFunction.linkPhrases, hf]
    exact hword.cons hname.single
  · refine .pure ?_
    rintro next _ ⟨rfl, -⟩ f hf
    rw [ForeignFunction.linkPhrases, hf]
    exact .nil _

theorem moves_foreignAfter (start : Location) :
    Moves (foreignAfter start) fun m f next => ∀ c : Cursor, c.Begins start →
      c.Takes (word .cfn_).tokens m → c.Takes f.phrase.tokens next := by
  refine (moves_expectName _).bind fun name => moves_linkName.bind fun link =>
    (moves_expectMark _ _).bind fun _ =>
      (moves_items moves_foreignParameter).bind fun parameters =>
        moves_resultType.bind fun result => .stop ?_
  intro next c₄ hresult c₃ hparameters c₂ hopen c₁ hlink c₀ hname c hstart hcfn
  have hall := (hlink ⟨⟨start, next.last.stop⟩, name, link, parameters, result⟩ rfl).append
    (hopen.cons (hparameters.result hresult))
  refine Cursor.Takes.node ?_ (by simp) hstart rfl
  simpa using hcfn.cons (hname.cons hall)

theorem moves_recordAfter (start : Location) :
    Moves (recordAfter start) fun m r next => ∀ c : Cursor, c.Begins start →
      c.Takes (word .type_).tokens m → c.Takes r.phrase.tokens next := by
  refine (moves_expectName _).bind fun name => (moves_expectMark _ _).bind fun _ =>
    (moves_trailingItems moves_member).bind fun members => .stop ?_
  intro next c₂ hmembers c₁ hopen c₀ hname c hstart htype
  refine Cursor.Takes.node ?_ (by simp) hstart rfl
  exact htype.cons (hname.cons (hopen.cons hmembers))

theorem moves_embedAfter (start : Location) :
    Moves (embedAfter start) fun m e next => ∀ c : Cursor, c.Begins start →
      c.Takes (word .embed_).tokens m → c.Takes e.phrase.tokens next := by
  refine (moves_expectString _).bind fun path => (moves_expectWord _ _).bind fun _ =>
    (moves_expectName _).bind fun name => .stop ?_
  intro next c₂ hname c₁ has c₀ hpath c hstart hembed
  refine Cursor.Takes.node ?_ (by simp) hstart rfl
  exact hembed.cons (hpath.cons (has.cons hname.single))

theorem moves_declaration :
    Moves declaration fun c d next => c.Takes d.phrase.tokens next := by
  have hword {word : Keyword} {token : Token} (hkind : token.kind = .keyword word) {α : Type}
      {p : Parser α} (make : α → Declaration) (view : α → Phrase)
      (hmake : ∀ a, (make a).phrase = view a)
      (h : Moves p fun m a next => ∀ c : Cursor, c.Begins token.start →
        c.Takes (Phrase.word word).tokens m → c.Takes (view a).tokens next) :
      Moves (do return make (← p)) fun m d next => ∀ c : Cursor,
        c.rest.head? = some token ∧ c.Takes (Phrase.token token.kind).tokens m ∧
          m.last = token.span → c.Takes d.phrase.tokens next := by
    refine h.bind fun a => .pure ?_
    rintro next m ha c ⟨hhead, htakes, -⟩
    rw [hkind] at htakes
    rw [hmake]
    exact ha c (Cursor.begins_of_head hhead) htakes
  refine moves_consume.bind fun token => ?_
  split
  · exact hword ‹_› _ _ (fun _ => rfl) (moves_functionAfter _)
  · exact hword ‹_› _ _ (fun _ => rfl) (moves_foreignAfter _)
  · exact hword ‹_› _ _ (fun _ => rfl) (moves_recordAfter _)
  · refine hword ‹_› _ (fun library => seq [word .link_, library.stringPhrase]) (fun _ => rfl) ?_
    exact (moves_expectString _).mono fun m library next hl c _ hlink => hlink.cons hl.single
  · exact hword ‹_› _ _ (fun _ => rfl) (moves_embedAfter _)
  · exact .fail

theorem declaration_error {c stopped : Cursor} {failure : Failure}
    (h : declaration c = .error failure stopped) : stopped.rest <:+ c.rest := by
  obtain ⟨rest, last⟩ := c
  cases rest with
  | nil =>
    cases h
    exact List.suffix_refl _
  | cons t rest =>
    cases hstarts : startsDeclaration t with
    | false =>
      rw [declaration_stray hstarts] at h
      cases h
      exact List.suffix_cons t rest
    | true =>
      have houtcome := declaration_outcome hstarts rest last
      rw [h] at houtcome
      cases failure with
      | endOfFile => exact houtcome.2 ▸ List.nil_suffix
      | reported d =>
        obtain ⟨before, hrest, -⟩ := houtcome
        have hoffending : stopped.rest <:+ d.offending stopped.rest := by
          cases d <;> first | exact List.suffix_refl _ | exact List.suffix_append _ _
        change stopped.rest <:+ t :: rest
        rw [hrest, ← List.cons_append]
        exact hoffending.trans (List.suffix_append _ _)

theorem mem_phrases_of_suffix {ds : List Declaration} {us ts : List Token}
    (h : us ∈ (seq (Declaration.phrases ds)).tokens) (hsuffix : us <:+ ts) :
    ts ∈ (seq (Declaration.phrases ds)).tokens := by
  obtain ⟨before, rfl⟩ := hsuffix
  obtain ⟨skipped, -, rest, hrest, rfl⟩ := Language.mem_mul.1 h
  rw [← List.append_assoc]
  exact Language.append_mem_mul (l := ⊤) trivial hrest

theorem declarationsAt_phrases (n : Nat) (c : Cursor) :
    c.rest ∈ (seq (Declaration.phrases (declarationsAt n c).1)).tokens := by
  have hnone (c : Cursor) : c.rest ∈ (seq (Declaration.phrases [])).tokens :=
    mem_phrases_of_suffix (Language.append_mem_mul (l := ⊤) (a := []) trivial rfl) List.nil_suffix
  induction n generalizing c with
  | zero => exact hnone c
  | succ n ih =>
    unfold declarationsAt
    split
    · exact hnone c
    · split
      · rename_i one next hread
        obtain ⟨ts, hts, hrest, -⟩ := moves_declaration c one next hread
        rw [hrest]
        exact Language.append_mem_mul (l := ⊤) (a := []) trivial
          (Language.append_mem_mul hts (ih next))
      · exact hnone c
      · rename_i d stopped hread
        refine mem_phrases_of_suffix (ih stopped.resume) ?_
        exact (List.dropWhile_suffix _).trans (declaration_error hread)

theorem laid_of_lex {p : Phrase} {text : String}
    (h : (Token.lex text).1 ∈ p.tokens) :
    Outline.Laid 0 (Location.behind text.toList).offset p.outlines := by
  have htiling := Token.readAll_tiling [] text.toList
  rw [Location.behind_nil] at htiling
  refine (p.spread _ h).laid ⟨fun t ht => ?_, htiling.ordered⟩ fun t ht => ?_
  · obtain ⟨lead, c, word, after, -, -, hstart, hstop⟩ := htiling.word t ht
    rw [hstart, hstop]
    exact Location.offset_le ..
  · obtain ⟨lead, c, word, after, htext, -, -, hstop⟩ := htiling.word t ht
    rw [List.nil_append] at htext
    rw [hstop, htext]
    exact ⟨Nat.zero_le _, Location.offset_le ..⟩

/-- The declarations that were read from a text, in its order. -/
def sourceDeclarations (text : String) : List Declaration :=
  (declarationsAt (Token.lex text).1.length (.ofTokens (Token.lex text).1)).1

theorem source_program (path text : String) :
    (source path text).program = .ofDeclarations path (sourceDeclarations text) := rfl

theorem source_phrases (text : String) :
    (Token.lex text).1 ∈ (seq (Declaration.phrases (sourceDeclarations text))).tokens :=
  declarationsAt_phrases _ _

/-- Every node of a program that was read from a text has exactly the span of the tokens that it was
read from: what was read is some declarations one behind the other, and the tokens between them were
given up. So the nodes lie in the text as in the tree, one inside or behind the other. -/
theorem source_exact (path text : String) : ∃ ds,
    (source path text).program = .ofDeclarations path ds ∧
    (source path text).tokens ∈ (seq (Declaration.phrases ds)).tokens ∧
    Outline.Laid 0 (Location.behind text.toList).offset (seq (Declaration.phrases ds)).outlines :=
  ⟨_, source_program path text, source_phrases text, laid_of_lex (source_phrases text)⟩

end RegionCompiler.Parse
