import RegionCompiler.Proofs.Token.Tiling

/-! String literals and the ends of lines. A literal without a closing quote on its line is reported
and ends with the line, unless a backslash stands right before the newline: that pair is taken for
an escape, and the literal goes on in the next line. -/
namespace RegionCompiler.Token

/-- A quote that no backslash escapes closes the literal whose text starts with `line`. -/
def Closes (line : List Char) : Prop :=
  ∃ raw more, Unclosed raw ∧ line = raw ++ '"' :: more

/-- The line of an unclosed literal ends with a backslash that escapes the newline. -/
def Continues (line after : List Char) : Prop :=
  after ≠ [] ∧ ∃ raw, Unclosed raw ∧ line = raw ++ ['\\']

theorem unclosed_escape {c : Char} {rest : List Char} :
    Unclosed ('\\' :: c :: rest) ↔ Unclosed rest := by
  refine ⟨fun h => ?_, .escape c⟩
  cases h with
  | plain _ _ hbackslash _ => exact absurd rfl hbackslash
  | escape _ h => exact h

theorem unclosed_plain {c : Char} (hc : c ≠ '\\') {rest : List Char} :
    Unclosed (c :: rest) ↔ (c ≠ '"' ∧ c ≠ '\n') ∧ Unclosed rest := by
  refine ⟨fun h => ?_, fun h => .plain h.1.1 h.1.2 hc h.2⟩
  cases h with
  | plain hquote hnewline _ h => exact ⟨⟨hquote, hnewline⟩, h⟩
  | escape _ _ => exact absurd rfl hc

theorem Unclosed.of_append {raw : List Char} (h : Unclosed raw) {more : List Char} :
    Unclosed (raw ++ more) → Unclosed more := by
  induction h with
  | nil => exact id
  | plain _ _ hbackslash _ ih => exact fun hall => ih ((unclosed_plain hbackslash).1 hall).2
  | escape c _ ih => exact fun hall => ih (unclosed_escape.1 hall)

theorem Unclosed.not_backslash {raw : List Char} (h : Unclosed raw) :
    ¬ Unclosed (raw ++ ['\\']) := by
  intro hall
  cases h.of_append hall with
  | plain _ _ hbackslash _ => exact hbackslash rfl

theorem Unclosed.not_quote {raw : List Char} (h : Unclosed raw) (more : List Char) :
    ¬ Unclosed (raw ++ '"' :: more) :=
  fun hall => ((unclosed_plain (by decide)).1 (h.of_append hall)).1.1 rfl

theorem Unclosed.newline {raw : List Char} (h : Unclosed raw) {line more : List Char}
    (hraw : raw = line ++ '\n' :: more) (hline : '\n' ∉ line) :
    ∃ lead, line = lead ++ ['\\'] ∧ Unclosed lead ∧ EscapeAt raw lead '\n' := by
  induction h generalizing line with
  | nil => simp at hraw
  | plain hquote hnewline hbackslash _ ih =>
    cases line with
    | nil => exact absurd (List.cons.inj hraw).1 hnewline
    | cons d line =>
      obtain ⟨rfl, hrest⟩ := List.cons.inj hraw
      obtain ⟨lead, rfl, hlead, hat⟩ := ih hrest (List.not_mem_of_not_mem_cons hline)
      exact ⟨_ :: lead, rfl, .plain hquote hnewline hbackslash hlead, .plain hbackslash hat⟩
  | escape c _ ih =>
    rcases line with _ | ⟨d, _ | ⟨e, line⟩⟩
    · simp at hraw
    · simp only [List.cons_append, List.nil_append, List.cons.injEq] at hraw
      obtain ⟨rfl, rfl, rfl⟩ := hraw
      exact ⟨[], rfl, .nil, .here⟩
    · simp only [List.cons_append, List.cons.injEq] at hraw
      obtain ⟨rfl, rfl, hrest⟩ := hraw
      obtain ⟨lead, rfl, hlead, hat⟩ := ih hrest fun h => hline (by simp [h])
      exact ⟨_, rfl, .escape c hlead, .escape hat⟩

theorem mem_readAll {before text : List Char} {t : Token}
    (h : t ∈ (readAll ⟨.behind before, text⟩).1) : ∃ gap c rest one earlier sooner,
      text = gap ++ c :: rest ∧ lexeme (.behind (before ++ gap)) c rest = one ∧
      t = ⟨one.kind, .behind (before ++ gap), one.next.position⟩ ∧
      readAll ⟨.behind before, text⟩ = (earlier ++ t :: (readAll one.next).1,
        sooner ++ (one.reports ++ (readAll one.next).2)) := by
  induction hlength : text.length using Nat.strong_induction_on generalizing before text with
  | _ n ih =>
    rcases readAll_cases before text with ⟨-, hread⟩ | ⟨gap, c, word, rest, one, hone⟩
    · rw [hread] at h
      cases h
    · obtain rfl := hone.text_eq
      have hread := hone.readAll_eq
      rw [hread] at h
      rcases List.mem_cons.1 h with rfl | h
      · exact ⟨gap, c, word ++ rest, one, [], [], by simp, hone.lexeme_eq, rfl, hread⟩
      · rw [hone.next] at h
        obtain ⟨gap', c', rest', other, earlier, sooner, rfl, hother, hstands, hothers⟩ :=
          ih rest.length (by simp at hlength; omega) h rfl
        refine ⟨gap ++ c :: word ++ gap', c', rest', other,
          ⟨one.kind, .behind (before ++ gap), one.next.position⟩ :: earlier, one.reports ++ sooner,
          by simp, by simpa using hother, by simpa using hstands, ?_⟩
        rw [hread, hone.next, hothers]
        simp

section Kinds

variable (r : Reader) (value : String)

theorem wordLexeme_kind : (wordLexeme r).kind ≠ .string value := by
  unfold wordLexeme
  dsimp only
  split
  · split <;> nofun
  · nofun
  · nofun

theorem hexLexeme_kind (start : Location) : (hexLexeme start r).kind ≠ .string value := by
  unfold hexLexeme
  dsimp only
  split
  · nofun
  · split <;> nofun

theorem decimalLexeme_kind : (decimalLexeme r).kind ≠ .string value := by
  unfold decimalLexeme
  dsimp only
  split
  · nofun
  · split <;> nofun

theorem markLexeme_kind (mark : Punctuator) : (markLexeme mark r).kind ≠ .string value := by
  unfold markLexeme
  split
  · nofun
  · split <;> nofun

end Kinds

/-- Only a quote starts a string literal. -/
theorem lexeme_string {start : Location} {c : Char} {rest : List Char} {one : Lexeme}
    (hone : lexeme start c rest = one) {value : String} (h : one.kind = .string value) :
    c = '"' ∧ stringLexeme start rest = one := by
  subst hone
  unfold lexeme at h ⊢
  dsimp only at h ⊢
  split
  · exact ⟨‹_›, rfl⟩
  · rename_i hquote
    rw [if_neg hquote] at h
    split at h
    · exact absurd h (wordLexeme_kind _ _)
    · split at h
      · split at h
        · exact absurd h (hexLexeme_kind _ _ _)
        · exact absurd h (decimalLexeme_kind _ _)
      · split at h
        · exact absurd h (markLexeme_kind _ _ _)
        · cases h

theorem LiteralEnd.inLine {closed : Bool} {tail rest : List Char}
    (h : LiteralEnd closed tail rest) :
    '\n' ∉ tail := by
  cases h <;> simp

theorem LiteralEnd.line {closed : Bool} {raw tail rest : List Char} (hraw : Unclosed raw)
    (hend : LiteralEnd closed tail rest) : ∃ line after,
      raw ++ tail ++ rest = line ++ after ∧ '\n' ∉ line ∧ (∀ c ∈ after.head?, c = '\n') ∧
      (Continues line after ∧ '\n' ∈ raw ∧
          (∃ lead, line = lead ++ ['\\'] ∧ EscapeAt raw lead '\n') ∨
        ¬ Continues line after ∧ '\n' ∉ raw ∧
          (Closes line ∨ closed = false ∧ line = raw ++ tail ∧ after = rest)) := by
  by_cases hnewline : '\n' ∈ raw
  · obtain ⟨line, more, rfl, hline⟩ := List.eq_append_cons_of_mem hnewline
    obtain ⟨lead, rfl, hlead, hat⟩ := hraw.newline rfl hline
    exact ⟨_, '\n' :: (more ++ tail ++ rest), by simp, hline, by simp,
      .inl ⟨⟨by simp, lead, hlead, rfl⟩, hnewline, lead, rfl, hat⟩⟩
  · cases hend with
    | quote =>
      refine ⟨raw ++ '"' :: rest.takeWhile (· ≠ '\n'), rest.dropWhile (· ≠ '\n'), ?_, ?_, ?_,
        .inr ⟨?_, hnewline, .inl ⟨raw, _, hraw, rfl⟩⟩⟩
      · simp
      · simpa [hnewline] using fun h => by simpa using List.mem_takeWhile_imp h
      · intro c hc
        have hdrop := List.head?_dropWhile_not (· ≠ '\n') rest
        rw [Option.mem_def.1 hc] at hdrop
        simpa using hdrop
      · rintro ⟨-, lead, hlead, hline⟩
        rcases List.eq_nil_or_concat (rest.takeWhile (· ≠ '\n')) with hnil | ⟨more, c, hmore⟩
        · rw [hnil] at hline
          have hlast := List.append_inj_right' hline rfl
          simp at hlast
        · rw [hmore, List.concat_eq_append, ← List.cons_append, ← List.append_assoc] at hline
          obtain ⟨rfl, -⟩ := List.append_inj' hline rfl
          exact hraw.not_quote _ hlead
    | newline =>
      refine ⟨raw, '\n' :: _, by simp, hnewline, by simp,
        .inr ⟨?_, hnewline, .inr ⟨rfl, by simp, rfl⟩⟩⟩
      rintro ⟨-, lead, hlead, rfl⟩
      exact hlead.not_backslash hraw
    | text =>
      exact ⟨raw, [], by simp, hnewline, nofun,
        .inr ⟨fun h => h.1 rfl, hnewline, .inr ⟨rfl, by simp, rfl⟩⟩⟩
    | backslash =>
      exact ⟨raw ++ ['\\'], [], by simp, by simpa using hnewline, nofun,
        .inr ⟨fun h => h.1 rfl, hnewline, .inr ⟨rfl, rfl, rfl⟩⟩⟩

theorem stringLexeme_reads {before rest : List Char} {one : Lexeme}
    (hone : stringLexeme (.behind before) rest = one) : ∃ raw tail closed,
      Unclosed raw ∧ LiteralEnd closed tail one.next.rest ∧ rest = raw ++ tail ++ one.next.rest ∧
      one.next.position = .behind (before ++ '"' :: (raw ++ tail)) ∧
      (closed = false → ⟨.behind before, .unterminatedString⟩ ∈ one.reports) ∧
      ∀ lead c, EscapeAt raw lead c → escape? c = none →
        ⟨.behind (before ++ '"' :: (lead ++ ['\\'])), .invalidEscape c⟩ ∈ one.reports := by
  obtain ⟨raw, tail, hbody⟩ := stringBody_reads ((Location.behind before).advance '"') rest
  subst hone
  unfold stringLexeme
  generalize stringBody ((Location.behind before).advance '"') rest = body at hbody
  have hplace (part : List Char) : ((Location.behind before).advance '"').advanceBy part =
      .behind (before ++ '"' :: part) := by
    rw [← Location.behind_concat, Location.advanceBy_behind, List.append_assoc,
      List.singleton_append]
  refine ⟨raw, tail, body.closed, hbody.unclosed, hbody.ends, hbody.passes.rest,
    hbody.passes.position.trans (hplace _), fun hopen => by simp [hopen], fun lead c hat hc => ?_⟩
  have hmem := (hbody.reports _).2 ⟨lead, c, hat, hc, rfl⟩
  rw [hplace] at hmem
  dsimp only
  split
  · exact hmem
  · exact List.mem_append_left _ hmem

/-- A string literal and the line that it starts on: `line` is what is behind its opening quote
there, and `after` starts with the newline. -/
structure LiteralLine (source : String) (t : Token) (before line after : List Char) : Prop where
  text : source.toList = before ++ '"' :: line ++ after
  inLine : '\n' ∉ line
  lineEnd : ∀ c ∈ after.head?, c = '\n'
  start : t.start = .behind before
  continued : Continues line after → t.start.line < t.stop.line ∧
    ⟨.behind (before ++ '"' :: line), .invalidEscape '\n'⟩ ∈ (lex source).2
  kept : ¬ Continues line after → t.start.line = t.stop.line
  unclosed : ¬ Continues line after → ¬ Closes line →
    ⟨t.start, .unterminatedString⟩ ∈ (lex source).2 ∧ t.stop = .behind (before ++ '"' :: line) ∧
      ∃ earlier, (lex source).1 = earlier ++ t :: (readAll ⟨t.stop, after⟩).1

/-- What becomes of a string literal is settled by the rest of its line. Unless a backslash escapes
the newline, the literal stays on the line; if no quote closes it there, it is reported and reading
goes on with the end of the line. -/
theorem string_keeps_line (source : String) {t : Token} (ht : t ∈ (lex source).1) {value : String}
    (hkind : t.kind = .string value) :
    ∃ before line after, LiteralLine source t before line after := by
  have hlex : lex source = readAll ⟨.behind [], source.toList⟩ := by rw [Location.behind_nil]; rfl
  rw [hlex] at ht
  obtain ⟨before, c, rest, one, earlier, sooner, hsource, hone, rfl, hread⟩ := mem_readAll ht
  rw [List.nil_append] at hone hread
  obtain ⟨rfl, hstring⟩ := lexeme_string hone hkind
  obtain ⟨raw, tail, closed, hraw, hends, hrest, hposition, hopen, hescapes⟩ :=
    stringLexeme_reads hstring
  obtain ⟨line, after, hline, hinline, hafter, hcases⟩ := hends.line hraw
  have htext : source.toList = before ++ '"' :: line ++ after := by
    rw [hsource, hrest, hline]
    simp
  refine ⟨before, line, after, htext, hinline, hafter, rfl, ?_, ?_, ?_⟩
  all_goals simp only [hlex, hread, List.nil_append, hposition, Location.line_behind_append]
  all_goals intro hcontinues
  · obtain ⟨-, hnewline, lead, rfl, hat⟩ := hcases.resolve_right fun h => h.1 hcontinues
    have hreport := hescapes lead '\n' hat rfl
    have := List.count_pos_iff.2 (show '\n' ∈ '"' :: (raw ++ tail) by simp [hnewline])
    exact ⟨by omega, by simp [hreport]⟩
  · obtain ⟨-, hnewline, -⟩ := hcases.resolve_left fun h => hcontinues h.1
    rw [List.count_eq_zero_of_not_mem (by simp [hnewline, hends.inLine]), Nat.add_zero]
  · intro hcloses
    obtain ⟨-, -, hunclosed⟩ := hcases.resolve_left fun h => hcontinues h.1
    obtain ⟨rfl, rfl, rfl⟩ := hunclosed.resolve_left hcloses
    have hreport := hopen rfl
    exact ⟨by simp [hreport], rfl, earlier, by rw [← hposition]⟩

/-- A literal without its closing quote, and another one on the next line. -/
def unclosedText : String := "call f(\"ab)\nret \"c\""

theorem string_keeps_line_unclosed :
    let t : Token := ⟨.string "ab)", ⟨7, 0, 7⟩, ⟨11, 0, 11⟩⟩
    t ∈ (lex unclosedText).1 ∧ t.kind = .string "ab)" ∧
      ∃ before line after, LiteralLine unclosedText t before line after := by
  intro t
  have ht : t ∈ (lex unclosedText).1 :=
    List.mem_of_getElem? (show (lex unclosedText).1[3]? = some t by cbv)
  exact ⟨ht, rfl, string_keeps_line unclosedText ht rfl⟩

/-- An escaped newline: the text of the next line is lost in the literal. -/
theorem escaped_newline_leaves_line :
    lex "\"a\\\nfn main() \x7b\x7d" =
      ([⟨.string "a\nfn main() \x7b\x7d", ⟨0, 0, 0⟩, ⟨16, 1, 12⟩⟩],
        [⟨⟨3, 0, 3⟩, .invalidEscape '\n'⟩, ⟨⟨0, 0, 0⟩, .unterminatedString⟩]) := by
  cbv

end RegionCompiler.Token
