import RegionCompiler.Proofs.Location
import RegionCompiler.Proofs.Spelling

/-! Tokens tile the text that they are read from: each takes at least one character, only blanks
and comments are left between them, and all that is located stands where the text says. -/
namespace RegionCompiler.Token

/-- Reading goes on from one reader to another behind `word`. -/
structure Reader.Passes (r : Reader) (word : List Char) (next : Reader) : Prop where
  rest : r.rest = word ++ next.rest
  position : next.position = r.position.advanceBy word

namespace Reader.Passes

variable {r s t : Reader} {word more : List Char}

theorem refl (r : Reader) : r.Passes [] r := ⟨rfl, rfl⟩

theorem trans (h : r.Passes word s) (h' : s.Passes more t) : r.Passes (word ++ more) t where
  rest := by rw [h.rest, h'.rest, List.append_assoc]
  position := by rw [h'.position, h.position, Location.advanceBy_append]

theorem cons {at_ : Location} {c : Char} {rest : List Char}
    (h : Passes ⟨at_.advance c, rest⟩ word s) : Passes ⟨at_, c :: rest⟩ (c :: word) s where
  rest := by rw [List.cons_append, ← h.rest]
  position := h.position

theorem skipWhile (p : Char → Bool) (r : Reader) :
    r.Passes (r.rest.takeWhile p) (r.skipWhile p) where
  rest := List.takeWhile_append_dropWhile.symm
  position := rfl

end Reader.Passes

section Literals

/-- Text of a string literal that does not end it: characters that stand for themselves, and a
backslash with whatever is behind it. -/
inductive Unclosed : List Char → Prop
  | nil : Unclosed []
  | plain {c : Char} {rest : List Char} (quote : c ≠ '"') (newline : c ≠ '\n')
      (backslash : c ≠ '\\') : Unclosed rest → Unclosed (c :: rest)
  | escape (c : Char) {rest : List Char} : Unclosed rest → Unclosed ('\\' :: c :: rest)

/-- What ends a literal before `rest`, and whether it closes it. -/
inductive LiteralEnd : Bool → List Char → List Char → Prop
  | quote {rest : List Char} : LiteralEnd true ['"'] rest
  | newline {rest : List Char} : LiteralEnd false [] ('\n' :: rest)
  | text : LiteralEnd false [] []
  | backslash : LiteralEnd false ['\\'] []

/-- In the text of a literal, an escape of `c` stands behind `before`. -/
inductive EscapeAt : List Char → List Char → Char → Prop
  | here {c : Char} {rest : List Char} : EscapeAt ('\\' :: c :: rest) [] c
  | escape {c d : Char} {rest before : List Char} :
      EscapeAt rest before c → EscapeAt ('\\' :: d :: rest) ('\\' :: d :: before) c
  | plain {c d : Char} {rest before : List Char} (backslash : d ≠ '\\') :
      EscapeAt rest before c → EscapeAt (d :: rest) (d :: before) c

/-- A report on an unknown escape in the text of a literal that starts at `position`. It stands
between the backslash and the character behind it. -/
def Misescaped (position : Location) (raw : List Char) (report : Report) : Prop :=
  ∃ before c, EscapeAt raw before c ∧ escape? c = none ∧
    report = ⟨position.advanceBy (before ++ ['\\']), .invalidEscape c⟩

/-- A literal was read: `raw` and, behind it, what ends it. -/
structure StringBody.Reads (body : StringBody) (r : Reader) (raw tail : List Char) : Prop where
  unclosed : Unclosed raw
  ends : LiteralEnd body.closed tail body.next.rest
  passes : r.Passes (raw ++ tail) body.next
  reports : ∀ report, report ∈ body.reports ↔ Misescaped r.position raw report

theorem EscapeAt.isPrefix {raw before : List Char} {c : Char} (h : EscapeAt raw before c) :
    before ++ ['\\', c] <+: raw := by
  induction h with
  | here => simp
  | escape _ ih => simpa using ih
  | plain _ _ ih => simpa using ih

theorem misescaped_plain {d : Char} (hd : d ≠ '\\') {position : Location} {rest : List Char}
    {report : Report} :
    Misescaped position (d :: rest) report ↔ Misescaped (position.advance d) rest report := by
  constructor
  · rintro ⟨before, c, hat, hc, rfl⟩
    cases hat with
    | here => exact absurd rfl hd
    | escape _ => exact absurd rfl hd
    | plain _ h => exact ⟨_, c, h, hc, rfl⟩
  · rintro ⟨before, c, hat, hc, rfl⟩
    exact ⟨d :: before, c, .plain hd hat, hc, rfl⟩

theorem misescaped_escape {d : Char} {position : Location} {rest : List Char} {report : Report} :
    Misescaped position ('\\' :: d :: rest) report ↔
      (escape? d = none ∧ report = ⟨position.advance '\\', .invalidEscape d⟩) ∨
        Misescaped ((position.advance '\\').advance d) rest report := by
  constructor
  · rintro ⟨before, c, hat, hc, rfl⟩
    cases hat with
    | here => exact .inl ⟨hc, rfl⟩
    | escape h => exact .inr ⟨_, c, h, hc, rfl⟩
    | plain hd _ => exact absurd rfl hd
  · rintro (⟨hd, rfl⟩ | ⟨before, c, hat, hc, rfl⟩)
    · exact ⟨[], d, .here, hd, rfl⟩
    · exact ⟨'\\' :: d :: before, c, .escape hat, hc, rfl⟩

theorem stringBody_ended {position : Location} {tail rest : List Char} {closed : Bool}
    {next : Reader} (hends : LiteralEnd closed tail next.rest)
    (hpasses : Reader.Passes ⟨position, rest⟩ tail next) :
    (StringBody.mk [] closed [] next).Reads ⟨position, rest⟩ [] tail :=
  ⟨.nil, hends, hpasses, fun _ => ⟨nofun, fun ⟨_, _, hat, _⟩ => nomatch hat⟩⟩

theorem stringBody_reads (position : Location) (text : List Char) :
    ∃ raw tail, (stringBody position text).Reads ⟨position, text⟩ raw tail := by
  fun_induction stringBody position text with
  | case1 position => exact ⟨[], _, stringBody_ended .text (.refl _)⟩
  | case2 position rest => exact ⟨[], _, stringBody_ended .quote (.cons (.refl _))⟩
  | case3 position rest => exact ⟨[], _, stringBody_ended .newline (.refl _)⟩
  | case4 position => exact ⟨[], _, stringBody_ended .backslash (.cons (.refl _))⟩
  | case5 position c rest after body d h ih =>
    obtain ⟨raw, tail, hbody⟩ := ih
    refine ⟨'\\' :: c :: raw, tail, .escape c hbody.unclosed, hbody.ends,
      hbody.passes.cons.cons, ?_⟩
    intro report
    rw [misescaped_escape, ← hbody.reports]
    simp [StringBody.cons, body, h]
  | case6 position c rest after body h ih =>
    obtain ⟨raw, tail, hbody⟩ := ih
    refine ⟨'\\' :: c :: raw, tail, .escape c hbody.unclosed, hbody.ends,
      hbody.passes.cons.cons, ?_⟩
    intro report
    rw [misescaped_escape, ← hbody.reports]
    simp [StringBody.cons, StringBody.report, body, after, h]
  | case7 position c rest hquote hnewline hlast hescape ih =>
    obtain ⟨raw, tail, hbody⟩ := ih
    have hbackslash : c ≠ '\\' := by
      rintro rfl
      cases rest with
      | nil => exact hlast rfl rfl
      | cons d rest => exact hescape d rest rfl rfl
    refine ⟨c :: raw, tail, .plain hquote hnewline hbackslash hbody.unclosed, hbody.ends,
      hbody.passes.cons, ?_⟩
    intro report
    rw [misescaped_plain hbackslash, ← hbody.reports]
    rfl

theorem Misescaped.isPrefix {position : Location} {raw : List Char} {report : Report}
    (h : Misescaped position raw report) :
    ∃ part, part <+: raw ∧ report.position = position.advanceBy part := by
  obtain ⟨before, c, hat, -, rfl⟩ := h
  exact ⟨_, (List.prefix_append_right_inj before |>.2 (by simp)).trans hat.isPrefix, rfl⟩

end Literals

section Lexemes

/-- The lexeme was read from `word`: reading goes on behind it, and what is reported lies in it. -/
structure Lexeme.Takes (one : Lexeme) (r : Reader) (word : List Char) : Prop where
  passes : r.Passes word one.next
  reports : ∀ report ∈ one.reports,
    ∃ part, part <+: word ∧ report.position = r.position.advanceBy part

variable (start : Location) (rest : List Char)

theorem takes_of_passes {one : Lexeme} {r : Reader} {word : List Char}
    (h : r.Passes word one.next) (hnone : one.reports = []) : one.Takes r word :=
  ⟨h, by simp [hnone]⟩

theorem takes_of_report {one : Lexeme} {r : Reader} {word : List Char} {fault : Fault}
    (h : r.Passes word one.next) (hone : one.reports = [⟨r.position, fault⟩]) : one.Takes r word :=
  ⟨h, fun report hreport => ⟨[], List.nil_prefix, by simp_all⟩⟩

theorem stringLexeme_takes :
    ∃ word, (stringLexeme start rest).Takes ⟨start, '"' :: rest⟩ word := by
  obtain ⟨raw, tail, hbody⟩ := stringBody_reads (start.advance '"') rest
  refine ⟨'"' :: (raw ++ tail), hbody.passes.cons, fun report hreport => ?_⟩
  have hinside : report ∈ (stringBody (start.advance '"') rest).reports →
      ∃ part, part <+: '"' :: (raw ++ tail) ∧ report.position = start.advanceBy part := by
    intro hmem
    obtain ⟨part, hpart, hposition⟩ := ((hbody.reports report).1 hmem).isPrefix
    exact ⟨'"' :: part, by simpa using hpart.trans (List.prefix_append _ _), hposition⟩
  simp only [stringLexeme] at hreport
  split at hreport
  · exact hinside hreport
  · rcases List.mem_append.1 hreport with hmem | hmem
    · exact hinside hmem
    · obtain rfl := List.mem_singleton.1 hmem
      exact ⟨[], List.nil_prefix, rfl⟩

theorem wordLexeme_takes (r : Reader) : ∃ word, (wordLexeme r).Takes r word := by
  have hskip := Reader.Passes.skipWhile isNameChar r
  unfold wordLexeme
  dsimp only
  split
  · split
    · rename_i more heq
      have hmark : Reader.Passes (r.skipWhile isNameChar) ['@']
          ⟨(r.skipWhile isNameChar).position.advance '@', more⟩ := ⟨heq, rfl⟩
      exact ⟨_, takes_of_passes (hskip.trans hmark) rfl⟩
    · exact ⟨_, takes_of_passes hskip rfl⟩
  · exact ⟨_, takes_of_passes hskip rfl⟩
  · exact ⟨_, takes_of_passes hskip rfl⟩

theorem hexLexeme_takes (digits : List Char) :
    ∃ word, (hexLexeme start ⟨(start.advance '0').advance 'x', digits⟩).Takes
      ⟨start, '0' :: 'x' :: digits⟩ word := by
  have hskip := (Reader.Passes.skipWhile isHexDigit
    ⟨(start.advance '0').advance 'x', digits⟩).cons.cons
  unfold hexLexeme
  dsimp only
  split
  · exact ⟨_, takes_of_report hskip rfl⟩
  · split
    · exact ⟨_, takes_of_report hskip rfl⟩
    · exact ⟨_, takes_of_passes hskip rfl⟩

theorem decimalLexeme_takes (r : Reader) : ∃ word, (decimalLexeme r).Takes r word := by
  have hskip := Reader.Passes.skipWhile isDigit r
  unfold decimalLexeme
  dsimp only
  split
  · rename_i fraction heq
    have hpoint : Reader.Passes (r.skipWhile isDigit) ['.']
        ⟨(r.skipWhile isDigit).position.advance '.', fraction⟩ := ⟨heq, rfl⟩
    have hall := (hskip.trans hpoint).trans (.skipWhile isDigit _)
    refine ⟨_, hall, fun report hreport => ?_⟩
    split at hreport
    · obtain rfl := List.mem_singleton.1 hreport
      exact ⟨_, List.prefix_rfl, hall.position⟩
    · cases hreport
  · split
    · exact ⟨_, takes_of_passes hskip rfl⟩
    · exact ⟨_, takes_of_report hskip rfl⟩

theorem markLexeme_takes (mark : Punctuator) (c : Char) :
    ∃ word, (markLexeme mark ⟨start.advance c, rest⟩).Takes ⟨start, c :: rest⟩ word := by
  unfold markLexeme
  split
  · exact ⟨[c], takes_of_passes (.cons (.refl _)) rfl⟩
  · rename_i d more heq
    obtain rfl : rest = d :: more := heq
    split
    · exact ⟨[c, d], takes_of_passes (.cons (.cons (.refl _))) rfl⟩
    · exact ⟨[c], takes_of_passes (.cons (.refl _)) rfl⟩

/-- Every lexeme is read from the text that it starts, and from one character at least. -/
theorem lexeme_takes (c : Char) :
    ∃ word, (lexeme start c rest).Takes ⟨start, c :: rest⟩ (c :: word) := by
  have hsome : ∃ word, (lexeme start c rest).Takes ⟨start, c :: rest⟩ word := by
    unfold lexeme
    dsimp only
    split
    · rename_i hquote
      exact hquote ▸ stringLexeme_takes start rest
    · split
      · exact wordLexeme_takes _
      · split
        · split
          · exact hexLexeme_takes start _
          · exact decimalLexeme_takes _
        · split
          · exact markLexeme_takes start rest _ c
          · exact ⟨[c], takes_of_passes (.cons (.refl _)) rfl⟩
  obtain ⟨word, hword⟩ := hsome
  have hrest : c :: rest = word ++ (lexeme start c rest).next.rest := hword.passes.rest
  cases word with
  | nil =>
    have hshorter := lexeme_rest_length_le start c rest
    rw [List.nil_append] at hrest
    rw [← hrest, List.length_cons] at hshorter
    omega
  | cons d word =>
    obtain ⟨rfl, -⟩ := List.cons.inj hrest
    exact ⟨word, hword⟩

end Lexemes

section Blanks

/-- Blanks and comments before `rest`. A comment runs to the end of its line. -/
inductive Skipped (rest : List Char) : List Char → Prop
  | nil : Skipped rest []
  | blank {c : Char} {more : List Char} (hc : Text.isBlank c) :
      Skipped rest more → Skipped rest (c :: more)
  | comment {body more : List Char} (inLine : '\n' ∉ body)
      (lineEnd : ∀ c ∈ (more ++ rest).head?, c = '\n') :
      Skipped rest more → Skipped rest ('#' :: (body ++ more))

/-- Where reading stops, there is a character that is no blank and starts no comment. -/
def Halts (rest : List Char) : Prop := ∀ c ∈ rest.head?, c ≠ '#' ∧ Text.isBlank c = false

/-- What is left of a comment, if reading starts in one: it ends with its line. -/
inductive CommentRest (after : List Char) : Bool → List Char → Prop
  | none : CommentRest after false []
  | some {body : List Char} (inLine : '\n' ∉ body) (lineEnd : ∀ c ∈ after.head?, c = '\n') :
      CommentRest after true body

theorem skipBlank_skipped (comment : Bool) (position : Location) (text : List Char) :
    ∃ body gap, CommentRest (gap ++ (Reader.skipBlank comment position text).rest) comment body ∧
      Skipped (Reader.skipBlank comment position text).rest gap ∧
      Reader.Passes ⟨position, text⟩ (body ++ gap) (Reader.skipBlank comment position text) ∧
      Halts (Reader.skipBlank comment position text).rest := by
  induction text generalizing comment position with
  | nil =>
    refine ⟨[], [], ?_, .nil, .refl _, nofun⟩
    cases comment with
    | false => exact .none
    | true => exact .some nofun nofun
  | cons c text ih =>
    rw [Reader.skipBlank]
    split
    case isTrue hcomment =>
      obtain ⟨body, gap, hbody, hgap, hpasses, hhalts⟩ := ih true (position.advance c)
      cases hbody with | some inLine lineEnd => ?_
      by_cases hstarts : comment = false
      · obtain rfl : c = '#' := hcomment.resolve_right fun h => by simp [hstarts] at h
        rw [hstarts]
        exact ⟨[], _, .none, .comment inLine lineEnd hgap, hpasses.cons, hhalts⟩
      · obtain rfl : comment = true := by simpa using hstarts
        have hc : c ≠ '\n' := hcomment.elim (fun h => by simp [h]) And.right
        exact ⟨c :: body, gap, .some (by simp [inLine, Ne.symm hc]) lineEnd, hgap, hpasses.cons,
          hhalts⟩
    case isFalse hcomment =>
      have hafter : ∀ more, CommentRest (c :: more) comment [] := by
        intro more
        cases comment with
        | false => exact .none
        | true => exact .some nofun (by simpa using fun h => hcomment (.inr ⟨rfl, h⟩))
      split
      case isTrue hblank =>
        obtain ⟨body, gap, ⟨⟩, hgap, hpasses, hhalts⟩ := ih false (position.advance c)
        exact ⟨[], c :: gap, hafter _, .blank hblank hgap, hpasses.cons, hhalts⟩
      case isFalse hblank =>
        have hhalts : Halts (c :: text) := by
          simpa [Halts] using And.intro (fun h => hcomment (.inl h)) hblank
        exact ⟨[], [], hafter _, .nil, .refl _, hhalts⟩

end Blanks

section Tilings

/-- A text behind `before`, as tokens with gaps between them. Each token has a word, which starts
with a character that would end a gap, and what is reported lies in words. -/
inductive Tiling : List Char → List Char → List Token → List Report → Prop
  | done {before gap : List Char} : Skipped [] gap → Tiling before gap [] []
  | token {before gap word rest : List Char} {c : Char} {t : Token} {own : List Report}
      {tokens : List Token} {reports : List Report} :
      Skipped (c :: (word ++ rest)) gap → Halts (c :: (word ++ rest)) →
      t.start = .behind (before ++ gap) → t.stop = .behind (before ++ gap ++ c :: word) →
      (∀ r ∈ own, ∃ part, part <+: c :: word ∧ r.position = .behind (before ++ gap ++ part)) →
      Tiling (before ++ gap ++ c :: word) rest tokens reports →
      Tiling before (gap ++ c :: word ++ rest) (t :: tokens) (own ++ reports)

/-- The text behind `before` starts with a gap and then a lexeme, behind which reading goes on. -/
structure Advance (before text gap : List Char) (c : Char) (word rest : List Char) (one : Lexeme) :
    Prop where
  text_eq : text = gap ++ c :: word ++ rest
  skipped : Skipped (c :: (word ++ rest)) gap
  halts : Halts (c :: (word ++ rest))
  lexeme_eq : lexeme (.behind (before ++ gap)) c (word ++ rest) = one
  takes : one.Takes ⟨.behind (before ++ gap), c :: (word ++ rest)⟩ (c :: word)
  next : one.next = ⟨.behind (before ++ gap ++ c :: word), rest⟩
  readAll_eq : readAll ⟨.behind before, text⟩ =
    (⟨one.kind, .behind (before ++ gap), one.next.position⟩ :: (readAll one.next).1,
      one.reports ++ (readAll one.next).2)

theorem readAll_cases (before text : List Char) :
    (Skipped [] text ∧ readAll ⟨.behind before, text⟩ = ([], [])) ∨
      ∃ gap c word rest one, Advance before text gap c word rest one := by
  obtain ⟨body, gap, ⟨⟩, hgap, hpasses, hhalts⟩ := skipBlank_skipped false (.behind before) text
  rcases hskip : Reader.skipBlank false (.behind before) text with ⟨start, _ | ⟨c, rest⟩⟩
  · rw [hskip] at hgap hpasses
    obtain rfl : text = gap := by simpa using hpasses.rest
    exact .inl ⟨hgap, readAll_of_empty hskip⟩
  · rw [hskip] at hgap hpasses hhalts
    obtain rfl : start = .behind (before ++ gap) :=
      hpasses.position.trans (Location.advanceBy_behind ..)
    obtain ⟨word, hone⟩ := lexeme_takes (.behind (before ++ gap)) rest c
    generalize hlexeme : lexeme (.behind (before ++ gap)) c rest = one at hone
    obtain ⟨kind, own, position, more⟩ := one
    obtain rfl : rest = word ++ more := (List.cons.inj hone.passes.rest).2
    obtain rfl : position = .behind (before ++ gap ++ c :: word) :=
      hone.passes.position.trans (Location.advanceBy_behind ..)
    exact .inr ⟨gap, c, word, more, _, by simpa using hpasses.rest, hgap, hhalts, hlexeme, hone,
      rfl, readAll_of_lexeme hskip hlexeme⟩

theorem readAll_tiling (before text : List Char) :
    Tiling before text (readAll ⟨.behind before, text⟩).1 (readAll ⟨.behind before, text⟩).2 := by
  induction hlength : text.length using Nat.strong_induction_on generalizing before text with
  | _ n ih =>
    rcases readAll_cases before text with ⟨hgap, hread⟩ | ⟨gap, c, word, rest, one, hone⟩
    · rw [hread]
      exact .done hgap
    · obtain rfl := hone.text_eq
      have hshorter : rest.length < n := by simp at hlength; omega
      have hothers := ih rest.length hshorter (before ++ gap ++ c :: word) rest rfl
      rw [hone.readAll_eq, hone.next]
      refine .token hone.skipped hone.halts rfl rfl (fun r hr => ?_) hothers
      obtain ⟨part, hpart, hposition⟩ := hone.takes.reports r hr
      exact ⟨part, hpart, hposition.trans (Location.advanceBy_behind ..)⟩

namespace Tiling

variable {before text : List Char} {tokens : List Token} {reports : List Report}

theorem start_le (h : Tiling before text tokens reports) :
    ∀ t ∈ tokens, (Location.behind before).offset ≤ t.start.offset := by
  induction h with
  | done _ => nofun
  | token _ _ hstart _ _ _ ih =>
    intro t ht
    rcases List.mem_cons.1 ht with rfl | ht
    · exact hstart ▸ Location.offset_le ..
    · rw [List.append_assoc] at ih
      exact (Location.offset_le ..).trans (ih t ht)

theorem word (h : Tiling before text tokens reports) : ∀ t ∈ tokens, ∃ lead c word after,
    before ++ text = lead ++ c :: word ++ after ∧ Text.isBlank c = false ∧
      t.start = .behind lead ∧ t.stop = .behind (lead ++ c :: word) := by
  induction h with
  | done _ => nofun
  | @token before gap word rest c t own tokens reports _ hhalts hstart hstop _ _ ih =>
    intro t ht
    rcases List.mem_cons.1 ht with rfl | ht
    · exact ⟨before ++ gap, c, word, rest, by simp, (hhalts _ rfl).2, hstart, hstop⟩
    · simpa using ih t ht

theorem ordered (h : Tiling before text tokens reports) :
    tokens.Pairwise fun s t => s.stop.offset ≤ t.start.offset := by
  induction h with
  | done _ => exact .nil
  | token _ _ _ hstop _ hothers ih => exact .cons (hstop ▸ hothers.start_le) ih

theorem reported (h : Tiling before text tokens reports) :
    ∀ r ∈ reports, r.position.IsIn (before ++ text) := by
  induction h with
  | done _ => nofun
  | @token before gap word rest c t own tokens reports _ _ _ _ hown _ ih =>
    intro r hr
    rcases List.mem_append.1 hr with hr | hr
    · obtain ⟨part, ⟨more, hpart⟩, hposition⟩ := hown r hr
      exact ⟨_, ⟨more ++ rest, by simp [← hpart]⟩, hposition⟩
    · simpa using ih r hr

end Tiling

theorem Skipped.cases_at {rest gap : List Char} (h : Skipped rest gap) {lead after : List Char}
    {c : Char} (hgap : gap = lead ++ c :: after) :
    Text.isBlank c ∨ ∃ clear body more, gap = clear ++ '#' :: body ++ more ∧ '\n' ∉ body ∧
      (∀ c ∈ (more ++ rest).head?, c = '\n') ∧
      clear.length ≤ lead.length ∧ lead.length < (clear ++ '#' :: body).length := by
  induction h generalizing lead with
  | nil => simp at hgap
  | @blank d gap hd _ ih =>
    cases lead with
    | nil => exact .inl ((List.cons.inj hgap).1 ▸ hd)
    | cons x lead =>
      obtain ⟨rfl, hmore⟩ := List.cons.inj hgap
      refine (ih hmore).imp_right ?_
      rintro ⟨clear, body, more, rfl, hbody, hmore, hlow, hhigh⟩
      exact ⟨d :: clear, body, more, rfl, hbody, hmore, by simpa using hlow, by simpa using hhigh⟩
  | @comment body gap inLine lineEnd _ ih =>
    by_cases hin : lead.length < ('#' :: body).length
    · exact .inr ⟨[], body, gap, rfl, inLine, lineEnd, Nat.zero_le _, hin⟩
    · obtain ⟨lead, rfl⟩ : '#' :: body <+: lead :=
        List.prefix_of_prefix_length_le ⟨gap, rfl⟩ ⟨c :: after, hgap.symm⟩ (Nat.le_of_not_lt hin)
      rw [← List.cons_append, List.append_assoc] at hgap
      refine (ih (List.append_cancel_left hgap)).imp_right ?_
      rintro ⟨clear, inner, more, rfl, hinner, hmore, hlow, hhigh⟩
      refine ⟨'#' :: body ++ clear, inner, more, by simp, hinner, hmore, ?_, ?_⟩
      · simpa using hlow
      · simp at hhigh ⊢
        omega

/-- The character behind `lead` is one of the token. -/
def Covers (t : Token) (lead : List Char) : Prop :=
  t.start.offset ≤ (Location.behind lead).offset ∧ (Location.behind lead).offset < t.stop.offset

/-- No character from `clear` up to the end of `comment` is one of the token. -/
def Avoids (t : Token) (clear comment : List Char) : Prop :=
  t.stop.offset ≤ (Location.behind clear).offset ∨
    (Location.behind (clear ++ comment)).offset ≤ t.start.offset

theorem append_eq_append_cons {s t lead after : List Char} {c : Char}
    (h : s ++ t = lead ++ c :: after) :
    (∃ more, s = lead ++ c :: more ∧ after = more ++ t) ∨
      ∃ left, lead = s ++ left ∧ t = left ++ c :: after := by
  rcases List.append_eq_append_iff.1 h with ⟨left, rfl, rfl⟩ | ⟨more, rfl, hmore⟩
  · exact .inr ⟨left, rfl, rfl⟩
  · cases more with
    | nil => exact .inr ⟨[], by simp, hmore.symm⟩
    | cons d more =>
      obtain ⟨rfl, rfl⟩ := List.cons.inj hmore
      exact .inl ⟨more, rfl, rfl⟩

theorem Tiling.covered {before text : List Char} {tokens : List Token} {reports : List Report}
    (h : Tiling before text tokens reports) {lead after : List Char} {c : Char}
    (htext : text = lead ++ c :: after) :
    (∃ t ∈ tokens, Covers t (before ++ lead)) ∨ Text.isBlank c ∨
      ∃ clear body more, text = clear ++ '#' :: body ++ more ∧ '\n' ∉ body ∧
        (∀ c ∈ more.head?, c = '\n') ∧
        clear.length ≤ lead.length ∧ lead.length < (clear ++ '#' :: body).length ∧
        ∀ t ∈ tokens, Avoids t (before ++ clear) ('#' :: body) := by
  induction h generalizing lead with
  | done hgap =>
    refine .inr ((hgap.cases_at htext).imp_right ?_)
    rintro ⟨clear, body, more, rfl, hbody, hmore, hlow, hhigh⟩
    exact ⟨clear, body, more, rfl, hbody, by simpa using hmore, hlow, hhigh, nofun⟩
  | @token before gap word rest d t own tokens reports hgap _ hstart hstop _ hothers ih =>
    rw [List.append_assoc] at htext
    rcases append_eq_append_cons htext with ⟨_, hlead, rfl⟩ | ⟨left, rfl, hword⟩
    · -- In the gap before the first token.
      refine .inr ((hgap.cases_at hlead).imp_right ?_)
      rintro ⟨clear, body, more, rfl, hbody, hmore, hlow, hhigh⟩
      refine ⟨clear, body, more ++ (d :: word ++ rest), by simp, hbody, by simpa using hmore, hlow,
        hhigh, fun s hs => .inr ?_⟩
      have hclear : (Location.behind (before ++ clear ++ '#' :: body)).offset ≤ t.start.offset := by
        rw [hstart, ← List.append_assoc, ← List.append_assoc]
        exact Location.offset_le ..
      rcases List.mem_cons.1 hs with rfl | hs
      · exact hclear
      · have hlater := hothers.start_le s hs
        have hfirst : t.start.offset ≤ t.stop.offset := by
          rw [hstart, hstop]
          exact Location.offset_le ..
        rw [← hstop] at hlater
        omega
    · rcases append_eq_append_cons hword with ⟨more, hin, rfl⟩ | ⟨left, rfl, rfl⟩
      · refine .inl ⟨t, List.mem_cons_self, ?_, ?_⟩
        · rw [hstart, ← List.append_assoc]
          exact Location.offset_le ..
        · rw [hstop, hin, ← List.append_assoc, ← List.append_assoc]
          exact Location.offset_lt _ (by simp)
      · rcases ih rfl with ⟨s, hs, hcovers⟩ | hblank |
          ⟨clear, body, more, hclear, hbody, hmore, hlow, hhigh, havoids⟩
        · exact .inl ⟨s, List.mem_cons_of_mem _ hs, by simpa using hcovers⟩
        · exact .inr (.inl hblank)
        · refine .inr (.inr ⟨gap ++ d :: word ++ clear, body, more, by simp [hclear], hbody, hmore,
            ?_, ?_, fun s hs => ?_⟩)
          · simp only [List.length_append] at hlow ⊢
            omega
          · simp only [List.length_append] at hhigh ⊢
            omega
          · rw [← List.append_assoc, ← List.append_assoc]
            rcases List.mem_cons.1 hs with rfl | hs
            · exact .inl (hstop ▸ Location.offset_le ..)
            · exact havoids s hs

end Tilings

/-- The character behind `lead` lies in a comment of the text: from a `#` up to the end of its line,
with no token in it. -/
def InComment (text lead : List Char) (tokens : List Token) : Prop :=
  ∃ clear body more, text = clear ++ '#' :: body ++ more ∧ '\n' ∉ body ∧
    (∀ c ∈ more.head?, c = '\n') ∧
    clear.length ≤ lead.length ∧ lead.length < (clear ++ '#' :: body).length ∧
    ∀ t ∈ tokens, Avoids t clear ('#' :: body)

/-- Where the tokens and the reports of a source stand. -/
structure Tiles (source : String) (tokens : List Token) (reports : List Report) : Prop where
  nonempty : ∀ t ∈ tokens, t.start.offset < t.stop.offset
  within : ∀ t ∈ tokens, t.start.IsIn source.toList ∧ t.stop.IsIn source.toList
  ordered : tokens.Pairwise fun s t => s.stop.offset ≤ t.start.offset
  reported : ∀ r ∈ reports, r.position.IsIn source.toList
  covered : ∀ lead c after, source.toList = lead ++ c :: after →
    (∃ t ∈ tokens, Covers t lead) ∨ Text.isBlank c ∨ InComment source.toList lead tokens
  shown : ∀ t ∈ tokens, ∃ lead c after line, source.toList = lead ++ c :: after ∧
    t.start = .behind lead ∧ Source.lineOf? source t.span = some line ∧
      line.toList[t.start.column]? = some c

/-- Tokens and what lies between them make up the source, each at its exact place. -/
theorem lex_tiles (source : String) : Tiles source (lex source).1 (lex source).2 := by
  have htiling : Tiling [] source.toList (lex source).1 (lex source).2 := by
    have := readAll_tiling [] source.toList
    rwa [Location.behind_nil] at this
  constructor
  case nonempty =>
    intro t ht
    obtain ⟨lead, c, word, after, -, -, hstart, hstop⟩ := htiling.word t ht
    rw [hstart, hstop]
    exact Location.offset_lt _ (by simp)
  case within =>
    intro t ht
    obtain ⟨lead, c, word, after, hall, -, hstart, hstop⟩ := htiling.word t ht
    rw [List.nil_append, List.append_assoc] at hall
    exact ⟨⟨lead, ⟨_, hall.symm⟩, hstart⟩, ⟨_, ⟨after, by rw [hall, List.append_assoc]⟩, hstop⟩⟩
  case ordered => exact htiling.ordered
  case reported => exact htiling.reported
  case covered =>
    intro lead c after hsource
    exact htiling.covered hsource
  case shown =>
    intro t ht
    obtain ⟨lead, c, word, after, hall, hblank, hstart, -⟩ := htiling.word t ht
    rw [List.nil_append, List.append_assoc] at hall
    have hline : c ≠ '\n' := by
      rintro rfl
      cases hblank
    have hreturn : c ≠ '\r' := by
      rintro rfl
      cases hblank
    have hspan : t.span.start = _ := hstart
    obtain ⟨line, hshown, hget⟩ := Source.lineOf?_get hall hline hreturn hspan
    exact ⟨lead, c, word ++ after, line, hall, hstart, hshown, hget⟩

end RegionCompiler.Token
