import Mathlib
import RegionCompiler.Token.Lexer

/-! Tokens that are written with a space between them are read back as they were. Each token has a
spelling that reading takes up to the next space, and no fault is met in it. -/
namespace RegionCompiler

/-- The greatest decimal integer is that of a signed word; digits bound a hexadecimal one. -/
def IntegerLiteral.isSpellable (n : IntegerLiteral) : Bool :=
  match n.radix with
  | .decimal => n.value.toNat < 2 ^ 63
  | .hexadecimal digits => 1 ≤ digits && digits ≤ 16 && n.value.toNat < 16 ^ digits

namespace Token

/-- How a character stands in a string literal. -/
def escaped : Char → List Char
  | '"' => ['\\', '"']
  | '\\' => ['\\', '\\']
  | '\n' => ['\\', 'n']
  | '\r' => ['\\', 'r']
  | '\t' => ['\\', 't']
  | '\x00' => ['\\', '0']
  | c => [c]

/-- As the text of a token, except that a string literal escapes only what it must. -/
def Kind.spelling : Kind → String
  | .string value => String.ofList ('"' :: (value.toList.flatMap escaped ++ ['"']))
  | kind => kind.text

/-- A letter, and letters and digits behind it. -/
def isWord (name : String) : Bool :=
  match name.toList with
  | [] => false
  | c :: rest => isLetter c && rest.all isNameChar

/-- The tokens that a text can give without a fault, floating-point numbers apart. -/
def Kind.isSpellable : Kind → Bool
  | .keyword _ | .punctuator _ | .string _ => true
  | .identifier name => isWord name && Keyword.all.all (·.text != name)
  | .integer literal => literal.isSpellable
  | .float _ | .illegal _ => false

def render (kinds : List Kind) : String :=
  " ".intercalate (kinds.map Kind.spelling)

/-- What may follow a spelling. -/
inductive Separated : List Char → Prop
  | nil : Separated []
  | space (more : List Char) : Separated (' ' :: more)

/-- The text is read as one token, whatever follows it in the given form. -/
def SpellsBefore (follows : List Char → Prop) (text : List Char) (kind : Kind) : Prop :=
  ∃ c rest, text = c :: rest ∧ c ≠ '#' ∧ Text.isBlank c = false ∧
    ∀ start suffix, follows suffix →
      ∃ stop, lexeme start c (rest ++ suffix) = ⟨kind, [], ⟨stop, suffix⟩⟩

/-- The text is read as one token, up to the space behind it. -/
def Spells (text : List Char) (kind : Kind) : Prop := SpellsBefore Separated text kind

theorem isDigit_iff {c : Char} : isDigit c ↔ 48 ≤ c.toNat ∧ c.toNat ≤ 57 := by
  simp only [isDigit, Bool.and_eq_true, decide_eq_true_eq, Char.le_def, UInt32.le_iff_toNat_le]
  rfl

theorem isLetter_iff {c : Char} : isLetter c ↔
    (97 ≤ c.toNat ∧ c.toNat ≤ 122 ∨ 65 ≤ c.toNat ∧ c.toNat ≤ 90) ∨ c.toNat = 95 := by
  have hunderscore : c = '_' ↔ c.toNat = 95 := Char.toNat_inj.symm
  simp only [isLetter, Bool.or_eq_true, Bool.and_eq_true, decide_eq_true_eq, beq_iff_eq,
    hunderscore, Char.le_def, UInt32.le_iff_toNat_le]
  rfl

theorem isNameChar_bounds {c : Char} (h : isNameChar c) : 48 ≤ c.toNat ∧ c.toNat ≤ 122 := by
  rcases Bool.or_eq_true _ _ ▸ h with h | h
  · have := isLetter_iff.1 h
    omega
  · have := isDigit_iff.1 h
    omega

/-- No name or number starts with a blank, or with the mark of a comment. -/
theorem not_blank_of_isNameChar {c : Char} (h : isNameChar c) :
    c ≠ '#' ∧ Text.isBlank c = false := by
  obtain ⟨hlow, hhigh⟩ := isNameChar_bounds h
  constructor
  · rintro rfl
    exact absurd hlow (by decide)
  · simp only [Text.isBlank, Bool.or_eq_false_iff, Bool.and_eq_false_iff, decide_eq_false_iff_not,
      beq_eq_false_iff_ne]
    omega

/-- No name goes on with this text, and no number. -/
def Breaks (suffix : List Char) : Prop := ∀ c ∈ suffix.head?, isNameChar c = false ∧ c ≠ '.'

theorem Separated.breaks {suffix : List Char} (h : Separated suffix) : Breaks suffix := by
  cases h with
  | nil => exact nofun
  | space more =>
    rintro c ⟨rfl⟩
    decide

theorem SpellsBefore.separated {text : List Char} {kind : Kind}
    (h : SpellsBefore Breaks text kind) :
    Spells text kind := by
  obtain ⟨c, rest, htext, hhash, hblank, hread⟩ := h
  exact ⟨c, rest, htext, hhash, hblank, fun start suffix hsuffix =>
    hread start suffix hsuffix.breaks⟩

theorem span_of_stop {p : Char → Bool} {text suffix : List Char} (htext : ∀ c ∈ text, p c)
    (hstop : ∀ c ∈ suffix.head?, p c = false) :
    (text ++ suffix).takeWhile p = text ∧ (text ++ suffix).dropWhile p = suffix := by
  rw [List.takeWhile_append_of_pos htext, List.dropWhile_append_of_pos htext]
  cases suffix with
  | nil => simp
  | cons c more => simp [hstop c rfl]

theorem span_of_separated {p : Char → Bool} (hp : p ' ' = false) {text suffix : List Char}
    (htext : ∀ c ∈ text, p c) (hsuffix : Separated suffix) :
    (text ++ suffix).takeWhile p = text ∧ (text ++ suffix).dropWhile p = suffix := by
  refine span_of_stop htext fun c hc => ?_
  cases hsuffix with
  | nil => cases hc
  | space more =>
    cases hc
    exact hp

section Words

theorem ne_quote_of_isNameChar {c : Char} (h : isNameChar c) : c ≠ '"' := by
  rintro rfl
  exact absurd h (by decide)

def wordKind (word : String) : Kind :=
  match Keyword.ofText? word with
  | some keyword => .keyword keyword
  | none => .identifier word

theorem lexeme_word {word : String} (h : isWord word) : ∃ c rest, word.toList = c :: rest ∧
    c ≠ '#' ∧ Text.isBlank c = false ∧ ∀ start suffix, Breaks suffix →
      lexeme start c (rest ++ suffix) = wordLexeme ⟨start, word.toList ++ suffix⟩ ∧
      (word.toList ++ suffix).takeWhile isNameChar = word.toList ∧
      (word.toList ++ suffix).dropWhile isNameChar = suffix := by
  unfold isWord at h
  split at h
  case h_1 => cases h
  case h_2 c rest hword =>
    obtain ⟨hc, hrest⟩ := Bool.and_eq_true _ _ ▸ h
    have hname : isNameChar c := by simp [isNameChar, hc]
    have hall : ∀ d ∈ word.toList, isNameChar d := by simpa [hword, hname] using hrest
    obtain ⟨hhash, hblank⟩ := not_blank_of_isNameChar hname
    refine ⟨c, rest, hword, hhash, hblank, fun start suffix hsuffix => ⟨?_, ?_⟩⟩
    · simp [lexeme, ne_quote_of_isNameChar hname, hc, hword]
    · exact span_of_stop hall fun d hd => (hsuffix d hd).1

theorem spells_word {word : String} (h : isWord word) : Spells word.toList (wordKind word) := by
  obtain ⟨c, rest, hword, hhash, hblank, hlexeme⟩ := lexeme_word h
  refine ⟨c, rest, hword, hhash, hblank, fun start suffix hsuffix => ?_⟩
  obtain ⟨hone, htake, hdrop⟩ := hlexeme start suffix hsuffix.breaks
  rw [hone, wordLexeme, wordKind]
  simp only [Reader.skipWhile, htake, hdrop, String.ofList_toList]
  split
  case h_1 heq =>
    rw [heq]
    cases hsuffix <;> exact ⟨_, rfl⟩
  case h_2 heq =>
    rw [heq]
    exact ⟨_, rfl⟩
  case h_3 heq =>
    rw [heq]
    exact ⟨_, rfl⟩

theorem identifier_before_break {name : String} (h : (Kind.identifier name).isSpellable) :
    SpellsBefore Breaks name.toList (.identifier name) := by
  obtain ⟨hname, hword⟩ := Bool.and_eq_true _ _ ▸ h
  have hnone : Keyword.ofText? name = none := by simpa [Keyword.ofText?] using hword
  obtain ⟨c, rest, htext, hhash, hblank, hlexeme⟩ := lexeme_word hname
  refine ⟨c, rest, htext, hhash, hblank, fun start suffix hsuffix => ?_⟩
  obtain ⟨hone, htake, hdrop⟩ := hlexeme start suffix hsuffix
  rw [hone, wordLexeme]
  simp only [Reader.skipWhile, htake, hdrop, String.ofList_toList, hnone]
  exact ⟨_, rfl⟩

theorem spells_identifier {name : String} (h : (Kind.identifier name).isSpellable) :
    Spells name.toList (.identifier name) :=
  (identifier_before_break h).separated

theorem ofText?_text (word : Keyword) : Keyword.ofText? word.text = some word := by
  cases word <;> decide

theorem text_isWord {word : Keyword} (hword : word ≠ .letAlloc) : isWord word.text := by
  cases word <;> first | exact absurd rfl hword | rfl

theorem spells_keyword (word : Keyword) : Spells word.text.toList (.keyword word) := by
  by_cases hword : word = .letAlloc
  · -- The only keyword that holds a mark.
    subst hword
    exact ⟨'l', ['e', 't', '@'], rfl, by decide, by decide, fun start suffix _ => ⟨_, rfl⟩⟩
  · have hkind : wordKind word.text = .keyword word := by rw [wordKind, ofText?_text]
    exact hkind ▸ spells_word (text_isWord hword)

end Words

theorem spells_punctuator (mark : Punctuator) : Spells mark.text.toList (.punctuator mark) := by
  have hsimple {first : Char} {rest : List Char} (htext : mark.text.toList = first :: rest)
      (hhash : first ≠ '#') (hblank : Text.isBlank first = false)
      (hnil : ∀ start, ∃ stop, lexeme start first rest = ⟨.punctuator mark, [], ⟨stop, []⟩⟩)
      (hspace : ∀ start more, ∃ stop, lexeme start first (rest ++ ' ' :: more) =
        ⟨.punctuator mark, [], ⟨stop, ' ' :: more⟩⟩) :
      Spells mark.text.toList (.punctuator mark) := by
    refine ⟨first, rest, htext, hhash, hblank, fun start suffix hsuffix => ?_⟩
    cases hsuffix with
    | nil => simpa using hnil start
    | space more => exact hspace start more
  cases mark <;>
    exact hsimple rfl (by decide) (by decide) (fun _ => ⟨_, rfl⟩) fun _ _ => ⟨_, rfl⟩

/-- A character stands for itself unless it would end the literal or start an escape. -/
theorem escaped_cases (c : Char) :
    (∃ e, escaped c = ['\\', e] ∧ escape? e = some c) ∨
      escaped c = [c] ∧ c ≠ '"' ∧ c ≠ '\n' ∧ c ≠ '\\' := by
  unfold escaped
  split
  case h_7 hquote hslash hline hreturn htab hzero => exact .inr ⟨rfl, hquote, hline, hslash⟩
  all_goals exact .inl ⟨_, rfl, rfl⟩

theorem stringBody_escaped (position : Location) (value suffix : List Char) :
    ∃ stop, stringBody position (value.flatMap escaped ++ '"' :: suffix) =
      ⟨value, true, [], ⟨stop, suffix⟩⟩ := by
  induction value generalizing position with
  | nil => exact ⟨_, rfl⟩
  | cons c rest ih =>
    rw [List.flatMap_cons, List.append_assoc]
    rcases escaped_cases c with ⟨e, hescaped, he⟩ | ⟨hescaped, hquote, hline, hslash⟩
    · obtain ⟨stop, hstop⟩ := ih ((position.advance '\\').advance e)
      refine ⟨stop, ?_⟩
      simp only [hescaped, List.cons_append, List.nil_append, stringBody, he, hstop]
      rfl
    · obtain ⟨stop, hstop⟩ := ih (position.advance c)
      refine ⟨stop, ?_⟩
      rw [hescaped, List.singleton_append, stringBody, hstop]
      · rfl
      · exact hquote
      · exact hline
      · exact fun h _ => hslash h
      · exact fun _ _ h _ => hslash h

theorem spells_string (value : String) :
    Spells (Kind.string value).spelling.toList (.string value) := by
  refine ⟨'"', value.toList.flatMap escaped ++ ['"'], String.toList_ofList, by decide, by decide,
    fun start suffix _ => ?_⟩
  obtain ⟨stop, hbody⟩ := stringBody_escaped (start.advance '"') value.toList suffix
  refine ⟨stop, ?_⟩
  rw [List.append_assoc, List.singleton_append]
  simp [lexeme, stringLexeme, hbody, String.ofList_toList]

section Numbers

theorem isNameChar_of_isDigit {c : Char} (h : isDigit c) : isNameChar c := by
  simp [isNameChar, h]

theorem not_isLetter_of_isDigit {c : Char} (h : isDigit c) : isLetter c = false := by
  refine Bool.eq_false_iff.2 fun hletter => ?_
  have := isDigit_iff.1 h
  have := isLetter_iff.1 hletter
  omega

theorem lexeme_digits (start : Location) {c : Char} {rest suffix : List Char} (hc : isDigit c)
    (hrest : ∀ d ∈ rest, isDigit d) (hsuffix : Breaks suffix) :
    lexeme start c (rest ++ suffix) = decimalLexeme ⟨start, c :: (rest ++ suffix)⟩ := by
  have hquote : c ≠ '"' := ne_quote_of_isNameChar (isNameChar_of_isDigit hc)
  have hx : ∀ more, rest ++ suffix ≠ 'x' :: more := by
    intro more h
    cases rest with
    | nil =>
      have hname := (hsuffix 'x' (by simp [show suffix = _ from h])).1
      exact absurd hname (by decide)
    | cons d rest =>
      obtain ⟨rfl, -⟩ := List.cons.inj h
      exact absurd (hrest 'x' List.mem_cons_self) (by decide)
  simp only [lexeme, hquote, not_isLetter_of_isDigit hc, hc, if_true, if_false, Bool.false_eq_true]
  split
  case h_1 heq => exact absurd heq (hx _)
  case h_2 => rfl

theorem isDigit_of_mem_toDigits {n : Nat} {c : Char} (h : c ∈ Nat.toDigits 10 n) : isDigit c := by
  have := Nat.isDigit_of_mem_toDigits (by decide) (by decide) h
  simpa [isDigit, Char.isDigit, Char.le_def] using this

theorem natOfDecimal_toDigits (n : Nat) : natOfDecimal (Nat.toDigits 10 n) = n :=
  Nat.ofDigitChars_toDigits (by decide) (by decide)

theorem decimal_before_break {value : UInt64} (h : value.toNat < 2 ^ 63) :
    SpellsBefore Breaks (IntegerLiteral.mk value .decimal).text.toList
      (.integer ⟨value, .decimal⟩) := by
  have htext : (IntegerLiteral.mk value .decimal).text.toList = Nat.toDigits 10 value.toNat :=
    Nat.toList_repr
  have hall : ∀ d ∈ Nat.toDigits 10 value.toNat, isDigit d := fun _ => isDigit_of_mem_toDigits
  have hvalue := natOfDecimal_toDigits value.toNat
  rw [htext]
  cases hdigits : Nat.toDigits 10 value.toNat with
  | nil => exact absurd hdigits Nat.toDigits_ne_nil
  | cons c rest =>
    rw [hdigits] at hall hvalue
    obtain ⟨hc, hrest⟩ := List.forall_mem_cons.1 hall
    obtain ⟨hhash, hblank⟩ := not_blank_of_isNameChar (isNameChar_of_isDigit hc)
    refine ⟨c, rest, rfl, hhash, hblank, fun start suffix hsuffix => ?_⟩
    have hstop : ∀ d ∈ suffix.head?, isDigit d = false := by
      intro d hd
      exact Bool.eq_false_iff.2 fun hdigit =>
        Bool.eq_false_iff.1 (hsuffix d hd).1 (isNameChar_of_isDigit hdigit)
    obtain ⟨htake, hdrop⟩ := span_of_stop hall hstop
    rw [List.cons_append] at htake hdrop
    rw [lexeme_digits start hc hrest hsuffix]
    have hsmall : value.toNat < 0x8000000000000000 := h
    simp only [decimalLexeme, Reader.skipWhile, htake, hdrop, hvalue, UInt64.ofNat_toNat,
      if_pos hsmall]
    split
    · exact absurd rfl (hsuffix '.' rfl).2
    · exact ⟨_, rfl⟩

theorem spells_decimal {value : UInt64} (h : value.toNat < 2 ^ 63) :
    Spells (IntegerLiteral.mk value .decimal).text.toList (.integer ⟨value, .decimal⟩) :=
  (decimal_before_break h).separated

theorem isHexDigit_digitChar {k : Nat} (h : k < 16) :
    isHexDigit k.digitChar ∧ hexValue k.digitChar = k := by
  revert k
  decide

theorem natOfHex_concat (digits : List Char) (c : Char) :
    natOfHex (digits ++ [c]) = 16 * natOfHex digits + hexValue c := by
  simp [natOfHex]

theorem natOfHex_zeros (n : Nat) (digits : List Char) :
    natOfHex (List.replicate n '0' ++ digits) = natOfHex digits := by
  induction n with
  | zero => rfl
  | succ n ih =>
    rw [List.replicate_succ, List.cons_append]
    exact ih

theorem toDigits_hex (n : Nat) :
    (∀ c ∈ Nat.toDigits 16 n, isHexDigit c) ∧ natOfHex (Nat.toDigits 16 n) = n := by
  induction n using Nat.strong_induction_on with
  | _ n ih =>
    by_cases hn : n < 16
    · obtain ⟨hdigit, hvalue⟩ := isHexDigit_digitChar hn
      rw [Nat.toDigits_of_lt_base hn]
      exact ⟨by simpa using hdigit, by simpa [natOfHex] using hvalue⟩
    · obtain ⟨hdigits, hvalue⟩ := ih (n / 16) (by omega)
      obtain ⟨hlast, hlastValue⟩ := isHexDigit_digitChar (Nat.mod_lt n (by decide : 16 > 0))
      rw [Nat.toDigits_of_base_le (by decide) (Nat.le_of_not_lt hn)]
      refine ⟨fun c hc => ?_, ?_⟩
      · rcases List.mem_append.1 hc with hc | hc
        · exact hdigits c hc
        · exact List.mem_singleton.1 hc ▸ hlast
      · rw [natOfHex_concat, hvalue, hlastValue]
        omega

theorem spells_hexadecimal {value : UInt64} {digits : Nat} (hpos : 1 ≤ digits) (hmax : digits ≤ 16)
    (h : value.toNat < 16 ^ digits) :
    Spells (IntegerLiteral.mk value (.hexadecimal digits)).text.toList
      (.integer ⟨value, .hexadecimal digits⟩) := by
  obtain ⟨hshown, hvalue⟩ := toDigits_hex value.toNat
  have hlength : (Nat.toDigits 16 value.toNat).length ≤ digits :=
    (Nat.length_toDigits_le_iff (by decide) hpos).2 h
  obtain ⟨written, hwritten⟩ : ∃ written, written =
      List.replicate (digits - (Nat.toDigits 16 value.toNat).length) '0' ++
        Nat.toDigits 16 value.toNat := ⟨_, rfl⟩
  have hall : ∀ c ∈ written, isHexDigit c := by
    intro c hc
    rcases List.mem_append.1 (hwritten ▸ hc) with hc | hc
    · rw [List.eq_of_mem_replicate hc]
      decide
    · exact hshown c hc
  have hcount : written.length = digits := by
    rw [hwritten, List.length_append, List.length_replicate]
    omega
  have hnumber : natOfHex written = value.toNat := by rw [hwritten, natOfHex_zeros, hvalue]
  have htext :
      (IntegerLiteral.mk value (.hexadecimal digits)).text.toList = '0' :: 'x' :: written := by
    simp [IntegerLiteral.text, hwritten]
  refine ⟨'0', 'x' :: written, htext, by decide, by decide, fun start suffix hsuffix => ?_⟩
  obtain ⟨htake, hdrop⟩ := span_of_separated (by decide) hall hsuffix
  have hlexeme : lexeme start '0' ('x' :: written ++ suffix) =
      hexLexeme start ⟨(start.advance '0').advance 'x', written ++ suffix⟩ := rfl
  have hsome : ¬ digits = 0 := by omega
  have hbound : ¬ 16 < digits := by omega
  rw [hlexeme, hexLexeme]
  simp only [Reader.skipWhile, htake, hdrop, hcount, if_neg hsome, if_neg hbound, hnumber,
    UInt64.ofNat_toNat, Nat.max_eq_left hpos]
  exact ⟨_, rfl⟩

end Numbers

theorem spells_spelling {kind : Kind} (h : kind.isSpellable) :
    Spells kind.spelling.toList kind := by
  cases kind with
  | keyword word => exact spells_keyword word
  | identifier name => exact spells_identifier h
  | string value => exact spells_string value
  | integer literal =>
    obtain ⟨value, radix⟩ := literal
    cases radix with
    | decimal => exact spells_decimal (of_decide_eq_true h)
    | hexadecimal digits =>
      have hbounds : (1 ≤ digits ∧ digits ≤ 16) ∧ value.toNat < 16 ^ digits := by
        simpa [Kind.isSpellable, IntegerLiteral.isSpellable] using h
      exact spells_hexadecimal hbounds.1.1 hbounds.1.2 hbounds.2
  | punctuator mark => exact spells_punctuator mark
  | float bits => cases h
  | illegal c => cases h

section Texts

theorem readAll_of_empty {r : Reader} {start : Location}
    (h : Reader.skipBlank false r.position r.rest = ⟨start, []⟩) : readAll r = ([], []) := by
  rw [readAll]
  split
  case h_1 => rfl
  case h_2 heq => cases h.symm.trans heq

theorem readAll_of_lexeme {r : Reader} {start : Location} {c : Char} {rest : List Char}
    (h : Reader.skipBlank false r.position r.rest = ⟨start, c :: rest⟩) {one : Lexeme}
    (hone : lexeme start c rest = one) :
    readAll r = (⟨one.kind, start, one.next.position⟩ :: (readAll one.next).1,
      one.reports ++ (readAll one.next).2) := by
  subst hone
  rw [readAll]
  split
  case h_1 heq => cases h.symm.trans heq
  case h_2 heq =>
    obtain ⟨rfl, hrest⟩ := Reader.mk.inj (h.symm.trans heq)
    obtain ⟨rfl, rfl⟩ := List.cons.inj hrest
    rfl

/-- Blanks make no difference but in where the tokens stand. -/
theorem readAll_space (position : Location) (text : List Char) :
    readAll ⟨position, ' ' :: text⟩ = readAll ⟨position.advance ' ', text⟩ := by
  have hskip : Reader.skipBlank false position (' ' :: text) =
      Reader.skipBlank false (position.advance ' ') text := by
    simp [Reader.skipBlank, show Text.isBlank ' ' = true from rfl]
  rcases hnext : Reader.skipBlank false (position.advance ' ') text with ⟨start, _ | ⟨c, rest⟩⟩
  · exact (readAll_of_empty (hskip.trans hnext)).trans (readAll_of_empty hnext).symm
  · exact (readAll_of_lexeme (hskip.trans hnext) rfl).trans (readAll_of_lexeme hnext rfl).symm

theorem readAll_before {follows : List Char → Prop} {text : List Char} {kind : Kind}
    (h : SpellsBefore follows text kind) (position : Location) {suffix : List Char}
    (hsuffix : follows suffix) :
    ∃ stop, readAll ⟨position, text ++ suffix⟩ =
      (⟨kind, position, stop⟩ :: (readAll ⟨stop, suffix⟩).1, (readAll ⟨stop, suffix⟩).2) := by
  obtain ⟨c, rest, rfl, hhash, hblank, hlexeme⟩ := h
  obtain ⟨stop, hone⟩ := hlexeme position suffix hsuffix
  have hskip : Reader.skipBlank false position (c :: (rest ++ suffix)) =
      ⟨position, c :: (rest ++ suffix)⟩ := by
    simp [Reader.skipBlank, hhash, hblank]
  exact ⟨stop, readAll_of_lexeme hskip hone⟩

theorem render_singleton (kind : Kind) : (render [kind]).toList = kind.spelling.toList := by
  simp [render]

theorem render_cons_cons (kind next : Kind) (others : List Kind) :
    (render (kind :: next :: others)).toList =
      kind.spelling.toList ++ ' ' :: (render (next :: others)).toList := by
  simp [render, String.toList_intercalate, List.intercalate]

theorem readAll_render (kinds : List Kind) (h : ∀ kind ∈ kinds, kind.isSpellable)
    (position : Location) :
    (readAll ⟨position, (render kinds).toList⟩).1.map Token.kind = kinds ∧
      (readAll ⟨position, (render kinds).toList⟩).2 = [] := by
  induction kinds generalizing position with
  | nil =>
    rw [show (render []).toList = [] from rfl, readAll_of_empty rfl]
    exact ⟨rfl, rfl⟩
  | cons kind others ih =>
    obtain ⟨hkind, hothers⟩ := List.forall_mem_cons.1 h
    have hspells := spells_spelling hkind
    cases others with
    | nil =>
      obtain ⟨stop, hread⟩ := readAll_before hspells position .nil
      rw [render_singleton, ← List.append_nil kind.spelling.toList, hread, readAll_of_empty rfl]
      exact ⟨rfl, rfl⟩
    | cons next others =>
      obtain ⟨stop, hread⟩ :=
        readAll_before hspells position (.space (render (next :: others)).toList)
      obtain ⟨hkinds, hreports⟩ := ih hothers (stop.advance ' ')
      rw [render_cons_cons, hread, readAll_space, List.map_cons, hkinds]
      exact ⟨rfl, hreports⟩

end Texts

/-- Lexing undoes rendering. -/
theorem lex_render (kinds : List Kind) (h : ∀ kind ∈ kinds, kind.isSpellable) :
    (lex (render kinds)).1.map Token.kind = kinds ∧ (lex (render kinds)).2 = [] :=
  readAll_render kinds h Location.origin

theorem lex_render_let :
    let kinds : List Kind := [.keyword .let_, .identifier "letter", .punctuator .arrow,
      .integer ⟨10, .decimal⟩, .integer ⟨0x0f, .hexadecimal 3⟩, .string "a\"\n\x00 é",
      .keyword .letAlloc]
    (∀ kind ∈ kinds, kind.isSpellable) ∧
      (lex (render kinds)).1.map Token.kind = kinds ∧ (lex (render kinds)).2 = [] := by
  intro kinds
  have h : ∀ kind ∈ kinds, kind.isSpellable := List.all_eq_true.1 rfl
  exact ⟨h, lex_render kinds h⟩

end Token

end RegionCompiler
