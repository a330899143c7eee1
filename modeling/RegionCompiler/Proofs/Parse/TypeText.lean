import RegionCompiler.Proofs.Parse.Complete.Expr
import RegionCompiler.Proofs.Parse.Reading
import RegionCompiler.Proofs.Parse.Render
import RegionCompiler.Proofs.Spelling

/-! Types are shown as they are written. The text of a type is read back as the same type, and what
was read as a type is shown as it stood there, blanks apart. -/
namespace RegionCompiler

open Token (Kind)

/-- A name that is no keyword, under pointers and arrays whose lengths are signed words. -/
def Ty.IsWritten : Ty → Prop
  | .base name => (Kind.identifier name).isSpellable
  | .pointer t | .array t .dynamic => t.IsWritten
  | .array t (.fixed n) => t.IsWritten ∧ n < 2 ^ 63
  | .invalid | .function _ _ _ _ => False

theorem Ty.IsWritten.writable : ∀ {t : Ty}, t.IsWritten → t.Writable
  | .base _, _ => trivial
  | .pointer t, h => writable (t := t) h
  | .array t .dynamic, h => writable (t := t) h
  | .array _ (.fixed _), ⟨ht, hn⟩ => ⟨writable ht, hn.trans (by decide)⟩

namespace Token

def Kind.isHexadecimal : Kind → Bool
  | .integer ⟨_, .hexadecimal _⟩ => true
  | _ => false

/-- Reading takes a text as these tokens, without a fault, if such a suffix follows. -/
def Lexes (text : List Char) (kinds : List Kind) (suffix : List Char) : Prop :=
  ∀ position, ∃ stop,
    (readAll ⟨position, text ++ suffix⟩).1.map Token.kind =
      kinds ++ (readAll ⟨stop, suffix⟩).1.map Token.kind ∧
    (readAll ⟨position, text ++ suffix⟩).2 = (readAll ⟨stop, suffix⟩).2

section Lexes

variable {text more suffix : List Char} {kinds others : List Kind} {kind : Kind}

theorem Lexes.append (h : Lexes text kinds (more ++ suffix)) (h' : Lexes more others suffix) :
    Lexes (text ++ more) (kinds ++ others) suffix := by
  intro position
  obtain ⟨middle, hkinds, hreports⟩ := h position
  obtain ⟨stop, hothers, hreports'⟩ := h' middle
  rw [List.append_assoc, hkinds, hreports, hothers, hreports', ← List.append_assoc]
  exact ⟨stop, rfl, rfl⟩

theorem SpellsBefore.lexes {follows : List Char → Prop} (h : SpellsBefore follows text kind)
    (hsuffix : follows suffix) : Lexes text [kind] suffix := by
  intro position
  obtain ⟨stop, hread⟩ := readAll_before h position hsuffix
  rw [hread]
  exact ⟨stop, rfl, rfl⟩

/-- Marks that start no longer one are taken alone. -/
theorem lexes_mark (mark : Punctuator)
    (hmark : mark = .atSign ∨ mark = .leftBracket ∨ mark = .rightBracket) :
    Lexes mark.text.toList [.punctuator mark] suffix := by
  have hspells : SpellsBefore (fun _ => True) mark.text.toList (.punctuator mark) := by
    rcases hmark with rfl | rfl | rfl <;>
      exact ⟨_, [], rfl, by decide, by decide,
        fun start suffix _ => by cases suffix <;> exact ⟨_, rfl⟩⟩
  exact hspells.lexes trivial

theorem lexes_display : ∀ {t : Ty}, t.IsWritten → ∀ {suffix}, Breaks suffix →
    Lexes t.display.toList t.tokens suffix
  | .base name, h, suffix, hsuffix => by
    rw [Ty.display, Ty.tokens]
    exact (identifier_before_break h).lexes hsuffix
  | .pointer t, h, suffix, _ => by
    have hbreaks : Breaks ("@".toList ++ suffix) := by
      rintro c ⟨rfl⟩
      decide
    rw [Ty.display, Ty.tokens, String.toList_append]
    exact (lexes_display (t := t) h hbreaks).append (lexes_mark .atSign (by decide))
  | .array t .dynamic, h, suffix, _ => by
    have hbreaks : Breaks ("[".toList ++ "]".toList ++ suffix) := by
      rintro c ⟨rfl⟩
      decide
    have hmarks : Lexes ("[".toList ++ "]".toList)
        ([.punctuator .leftBracket] ++ [.punctuator .rightBracket]) suffix :=
      (lexes_mark .leftBracket (by decide)).append
        (lexes_mark .rightBracket (by decide))
    rw [Ty.display, Ty.tokens, String.toList_append]
    exact (lexes_display (t := t) h hbreaks).append hmarks
  | .array t (.fixed n), ⟨ht, hn⟩, suffix, _ => by
    obtain ⟨value, rfl⟩ : ∃ value : UInt64, value.toNat = n :=
      ⟨.ofNat n, UInt64.toNat_ofNat_of_lt' (hn.trans (by decide))⟩
    have hbreaks : Breaks ("[".toList ++ (toString value.toNat).toList ++
      "]".toList ++ suffix) := by
      rintro c ⟨rfl⟩
      decide
    have hclose : Breaks ("]".toList ++ suffix) := by
      rintro c ⟨rfl⟩
      decide
    have hmarks : Lexes ("[".toList ++ (toString value.toNat).toList ++ "]".toList)
        ([.punctuator .leftBracket] ++ [.integer ⟨value, .decimal⟩] ++ [.punctuator .rightBracket])
        suffix :=
      ((lexes_mark .leftBracket (by decide)).append
        ((decimal_before_break hn).lexes hclose)).append
          (lexes_mark .rightBracket (by decide))
    rw [Ty.display, Ty.tokens, ArrayLength.display, String.toList_append, String.toList_append,
      String.toList_append, UInt64.ofNat_toNat]
    exact (lexes_display ht hbreaks).append hmarks

theorem lex_display {t : Ty} (h : t.IsWritten) :
    (lex t.display).1.map Token.kind = t.tokens ∧ (lex t.display).2 = [] := by
  have hnothing : Breaks [] := nofun
  obtain ⟨stop, hkinds, hreports⟩ := lexes_display h hnothing Location.origin
  rw [List.append_nil, readAll_of_empty (r := ⟨stop, []⟩) rfl] at hkinds hreports
  rw [List.map_nil, List.append_nil] at hkinds
  exact ⟨hkinds, hreports⟩

end Lexes

end Token

open Parse Grammar

theorem Grammar.TypeName.display {t : Ty} {before after : List Kind} (h : TypeName t before after) :
    ∃ kinds, before = kinds ++ after ∧ ((∀ kind ∈ kinds, kind.isHexadecimal = false) →
      t.display = String.join (kinds.map Kind.text)) := by
  induction h with
  | @base name after => exact ⟨[.identifier name], rfl, fun _ => by simp [Ty.display,
    String.join, Kind.text]⟩
  | pointer _ ih =>
    obtain ⟨kinds, rfl, hdisplay⟩ := ih
    refine ⟨kinds ++ [.punctuator .atSign], by simp, fun hdecimal => ?_⟩
    rw [Ty.display, hdisplay fun kind hkind => hdecimal kind (List.mem_append_left _ hkind)]
    simp [String.join, Kind.text, Punctuator.text]
  | dynamic _ ih =>
    obtain ⟨kinds, rfl, hdisplay⟩ := ih
    refine ⟨kinds ++ [.punctuator .leftBracket, .punctuator .rightBracket], by simp,
      fun hdecimal => ?_⟩
    rw [Ty.display, hdisplay fun kind hkind => hdecimal kind (List.mem_append_left _ hkind)]
    simp [String.join, Kind.text, Punctuator.text, ArrayLength.display, String.append_assoc]
  | @fixed t literal before after _ ih =>
    obtain ⟨kinds, rfl, hdisplay⟩ := ih
    refine ⟨kinds ++ [.punctuator .leftBracket, .integer literal, .punctuator .rightBracket],
      by simp, fun hdecimal => ?_⟩
    have hradix : literal.radix = .decimal := by
      obtain ⟨value, radix⟩ := literal
      cases radix with
      | decimal => rfl
      | hexadecimal digits => cases hdecimal (.integer ⟨value, .hexadecimal digits⟩) (by simp)
    rw [Ty.display, hdisplay fun kind hkind => hdecimal kind (List.mem_append_left _ hkind)]
    simp [String.join, Kind.text, Punctuator.text, ArrayLength.display, IntegerLiteral.text, hradix,
      String.append_assoc]

/-- The text of a type is read back as that very type, to its end and without a fault. What is read
as a type is shown as its tokens are, unless a length is hexadecimal. -/
theorem type_text_roundtrip :
    (∀ t : Ty, t.IsWritten → ∃ tokens parsed next, Token.lex t.display = (tokens, []) ∧
      Parse.type (.ofTokens tokens) = .ok parsed next ∧ parsed.value = t ∧ next.rest = []) ∧
    ∀ (c : Cursor) (parsed : Located Ty) (next : Cursor), Parse.type c = .ok parsed next →
      (∀ token ∈ c.rest, token.kind.isHexadecimal = false) →
      ∃ consumed, c.rest = consumed ++ next.rest ∧
        parsed.value.display = String.join (consumed.map (·.kind.text)) := by
  constructor
  · intro t h
    obtain ⟨hkinds, hreports⟩ := Token.lex_display h
    rcases hlex : Token.lex t.display with ⟨tokens, reports⟩
    rw [hlex] at hkinds hreports
    have hderives : TypeName t (Cursor.ofTokens tokens).kinds [] := by
      have hall := h.writable.derives []
      rw [List.append_nil, ← hkinds] at hall
      exact hall
    obtain ⟨parsed, next, hread, -, hvalue, hnext⟩ :=
      completes_type _ (.ofTokens tokens) t [] (Nat.le_refl _) hderives nofun
    refine ⟨tokens, parsed, next, by rw [← hreports], hread, hvalue, ?_⟩
    simpa [Cursor.kinds] using hnext
  · intro c parsed next hread hdecimal
    obtain ⟨-, hderives⟩ := derives_type c parsed next hread
    obtain ⟨kinds, hkinds, hdisplay⟩ := hderives.display
    have hreads := reads_type (n := c.rest.length) c (Nat.le_refl _) trivial
    rw [hread] at hreads
    obtain ⟨consumed, htokens, -⟩ := hreads
    have hrest : c.rest = consumed ++ next.rest := htokens
    have hconsumed : kinds = consumed.map Token.kind := by
      have hsame : kinds ++ next.kinds = consumed.map Token.kind ++ next.kinds := by
        rw [← hkinds, Cursor.kinds, Cursor.kinds, hrest, List.map_append]
      exact List.append_cancel_right hsame
    refine ⟨consumed, hrest, ?_⟩
    rw [hdisplay, hconsumed, List.map_map]
    · rfl
    · intro kind hkind
      rw [hconsumed] at hkind
      obtain ⟨token, htoken, rfl⟩ := List.mem_map.1 hkind
      exact hdecimal token (hrest ▸ List.mem_append_left _ htoken)

/-- An array of triples, followed by the name of a variable. -/
def triples : List Token :=
  [.identifier "point", .punctuator .leftBracket, .integer ⟨3, .decimal⟩, .punctuator .rightBracket,
    .identifier "p"].map fun kind => ⟨kind, Location.origin, Location.origin⟩

theorem type_text_roundtrip_triples :
    (∃ tokens parsed next, Token.lex "point[3][]@" = (tokens, []) ∧
      Parse.type (.ofTokens tokens) = .ok parsed next ∧
      parsed.value = .pointer (.array (.array (.base "point") (.fixed 3)) .dynamic) ∧
      next.rest = []) ∧
    ∃ parsed next consumed, Parse.type (.ofTokens triples) = .ok parsed next ∧
      triples = consumed ++ next.rest ∧ next.rest.length = 1 ∧
      parsed.value.display = String.join (consumed.map (·.kind.text)) := by
  have hwritten : (Ty.pointer (.array (.array (.base "point") (.fixed 3)) .dynamic)).IsWritten :=
    ⟨show (Kind.identifier "point").isSpellable by decide, by decide⟩
  obtain ⟨consumed, hrest, hdisplay⟩ :=
    type_text_roundtrip.2 (.ofTokens triples) _ _ rfl (by decide)
  exact ⟨type_text_roundtrip.1 _ hwritten, _, _, consumed, rfl, hrest, rfl, hdisplay⟩

end RegionCompiler
