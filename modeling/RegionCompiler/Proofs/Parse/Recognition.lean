import Mathlib
import RegionCompiler.Proofs.Parse.Complete.Program
import RegionCompiler.Proofs.Parse.DanglingElse
import RegionCompiler.Proofs.Parse.Render

/-! Reading tokens decides the grammar and gives the tree that they derive. -/
namespace RegionCompiler

theorem Program.mem_declarations {path : String} {ds : List Declaration} {d : Declaration}
    (h : d ∈ (ofDeclarations path ds).declarations) : d ∈ ds := by
  simp only [declarations, ofDeclarations, List.mem_append, List.mem_map,
    List.mem_filterMap] at h
  rcases h with (((h | h) | h) | h) | h <;>
    · obtain ⟨x, ⟨d', hd', hx⟩, rfl⟩ := h
      cases d' <;> cases hx
      exact hd'

namespace Parse

open Grammar

variable {tokens : List Token}

/-- The declarations and diagnostics that the tokens are read as. -/
abbrev readAll (tokens : List Token) : List Declaration × List Diagnostic :=
  declarationsAt tokens.length (.ofTokens tokens)

theorem readAll_sound (h : (readAll tokens).2 = []) :
    Declarations true ((readAll tokens).1.map Declaration.bare) (tokens.map Token.kind) :=
  declarationsAt_sound (c := .ofTokens tokens) (Nat.le_of_eq (Cursor.length_kinds _))
    (Prod.ext rfl h)

/-- What derives from the tokens is what is read from them, and no diagnostic is given. -/
theorem readAll_complete {ds : List Declaration}
    (h : Declarations true ds (tokens.map Token.kind)) :
    (readAll tokens).2 = [] ∧ (readAll tokens).1.map Declaration.bare = ds := by
  obtain ⟨ds', hread, hbare⟩ := declarationsAt_complete (c := .ofTokens tokens)
    (Nat.le_of_eq (Cursor.length_kinds _)) h
  have hread : readAll tokens = (ds', []) := hread
  rw [hread]
  exact ⟨rfl, hbare⟩

/-- No diagnostic is given exactly for the tokens that derive from the grammar, wherever an `else`
belongs. The tree is then the only one that they derive with every `else` at the nearest `if`, and
its operators stand in parentheses wherever their level asks for them. Each such tree is read back
from its canonical text. -/
theorem program_recognizes (path : String) (tokens : List Token) :
    ((program path tokens).2 = [] ↔ ∃ ds, Declarations false ds (tokens.map Token.kind)) ∧
    ((program path tokens).2 = [] → ∃ ds, (program path tokens).1.bare = .ofDeclarations path ds ∧
      Declarations true ds (tokens.map Token.kind) ∧
      (∀ other, Declarations true other (tokens.map Token.kind) → other = ds) ∧
      (program path tokens).1.bare.Fits) ∧
    ∀ p : Program, p.Fits → p.path = path → tokens.map Token.kind = p.tokens →
      (program path tokens).2 = [] ∧ (program path tokens).1.bare = p.bare := by
  refine ⟨⟨fun h => ?_, ?_⟩, fun h => ?_, ?_⟩
  · exact ⟨_, (readAll_sound h).relax⟩
  · rintro ⟨ds, hds⟩
    obtain ⟨ds', hds'⟩ := hds.resolve
    exact (readAll_complete hds').1
  · have hbare : (program path tokens).1.bare =
        .ofDeclarations path ((readAll tokens).1.map Declaration.bare) :=
      Program.bare_ofDeclarations path _
    have hderives := readAll_sound h
    refine ⟨_, hbare, hderives, fun other hother => (readAll_complete hother).2.symm, ?_⟩
    rw [hbare]
    exact fun d hd => hderives.fit d (Program.mem_declarations hd)
  · rintro p hp rfl htokens
    have hderives : Declarations true _ (tokens.map Token.kind) := htokens ▸ hp.derives
    obtain ⟨hnone, hbare⟩ := readAll_complete hderives
    refine ⟨hnone, ?_⟩
    calc (program p.path tokens).1.bare
      _ = .ofDeclarations p.path ((readAll tokens).1.map Declaration.bare) :=
        Program.bare_ofDeclarations p.path _
      _ = (Program.ofDeclarations p.path p.declarations).bare := by
        rw [hbare, Program.bare_ofDeclarations]
      _ = p.bare := by rw [Program.ofDeclarations_declarations]

/-- The tokens of `fn f() { if a if b break else continue }`. -/
def danglingElse : List Token :=
  [.keyword .fn_, .identifier "f", .punctuator .leftParen, .punctuator .rightParen,
    .punctuator .leftBrace, .keyword .if_, .identifier "a", .keyword .if_, .identifier "b",
    .keyword .break_, .keyword .else_, .keyword .continue_, .punctuator .rightBrace].map
    fun kind => ⟨kind, .origin, .origin⟩

/-- The `else` belongs to the inner `if`. -/
theorem program_recognizes_danglingElse :
    ∃ ds, Program.ofDeclarations "m" ds = Program.ofDeclarations "m"
        [.function ⟨.origin, .blank "f", [], .blank .void, .mk .origin false
          [.if_ .origin (.variable .blank ⟨.blank "a", none, none⟩ [])
            (.mk .origin false
              [.ifElse .origin (.variable .blank ⟨.blank "b", none, none⟩ [])
                (.mk .origin false [.break_ .origin])
                (.mk .origin false [.continue_ .origin])])], .empty⟩] ∧
      Declarations true ds (danglingElse.map Token.kind) ∧
      ∀ other, Declarations true other (danglingElse.map Token.kind) → other = ds := by
  have hnone : (program "m" danglingElse).2 = [] := rfl
  obtain ⟨ds, hbare, hderives, hunique, -⟩ := (program_recognizes "m" danglingElse).2.1 hnone
  refine ⟨ds, ?_, hderives, hunique⟩
  rw [← hbare]
  rfl

end Parse

end RegionCompiler
