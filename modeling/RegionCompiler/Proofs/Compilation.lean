import Mathlib
import RegionCompiler.Compilation
import RegionCompiler.Proofs.Codegen.Program
import RegionCompiler.Proofs.Parse.Tidy

/-! Compiling never ends in a fault: what the analysis accepts, code generation can do. -/
namespace RegionCompiler

/-- The kernel is slow at decoding literals, so texts are rewritten to their characters before they
are evaluated; for a text in parts, this puts the characters together. -/
theorem toList_append_eq {s t : String} {start rest : List Char} (hs : s.toList = start)
    (ht : t.toList = rest) : (s ++ t).toList = start ++ rest := by
  rw [String.toList_append, hs, ht]

/-- The program of a text as the analysis leaves it, with what the analysis knows then. -/
def analyzed (isFile : String → Bool) (base path text : String) : Program × Typing.Knowledge :=
  Typing.analyze isFile base .initial (Parse.source path text).program

theorem analyzed_programOk {isFile : String → Bool} {base path text : String}
    (h : (analyzed isFile base path text).2.diagnostics = []) :
    Typing.ProgramOk (analyzed isFile base path text).2.layouts
      (analyzed isFile base path text).1 :=
  Typing.analyze_programOk (Parse.source_program_tidy path text) h

theorem findings_ne_nil {parsed : Parse.Output} (h : parsed.hasErrors) :
    parsed.reports.map Finding.ofReport ++ parsed.diagnostics.map Finding.ofParse ≠ [] := by
  intro hnil
  obtain ⟨hreports, hdiagnostics⟩ := List.append_eq_nil_iff.1 hnil
  rw [List.map_eq_nil_iff] at hreports hdiagnostics
  simp [Parse.Output.hasErrors, hreports, hdiagnostics] at h

theorem overflows_of_clean {known : Typing.Knowledge} (h : known.diagnostics = []) :
    known.overflows = false := by
  simp [Typing.Knowledge.overflows, h]

/-- A text that is compiled: what the analysis makes of it, and what is generated. -/
structure Accepted (isFile : String → Bool) (platform : Platform) (path text : String)
    (layouts : Registry) (p : Program) (out : Codegen.Output) : Prop where
  parsed : (Parse.source path text).hasErrors = false
  clean : (analyzed isFile (Compilation.baseDirectory path) path text).2.diagnostics = []
  laidOut : (analyzed isFile (Compilation.baseDirectory path) path text).2.layouts = layouts
  program : (analyzed isFile (Compilation.baseDirectory path) path text).1 = p
  generated : Codegen.generate platform layouts p = .ok out

namespace Accepted

variable {isFile : String → Bool} {platform : Platform} {path text : String} {layouts : Registry}
  {p : Program} {out : Codegen.Output}

theorem programOk (h : Accepted isFile platform path text layouts p out) :
    Typing.ProgramOk layouts p := by
  have hok := analyzed_programOk h.clean
  rw [h.laidOut, h.program] at hok
  exact hok

theorem generates (h : Accepted isFile platform path text layouts p out) :
    Codegen.Generated platform layouts p out := by
  rcases Codegen.generate_gives h.programOk platform with ⟨out', hout, hgenerated⟩ | ⟨e, -, he⟩
  · rw [h.generated] at hout
    cases hout
    exact hgenerated
  · rw [h.generated] at he
    cases he

end Accepted

/-- Whether a text is accepted and gives a program that passes a check. -/
def passes (isFile : String → Bool) (base path text : String)
    (check : Program → Registry → Bool) : Bool :=
  let parsed := Parse.source path text
  let result := Typing.analyze isFile base .initial parsed.program
  !parsed.hasErrors && result.2.diagnostics.isEmpty && check result.1 result.2.layouts &&
    (Codegen.generate .linux result.2.layouts result.1).isOk &&
    (Codegen.generate .windows result.2.layouts result.1).isOk

theorem accepted_of_passes {isFile : String → Bool} {path text : String}
    {check : Program → Registry → Bool}
    (h : passes isFile (Compilation.baseDirectory path) path text check = true)
    {platform : Platform} (hplatform : platform = .linux ∨ platform = .windows) :
    ∃ layouts p out, Accepted isFile platform path text layouts p out ∧ check p layouts = true := by
  simp only [passes, Bool.and_eq_true, Bool.not_eq_true', List.isEmpty_iff] at h
  obtain ⟨⟨⟨⟨hparsed, hclean⟩, hcheck⟩, hlinux⟩, hwindows⟩ := h
  have hmade : (Codegen.generate platform (analyzed isFile (Compilation.baseDirectory path) path
      text).2.layouts (analyzed isFile (Compilation.baseDirectory path) path text).1).isOk := by
    rcases hplatform with rfl | rfl
    · exact hlinux
    · exact hwindows
  cases hout : Codegen.generate platform (analyzed isFile (Compilation.baseDirectory path) path
      text).2.layouts (analyzed isFile (Compilation.baseDirectory path) path text).1 with
  | error e =>
    rw [hout] at hmade
    cases hmade
  | ok out => exact ⟨_, _, out, ⟨hparsed, hclean, rfl, rfl, hout⟩, hcheck⟩

/-- A loop that is left at once. -/
def breakingLoop : String := "fn main() { while true { break } }"

theorem breakingLoop_passes :
    passes (fun _ => false) (Compilation.baseDirectory "main.bz") "main.bz"
      breakingLoop (fun _ _ => true) = true := by
  have htext : breakingLoop.toList = _ := String.toList_ofList
  rw [passes, Parse.source, Token.lex, htext]
  decide +kernel

theorem accepted_loop :
    ∃ layouts p out, Accepted (fun _ => false) .linux "main.bz" breakingLoop layouts p out := by
  obtain ⟨layouts, p, out, hout, -⟩ := accepted_of_passes breakingLoop_passes (.inl rfl)
  exact ⟨layouts, p, out, hout⟩

section Run

variable {isFile : String → Bool} {platform : Platform} {path text : String}

namespace Compilation

theorem run_clean (hparsed : (Parse.source path text).hasErrors = false)
    (hclean : (analyzed isFile (baseDirectory path) path text).2.diagnostics = []) :
    run isFile platform path text =
      (Codegen.generate platform (analyzed isFile (baseDirectory path) path text).2.layouts
        (analyzed isFile (baseDirectory path) path text).1).map fun output => {
          tokens := (Parse.source path text).tokens
          program := (analyzed isFile (baseDirectory path) path text).1
          findings := []
          assembly := some output.assembly
          stages := [.parsing, .analyzing, .generating] } := by
  have hover := overflows_of_clean hclean
  rw [analyzed] at hclean hover
  simp [run, hparsed, hclean, hover, analyzed]

/-- Whatever is wrong with a text is found, or a record is too large to be counted. -/
theorem run_unclean (platform : Platform) (h : (Parse.source path text).hasErrors = true ∨
    (analyzed isFile (baseDirectory path) path text).2.diagnostics ≠ []) :
    (∃ c, run isFile platform path text = .ok c ∧ c.assembly = none ∧ c.findings ≠ []) ∨
      run isFile platform path text = .error .overflow := by
  unfold run
  dsimp only
  split
  case isTrue herrors => exact .inl ⟨_, rfl, rfl, findings_ne_nil herrors⟩
  case isFalse herrors =>
    have hdiagnostics := h.resolve_left herrors
    split
    case isTrue => exact .inr rfl
    case isFalse =>
      rw [analyzed] at hdiagnostics
      rw [if_pos (by simpa using hdiagnostics)]
      exact .inl ⟨_, rfl, rfl, by simpa using hdiagnostics⟩

theorem run_assembly_iff {a : Machine.Assembly} :
    (∃ c, run isFile platform path text = .ok c ∧ c.assembly = some a) ↔
      ∃ layouts p out, Accepted isFile platform path text layouts p out ∧ out.assembly = a := by
  constructor
  · rintro ⟨c, hc, ha⟩
    by_cases h : (Parse.source path text).hasErrors = true ∨
        (analyzed isFile (baseDirectory path) path text).2.diagnostics ≠ []
    · rcases run_unclean platform h with ⟨c', hc', hnone, -⟩ | hover
      · cases hc.symm.trans hc'
        cases hnone.symm.trans ha
      · cases hc.symm.trans hover
    · rw [not_or, Bool.not_eq_true, not_not] at h
      rw [run_clean h.1 h.2] at hc
      cases hout : Codegen.generate platform
          (analyzed isFile (baseDirectory path) path text).2.layouts
          (analyzed isFile (baseDirectory path) path text).1 with
      | error e =>
        rw [hout] at hc
        cases hc
      | ok out =>
        rw [hout] at hc
        cases hc
        exact ⟨_, _, out, ⟨h.1, h.2, rfl, rfl, hout⟩, Option.some.inj ha⟩
  · rintro ⟨layouts, p, out, h, rfl⟩
    have hout := h.generated
    rw [← h.laidOut, ← h.program] at hout
    exact ⟨_, by rw [run_clean h.parsed h.clean, hout]; rfl, rfl⟩

end Compilation

end Run

end RegionCompiler
