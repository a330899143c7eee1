import RegionCompiler.Proofs.Codegen.Encodable

/-! Compiling ends in no fault but one: a sum of sizes that is not a word. No program has such a sum
whose sizes are in reach of a word. It is not enough that values and frames are, since the arguments
of a call of a C function add up as well. -/
namespace RegionCompiler.Machine

/-- What a word reaches, and on both sides of the base pointer half of it. -/
def Reach.qword : Reach where
  word := 2 ^ 64
  frame := 2 ^ 63
  value := 2 ^ 63 - 16
  arguments := 2 ^ 63
  aligned := by decide
  value_ge := by decide
  values := by decide
  parts := by decide
  value_le_arguments := by decide
  value_le_frame := by decide
  arguments_lt := by decide
  frame_gt := by decide
  frame_le := by decide

end RegionCompiler.Machine

namespace RegionCompiler

open Machine Codegen Typing

theorem Program.Within.mono {R R' : Reach} {platform : Platform} {layouts : Registry} {p : Program}
    {routines : List Routine} (h : p.Within R platform layouts routines)
    (hvalue : R.value ≤ R'.value)
    (harguments : R.arguments ≤ R'.arguments) (hframe : R.frame ≤ R'.frame)
    (hword : R.word ≤ R'.word) :
    p.Within R' platform layouts routines where
  records name l hl := (h.records name l hl).trans hvalue
  arguments r hr := (h.arguments r hr).trans harguments
  frames r hr := (h.frames r hr).trans_le hframe
  locals r hr := (h.locals r hr).trans_le hframe
  expressions f hf st d l hocc part hpart e he :=
    (h.expressions f hf st d l hocc part hpart e he).trans hword

namespace Codegen

variable {platform : Platform} {layouts : Registry} {p : Program} {routines : List Routine}

end Codegen

/-- A text in which nothing is found, with what the analysis makes of it. -/
structure Clean (isFile : String → Bool) (path text : String) (layouts : Registry) (p : Program) :
    Prop where
  parsed : (Parse.source path text).hasErrors = false
  clean : (analyzed isFile (Compilation.baseDirectory path) path text).2.diagnostics = []
  laidOut : (analyzed isFile (Compilation.baseDirectory path) path text).2.layouts = layouts
  program : (analyzed isFile (Compilation.baseDirectory path) path text).1 = p

section Clean

variable {isFile : String → Bool} {platform : Platform} {path text : String} {layouts : Registry}
  {p : Program} {out : Codegen.Output}

namespace Clean

theorem programOk (h : Clean isFile path text layouts p) : ProgramOk layouts p := by
  have hok := analyzed_programOk h.clean
  rw [h.laidOut, h.program] at hok
  exact hok

theorem grown (h : Clean isFile path text layouts p) : layouts.Grown := by
  rw [← h.laidOut]
  exact Registry.Grown.initial.answer (.records _)

theorem frames (h : Clean isFile path text layouts p) :
    ∃ routines, List.Forall₂ (Routine.Frames layouts) p.functions routines :=
  exists_routines fun f hf => ⟨(h.programOk.functions f hf).known,
    (h.programOk.functions f hf).result⟩

theorem run (h : Clean isFile path text layouts p) (platform : Platform) :
    Compilation.run isFile platform path text =
      (generate platform layouts p).map fun output => {
        tokens := (Parse.source path text).tokens
        program := p
        findings := []
        assembly := some output.assembly
        stages := [.parsing, .analyzing, .generating] } := by
  rw [Compilation.run_clean h.parsed h.clean, h.laidOut, h.program]

end Clean

end Clean

end RegionCompiler
