import Mathlib
import RegionCompiler.Proofs.Compilation
import RegionCompiler.Proofs.Typing.Annotation
import RegionCompiler.Proofs.Typing.Parts

/-! Type checking is sound: a program without diagnostics obeys the rules of typing in all its
parts, and it is the program that was read. -/
namespace RegionCompiler

/-- An expression stands somewhere in the body of a function. -/
def Function.Mentions (f : Function) (e : Expr) : Prop :=
  ∃ st depth inLoop other, Stmt.Occurs st depth inLoop f.body.statements 0 false ∧
    other ∈ st.expressions ∧ e.Occurs other

theorem Stmt.Fills.isReturn {s s' : Stmt} (h : Stmt.Fills s s') : s'.isReturn = s.isReturn := by
  cases h <;> rfl

theorem Stmt.AllFill.getLast? {l l' : List Stmt} (h : Stmt.AllFill l l') :
    l'.getLast?.map Stmt.isReturn = l.getLast?.map Stmt.isReturn := by
  induction l generalizing l' with
  | nil =>
    cases h
    rfl
  | cons s rest ih =>
    cases h with | cons hs hrest
    have hih := ih hrest
    cases hrest with
    | nil => simp [hs.isReturn]
    | cons _ _ => simpa using hih

theorem Block.Fills.endsInReturn {b b' : Block} (h : Block.Fills b b') :
    b'.endsInReturn = b.endsInReturn := by
  cases h with | mk h
  exact congrArg (·.getD false) h.getLast?

namespace Typing

theorem ProgramOk.decls_sound {layouts : Registry} {p : Program} (h : ProgramOk layouts p)
    {f : Function} (hf : f ∈ p.functions) : (declsOf layouts p f.stack).Sound :=
  declsOf_sound h.globals (h.functions f hf).known

theorem BlockOk.mentions {D : Decls} {result : Ty} {f : Function}
    (h : BlockOk D result false f.body) {e : Expr} (he : f.Mentions e) : ∃ t, HasType D e t := by
  obtain ⟨st, depth, inLoop, other, hst, hother, he⟩ := he
  obtain ⟨t, ht⟩ := (StmtsOk.occurs hst h.statements).1.expressions other hother
  exact HasType.occurs he ht

theorem ProgramOk.mentions {layouts : Registry} {p : Program} (h : ProgramOk layouts p)
    {f : Function} (hf : f ∈ p.functions) {e : Expr} (he : f.Mentions e) :
    ∃ t, HasType (declsOf layouts p f.stack) e t :=
  (h.functions f hf).body.mentions he

end Typing

/-- Type checking is sound. What comes out of an analysis without diagnostics is the program that
was read, with every expression annotated by a type that is valid and has a layout; the program
obeys the declarative rules as a whole, and so does each of its expressions. -/
theorem analyzed_sound {isFile : String → Bool} {base path text : String}
    (h : (analyzed isFile base path text).2.diagnostics = []) :
    Program.Fills (Parse.source path text).program (analyzed isFile base path text).1 ∧
    Typing.ProgramOk (analyzed isFile base path text).2.layouts
      (analyzed isFile base path text).1 ∧
    ∀ f ∈ (analyzed isFile base path text).1.functions,
      (f.result.value.isVoid = false → f.body.endsInReturn) ∧
      ∀ e, f.Mentions e → ∃ t, e.ty = some t ∧ t.isValid ∧
        (∃ l, (analyzed isFile base path text).2.layouts.layoutOf t = .ok l) ∧
        Typing.HasType (Typing.declsOf (analyzed isFile base path text).2.layouts
          (analyzed isFile base path text).1 f.stack) e t := by
  have htidy := Parse.source_program_tidy path text
  have hfills := Typing.analyze_fills isFile base .initial (Parse.source path text).program
  have hok := analyzed_programOk h
  refine ⟨hfills, hok, fun f hf => ⟨fun hvoid => ?_, fun e he => ?_⟩⟩
  · obtain ⟨g, hg, hgf⟩ := Typing.exists_of_forall₂ hfills.functions.flip hf
    rw [hgf.body.endsInReturn]
    rw [hgf.result] at hvoid
    exact Typing.analyze_returns htidy h g hg hvoid
  · obtain ⟨t, ht⟩ := hok.mentions hf he
    have hknown := ht.known (hok.decls_sound hf)
    exact ⟨t, ht.ty_eq, hknown.isValid, hknown.layoutOf, ht⟩

/-- A program with records, arrays, pointers, calls and a conversion. -/
def pointSum : String :=
  "type P { int x, i32[] ys } "
    ++ "fn sum(P@ p) int { for i from 0 until 2 { mut p@.x = p@.x + (p@.ys[i] -> int) } ret p@.x } "
    ++ "fn main() { let@ P p = P!{ ys = [1, 2], x = 3 } call sum(p) }"

set_option maxRecDepth 4096 in
theorem pointSum_clean :
    (analyzed (fun _ => false) "" "main.bz" pointSum).2.diagnostics.isEmpty = true := by
  have htext : pointSum.toList = _ :=
    toList_append_eq (toList_append_eq String.toList_ofList String.toList_ofList)
      String.toList_ofList
  rw [analyzed, Parse.source, Token.lex, htext]
  cbv

theorem analyzed_sound_pointSum :
    (analyzed (fun _ => false) "" "main.bz" pointSum).2.diagnostics = [] ∧
    Program.Fills (Parse.source "main.bz" pointSum).program
      (analyzed (fun _ => false) "" "main.bz" pointSum).1 ∧
    Typing.ProgramOk (analyzed (fun _ => false) "" "main.bz" pointSum).2.layouts
      (analyzed (fun _ => false) "" "main.bz" pointSum).1 := by
  have hclean := List.isEmpty_iff.1 pointSum_clean
  exact ⟨hclean, (analyzed_sound hclean).1, (analyzed_sound hclean).2.1⟩

end RegionCompiler
