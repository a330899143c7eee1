import RegionCompiler.Proofs.Codegen.ClosedProgram
import RegionCompiler.Proofs.Codegen.Reach
import RegionCompiler.Proofs.Codegen.Return

/-! Numbers in generated code. Nothing checks that a displacement or an immediate operand fits into
the four bytes that machine code has for it. They fit as long as values, frames, calls of C
functions and literals stay below limits, and a program with larger records shows that they need
not otherwise. -/
namespace RegionCompiler.Machine

/-- The numbers that four bytes with a sign can hold. -/
def InReach (v : Int) : Prop := -2 ^ 31 ≤ v ∧ v < 2 ^ 31

instance {v : Int} : Decidable (InReach v) := inferInstanceAs (Decidable (_ ∧ _))

/-- An instruction that machine code can express. -/
def Instr.IsEncodable (i : Instr) : Prop := ∀ v ∈ i.numbers, InReach v

namespace Reach

/-- How large values may be. Two of them, rounded up to slots, and what lies between them are still
in reach of the stack pointer. -/
def valueLimit : Nat := 2 ^ 30 - 64

/-- How large the arguments of a function may be. -/
def argumentsLimit : Nat := 2 ^ 30

/-- What four bytes with a sign reach. -/
def dword : Reach where
  word := 2 ^ 31
  frame := 2 ^ 31
  value := valueLimit
  arguments := argumentsLimit
  aligned := by decide
  value_ge := by decide
  values := by decide
  parts := by decide
  value_le_arguments := by decide
  value_le_frame := by decide
  arguments_lt := by decide
  frame_gt := by decide
  frame_le := by decide

end Reach

theorem Instr.Within.isEncodable {i : Instr} (h : i.Within .dword) : i.IsEncodable := by
  intro v hv
  obtain ⟨hlow, hhigh⟩ := h.numbers v hv
  exact ⟨Int.le_of_lt hlow, hhigh⟩

end RegionCompiler.Machine

namespace RegionCompiler

open Machine Machine.Instr Machine.Reach Codegen Typing

/-- A program whose sizes are in reach of machine code. -/
structure IsCompactProgram (platform : Platform) (layouts : Registry) (p : Program)
    (routines : List Routine) : Prop where
  records : ∀ name l, layouts.get? name = some l → l.size ≤ valueLimit
  arguments : ∀ r ∈ routines, r.frame.arguments ≤ argumentsLimit
  locals : ∀ r ∈ routines, r.frame.locals < 2 ^ 31
  expressions : ∀ f ∈ p.functions, Throughout
    (measure platform.convention layouts p.foreign · ≤ 2 ^ 31) f.body.statements (bodyDepth f) false

section Accepted

variable {isFile : String → Bool} {platform : Platform} {path text : String} {layouts : Registry}
  {p : Program} {out : Codegen.Output}

theorem IsCompactProgram.within {routines : List Routine}
    (h : IsCompactProgram platform layouts p routines)
    (hframes : List.Forall₂ (Routine.Frames layouts) p.functions routines) :
    p.Within .dword platform layouts routines where
  records := h.records
  arguments := h.arguments
  frames r hr := by
    obtain ⟨f, -, hfr⟩ := exists_of_forall₂ hframes.flip hr
    have hresult : r.frame.resultSlot ≤ valueLimit :=
      slot_le (R := .dword) (size_le_of_records (by decide) h.records hfr.result)
    have harguments := h.arguments r hr
    have hlimit : 16 + argumentsLimit + valueLimit < 2 ^ 31 := by decide
    change _ < 2 ^ 31
    omega
  locals := h.locals
  expressions := h.expressions

/-- All code of a program can be expressed if its sizes are in reach: displacements and immediate
operands fit into four bytes. -/
theorem Accepted.operands_encodable (h : Accepted isFile platform path text layouts p out)
    (hcompact : IsCompactProgram platform layouts p out.routines) :
    ∀ i ∈ out.assembly.code, i.IsEncodable := by
  have hwithin := hcompact.within h.generates.frames
  obtain ⟨files, arrays, code, supply, -, hlisted, -, hout⟩ := h.assembled hwithin.expressions
  intro i hi
  rw [hout] at hi
  rcases List.mem_append.1 hi with hi | hi
  · exact (collector_within platform _ i hi).isEncodable
  · exact (hwithin.code h.programOk h.grown h.generates.frames (fun _ hr => hr) hlisted i
      hi).isEncodable

/-- Whether a check holds of all expressions in one, down to a depth. -/
def Expr.every (check : Expr → Bool) : (depth : Nat) → Expr → Bool
  | 0, _ => false
  | depth + 1, e => check e && e.children.all (every check depth)

/-- Whether a check holds of all expressions in a statement and its blocks, down to a depth. -/
def Stmt.every (check : Expr → Bool) : (depth : Nat) → Stmt → Bool
  | 0, _ => false
  | depth + 1, st => st.parts.all (Expr.every check depth) &&
    (st.blocks false).all fun b => b.1.statements.all (every check depth)

theorem Expr.every_occurs {check : Expr → Bool} {e part : Expr} (hocc : e.Occurs part) {depth : Nat}
    (h : part.every check depth) : check e := by
  induction hocc generalizing depth with
  | here =>
    cases depth with
    | zero => cases h
    | succ depth => exact (Bool.and_eq_true_iff.1 h).1
  | inside hchild _ ih =>
    cases depth with
    | zero => cases h
    | succ depth => exact ih (List.all_eq_true.1 (Bool.and_eq_true_iff.1 h).2 _ hchild)

theorem Codegen.throughout_of_every {check : Expr → Bool} {limit : Nat} {statements : List Stmt}
    (h : statements.all (Stmt.every check limit)) (depth : Nat) (inLoop : Bool) :
    Throughout (check ·) statements depth inLoop := by
  intro st d l hocc
  induction hocc generalizing limit with
  | here hst =>
    have hst := List.all_eq_true.1 h _ hst
    cases limit with
    | zero => cases hst
    | succ limit =>
      intro part hpart e he
      exact Expr.every_occurs he (List.all_eq_true.1 (Bool.and_eq_true_iff.1 hst).1 part hpart)
  | @inside _ _ _ other b _ hother hblock _ ih =>
    have hother := List.all_eq_true.1 h _ hother
    cases limit with
    | zero => cases hother
    | succ limit =>
      obtain ⟨l', hblock⟩ : ∃ l', (b, l') ∈ other.blocks false := by
        cases other <;> simp_all [Stmt.blocks]
        grind
      exact ih (List.all_eq_true.1 (Bool.and_eq_true_iff.1 hother).2 _ hblock)

/-- Whether a program has small records and frames, and small numbers in its expressions. -/
def Program.isSmall (platform : Platform) (p : Program) (layouts : Registry) : Bool :=
  layouts.entries.all (·.2.size ≤ valueLimit) &&
    p.functions.all (·.body.statements.all
      (Stmt.every (measure platform.convention layouts p.foreign · ≤ 2 ^ 31) 8)) &&
    (layOutFrames layouts p.functions).toOption.any fun routines => routines.all fun r =>
      r.frame.arguments ≤ argumentsLimit && decide (r.frame.locals < 2 ^ 31)

theorem Accepted.compact (h : Accepted isFile platform path text layouts p out)
    (hsmall : p.isSmall platform layouts) : IsCompactProgram platform layouts p out.routines := by
  obtain ⟨-, -, -, -, hframes, -, -, -⟩ := generate_eq h.generated
  simp only [Program.isSmall, hframes, Except.toOption, Option.any_some, Bool.and_eq_true,
    List.all_eq_true, decide_eq_true_eq] at hsmall
  obtain ⟨⟨hrecords, hbodies⟩, hroutines⟩ := hsmall
  constructor
  case records =>
    intro name l hl
    obtain ⟨before, after, hentries, -⟩ := List.lookup_eq_some_iff.1 hl
    exact hrecords (name, l) (by simp [hentries])
  case arguments => exact fun r hr => (hroutines r hr).1
  case locals => exact fun r hr => (hroutines r hr).2
  case expressions =>
    intro f hf
    simpa using throughout_of_every (List.all_eq_true.2 (hbodies f hf)) (bodyDepth f) false

/-- Records by value, an array, a literal, loops, and calls of both kinds. -/
def tallyLines : List String :=
  ["cfn draw(Point p, byte@ name, *) i32 type Point \x7b int x, int y, int z \x7d ",
    "fn norm(Point p, int n) int \x7b let int sum = 0 ",
    "for i from 0 until n \x7b mut sum = sum + p.x * p.y \x7d ret sum \x7d ",
    "fn show(Point p) \x7b let int[] ns = [2, 3] let byte[] s = \"hi\" ",
    "while ns[0] < 3 \x7b call draw(p, null, norm(p, ns[1]), s[0]) break \x7d \x7d ",
    "fn main() \x7b \x7d"]

def tallyText : String := String.ofList (tallyLines.flatMap String.toList)

theorem tallyText_isSmall :
    passes (fun _ => false) (Compilation.baseDirectory "main.bz") "main.bz"
      tallyText (Program.isSmall .linux) = true := by
  have htext : tallyText.toList = tallyLines.flatMap String.toList := String.toList_ofList
  rw [passes, Parse.source, Token.lex, htext]
  decide +kernel

theorem encodable_tally : ∃ layouts p out,
    Accepted (fun _ => false) .linux "main.bz" tallyText layouts p out ∧
      IsCompactProgram .linux layouts p out.routines ∧ ∀ i ∈ out.assembly.code, i.IsEncodable := by
  obtain ⟨layouts, p, out, hout, hsmall⟩ := accepted_of_passes tallyText_isSmall (.inl rfl)
  exact ⟨layouts, p, out, hout, hout.compact hsmall,
    Accepted.operands_encodable hout (hout.compact hsmall)⟩

/-- Each record has four members that are the record before it. The last one takes two gibibytes. -/
def nestedLines : List String :=
  ["type a\x7bint a,int b,int c,int d\x7d ", "type b\x7ba a,a b,a c,a d\x7d ",
    "type c\x7bb a,b b,b c,b d\x7d ", "type d\x7bc a,c b,c c,c d\x7d ",
    "type e\x7bd a,d b,d c,d d\x7d ", "type f\x7be a,e b,e c,e d\x7d ",
    "type g\x7bf a,f b,f c,f d\x7d ", "type h\x7bg a,g b,g c,g d\x7d ",
    "type i\x7bh a,h b,h c,h d\x7d ", "type j\x7bi a,i b,i c,i d\x7d ",
    "type k\x7bj a,j b,j c,j d\x7d ", "type l\x7bk a,k b,k c,k d\x7d ",
    "type m\x7bl a,l b,l c,l d\x7d ", "type n\x7bm a,m b,m c,m d\x7d ",
    "fn f(n a,int@ b)int@\x7bret b\x7d ", "fn main()\x7b\x7d"]

def nestedText : String := String.ofList (nestedLines.flatMap String.toList)

theorem nestedText_toList : nestedText.toList = nestedLines.flatMap String.toList :=
  String.toList_ofList

/-- Whether a function with large arguments returns a pointer. -/
def Program.isLarge (p : Program) (layouts : Registry) : Bool :=
  (layOutFrames layouts p.functions).toOption.any fun routines => routines.any fun r =>
    r.function.returnsPointer && decide (2 ^ 31 ≤ r.frame.arguments)

set_option maxRecDepth 20000 in
theorem nestedText_isLarge :
    passes (fun _ => false) (Compilation.baseDirectory "main.bz") "main.bz"
      nestedText Program.isLarge = true := by
  rw [passes, Parse.source, Token.lex, nestedText_toList]
  decide +kernel

/-- The result of a function with large arguments is out of reach. -/
theorem nestedText_not_encodable : ∃ layouts p out,
    Accepted (fun _ => false) .linux "main.bz" nestedText layouts p out ∧
      ∃ i ∈ out.assembly.code, ¬ i.IsEncodable := by
  obtain ⟨layouts, p, out, hout, hlarge⟩ := accepted_of_passes nestedText_isLarge (.inl rfl)
  obtain ⟨-, -, -, -, hframes, -, -, -⟩ := generate_eq hout.generated
  simp only [Program.isLarge, hframes, Except.toOption, Option.any_some, List.any_eq_true,
    Bool.and_eq_true, decide_eq_true_eq] at hlarge
  obtain ⟨r, hr, hreturns, hlarge⟩ := hlarge
  obtain ⟨-, span, value, t, hst, hty, hpointer⟩ := Function.returns_of_returnsPointer hreturns
  obtain ⟨exit, -, hparts⟩ := hout.departs hr
  obtain ⟨part, hpart, hinfix⟩ := hparts _ _ _ (.here hst)
  obtain ⟨-, first, rfl⟩ := handOver_of_generates hty hpointer hpart
  refine ⟨layouts, p, out, hout, mov Register.rax (Address.frame r.frame.resultAt),
    hinfix.subset (by simp [handOver, envOf]), fun hreach => ?_⟩
  have hdisplacement : r.frame.resultAt < 2 ^ 31 :=
    (hreach _ (by simp [mov, numbers, Operand.numbers, Address.numbers])).2
  rw [Frame.resultAt] at hdisplacement
  omega

end Accepted

end RegionCompiler
