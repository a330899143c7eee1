import RegionCompiler.Collector

/-! Paths through code and what they do to the stack pointer. A path may take or not take every
conditional jump, whatever the flags would say. Of the registers it knows only the stack pointer
and, while it points into the frame, the base pointer; a call gives both back as they were. -/
namespace RegionCompiler.Machine

/-- The registers that say where the frame lies. The base pointer may be unknown. -/
structure Stack where
  rsp : Int
  rbp : Option Int
deriving DecidableEq

def Register.isFrame : Register → Bool
  | .rsp | .rbp => true
  | _ => false

def Operand.isFrame : Operand → Bool
  | .register r _ => r.isFrame
  | _ => false

namespace Instr

/-- Operations on the frame registers themselves. -/
def frameMoves (op : BinaryInstr) (dst src : Operand) (s : Stack) : Option Stack :=
  match op, dst, src with
  | .sub, .register .rsp .qword, .immediate n => some { s with rsp := s.rsp - n }
  | .add, .register .rsp .qword, .immediate n => some { s with rsp := s.rsp + n }
  | .and_, .register .rsp .qword, .immediate n =>
    if n = -16 then some { s with rsp := s.rsp - s.rsp % 16 } else none
  | .mov, .register .rbp .qword, .register .rsp .qword => some { s with rbp := some s.rsp }
  | .mov, .register .rsp .qword, .register .rbp .qword => s.rbp.map fun b => { s with rsp := b }
  | _, _, _ => none

/-- What an instruction does to the stack on its way to the next one; `none` if that is not
known. -/
def moves (i : Instr) (s : Stack) : Option Stack :=
  match i with
  | .binary .cmp _ _ | .binary .test _ _ => some s
  | .binary op dst src => if dst.isFrame then frameMoves op dst src s else some s
  | .unary _ dst => if dst.isFrame then none else some s
  | .lea dst address =>
    if dst = .rsp ∧ address = Address.frame address.displacement then
      s.rbp.map fun b => { s with rsp := b + address.displacement }
    else if dst.isFrame then none
    else some s
  | .movsxd dst _ | .movzx dst _ _ | .cmov _ dst _ | .floatToInt _ dst _ =>
    if dst.isFrame then none else some s
  | .push _ => some { s with rsp := s.rsp - 8 }
  | .pop r =>
    if r = .rbp then some ⟨s.rsp + 8, none⟩
    else if r = .rsp then none
    else some { s with rsp := s.rsp + 8 }
  | _ => some s

/-- Where an instruction may jump. -/
def target? : Instr → Option Target
  | .jmp t | .jcc _ t => some t
  | _ => none

/-- Whether the next instruction may come next. -/
def fallsThrough : Instr → Bool
  | .jmp _ | .ret => false
  | _ => true

end Instr

/-- A path from one position in the code to another, with the instructions on it. It follows jumps
to labels and stays within the code. -/
inductive Path (code : Code) (start : Nat) : List Instr → Nat → Prop
  | start : Path code start [] start
  | falls {trace i instr} : Path code start trace i → code[i]? = some instr →
      instr.fallsThrough → Path code start (trace ++ [instr]) (i + 1)
  | jumps {trace i instr l j} : Path code start trace i → code[i]? = some instr →
      instr.target? = some (.label l) → code[j]? = some (.label l) →
      Path code start (trace ++ [instr]) j

def stackAfter (trace : List Instr) (s : Stack) : Option Stack :=
  trace.foldlM (fun s i => i.moves s) s

theorem stackAfter_concat (trace : List Instr) (i : Instr) (s : Stack) :
    stackAfter (trace ++ [i]) s = (stackAfter trace s).bind i.moves := by
  simp [stackAfter, List.foldlM_append]

/-- How many more frames of the collector a path opens than it closes. -/
def framesOpened (trace : List Instr) : Int :=
  (trace.count (.call Collector.enterSymbol) : Int) - trace.count (.call Collector.exitSymbol)

theorem framesOpened_concat (trace : List Instr) (i : Instr) :
    framesOpened (trace ++ [i]) = framesOpened trace + framesOpened [i] := by
  simp only [framesOpened, List.count_append]
  omega

theorem framesOpened_enter : framesOpened [.call Collector.enterSymbol] = 1 := by decide

theorem framesOpened_exit : framesOpened [.call Collector.exitSymbol] = -1 := by decide

theorem framesOpened_other {i : Instr} (henter : i ≠ .call Collector.enterSymbol)
    (hexit : i ≠ .call Collector.exitSymbol) : framesOpened [i] = 0 := by
  have hnone : ∀ j : Instr, i ≠ j → [i].count j = 0 := fun j hj =>
    List.count_eq_zero.2 fun hmem => hj (List.mem_singleton.1 hmem).symm
  rw [framesOpened, hnone _ henter, hnone _ hexit]
  rfl

/-- Places that a program reaches from its entry point, with the stack there. A call both enters
its function and comes back, unless it is one of `exit`; `start` is the stack pointer at the entry
point. -/
inductive Reached (code : Code) (start : Int) : Nat → Stack → Prop
  | entry {i rbp} : code[i]? = some (.symbol "main") → Reached code start i ⟨start, rbp⟩
  | falls {i s instr s'} : Reached code start i s → code[i]? = some instr →
      instr.fallsThrough → instr ≠ .call "exit" → instr.moves s = some s' →
      Reached code start (i + 1) s'
  | jumps {i s instr l j} : Reached code start i s → code[i]? = some instr →
      instr.target? = some (.label l) → code[j]? = some (.label l) → Reached code start j s
  | leaves {i s instr name j} : Reached code start i s → code[i]? = some instr →
      instr.target? = some (.symbol name) → code[j]? = some (.symbol name) →
      Reached code start j s
  | calls {i s name j} : Reached code start i s → code[i]? = some (.call name) →
      code[j]? = some (.symbol name) → Reached code start j { s with rsp := s.rsp - 8 }

end RegionCompiler.Machine
