import RegionCompiler.Codegen.Move
import RegionCompiler.Proofs.Machine.Flow

/-! Pieces of code with labels of their own. A piece leads from one state to another however the
labels outside of it are placed, as long as they meet the conditions it names. -/
namespace RegionCompiler.Codegen

open Machine Machine.Instr

/-- Code whose own labels have numbers above `n` and up to `m`. The condition is on the states of
the others. -/
def Piece (C : (Label → Spot) → Prop) (n m : Nat) (a : Spot) (code : Code) (b : Spot) : Prop :=
  n ≤ m ∧ ∃ own : Label → Spot, ∀ labels, C labels →
    (∀ l, n < l.number → l.number ≤ m → labels l = own l) → Chain (Instr.flows labels) a code b

namespace Piece

variable {C C' : (Label → Spot) → Prop} {n m k : Nat} {a b c : Spot} {code code' : Code}

theorem of (h : ∀ labels, C labels → Chain (Instr.flows labels) a code b) :
    Piece C n n a code b :=
  ⟨Nat.le_refl n, fun _ => .entry, fun labels hC _ => h labels hC⟩

theorem nil : Piece C n n a [] a := .of fun _ _ => .nil

theorem mono (h : Piece C n m a code b) (hC : ∀ labels, C' labels → C labels) :
    Piece C' n m a code b := by
  obtain ⟨hle, own, hown⟩ := h
  exact ⟨hle, own, fun labels hlabels => hown labels (hC labels hlabels)⟩

theorem both {a' b' : Spot} (h : Piece C n m a code b) (h' : Piece C m k a' code' b') :
    n ≤ k ∧ ∃ own : Label → Spot, ∀ labels, C labels →
      (∀ l, n < l.number → l.number ≤ k → labels l = own l) →
      Chain (Instr.flows labels) a code b ∧ Chain (Instr.flows labels) a' code' b' := by
  obtain ⟨hnm, own, hown⟩ := h
  obtain ⟨hmk, own', hown'⟩ := h'
  refine ⟨Nat.le_trans hnm hmk, fun l => if l.number ≤ m then own l else own' l, ?_⟩
  intro labels hC hlabels
  refine ⟨hown labels hC fun l hn hm => ?_, hown' labels hC fun l hm hk => ?_⟩
  · rw [hlabels l hn (Nat.le_trans hm hmk)]
    exact if_pos hm
  · rw [hlabels l (by omega) hk]
    exact if_neg (by omega)

theorem append (h : Piece C n m a code b) (h' : Piece C m k b code' c) :
    Piece C n k a (code ++ code') c := by
  obtain ⟨hle, own, hown⟩ := h.both h'
  refine ⟨hle, own, fun labels hC hlabels => ?_⟩
  obtain ⟨hfirst, hsecond⟩ := hown labels hC hlabels
  exact hfirst.append hsecond

theorem fresh (s : Spot)
    (h : Piece (fun labels => C labels ∧ labels ⟨n + 1⟩ = s) (n + 1) m a code b) :
    Piece C n m a code b := by
  obtain ⟨hle, own, hown⟩ := h
  refine ⟨by omega, fun l => if l.number = n + 1 then s else own l, ?_⟩
  intro labels hC hlabels
  refine hown labels ⟨hC, ?_⟩ fun l hn hm => ?_
  · rw [hlabels ⟨n + 1⟩ (by simp) hle]
    exact if_pos rfl
  · rw [hlabels l (by omega) hm]
    exact if_neg (by omega)

theorem plain (h : ∀ i ∈ code, i.isPlain) : Piece C n n a code a :=
  .of fun labels _ => .const fun i hi => flows_plain (h i hi) labels a

theorem single {i : Instr} (h : ∀ labels, C labels → i.flows labels a b) : Piece C n n a [i] b :=
  .of fun labels hC => .single (h labels hC)

theorem lower (a : Spot) (bytes : Nat) :
    Piece C n n a (Codegen.lower bytes) (a.lower bytes) := by
  unfold Codegen.lower
  split
  · rename_i h
    subst h
    rw [Spot.lower_zero]
    exact .nil
  · exact .single fun _ _ => ⟨rfl, rfl, rfl⟩

theorem raise (a : Spot) (bytes : Nat) :
    Piece C n n (a.lower bytes) (Codegen.raise bytes) a := by
  unfold Codegen.raise
  split
  · rename_i h
    subst h
    rw [Spot.lower_zero]
    exact .nil
  · refine .single fun _ _ => ⟨rfl, ?_, rfl⟩
    simp [Instr.moves, Operand.isFrame, Register.isFrame, Instr.frameMoves, Spot.lower]

theorem call {name : String} (ha : a.Aligned) (henter : name ≠ Collector.enterSymbol)
    (hexit : name ≠ Collector.exitSymbol) : Piece C n n a [.call name] a :=
  .single fun _ _ => ⟨ha, rfl, by rw [Calls, if_neg henter, if_neg hexit]⟩

theorem trap {condition : Condition} {name : String} (h : isTrap name) :
    Piece C n n a [.jcc condition (.symbol name)] a :=
  .single fun _ _ => ⟨h, rfl⟩

theorem label {l : Label} (h : ∀ labels, C labels → labels l = a) :
    Piece C n n a [.label l] a :=
  .single fun labels hC => ⟨h labels hC, rfl⟩

theorem jump {l : Label} (h : ∀ labels, C labels → labels l = a) :
    Piece C n n a [Instr.jump l] b :=
  .single fun labels hC => h labels hC

theorem jumpIf {condition : Condition} {l : Label} (h : ∀ labels, C labels → labels l = a) :
    Piece C n n a [Instr.jumpIf condition l] a :=
  .single fun labels hC => ⟨h labels hC, rfl⟩

end Piece

section Moves

variable {dst src : Address}

theorem copy_plain (dst src : Address) (size : Nat) : ∀ i ∈ copy dst src size, i.isPlain := by
  intro i hi
  obtain ⟨⟨offset, width⟩, -, hi⟩ := List.mem_flatMap.1 hi
  simp only [List.mem_cons, List.not_mem_nil, or_false] at hi
  rcases hi with rfl | rfl <;> rfl

theorem zero_plain (dst : Address) (size : Nat) : ∀ i ∈ zero dst size, i.isPlain := by
  intro i hi
  obtain ⟨_, -, rfl⟩ := List.mem_map.1 hi
  rfl

theorem loadSized_plain {r : Register} (hr : r.isFrame = false) (address : Address) (size : Nat)
    (signed : Bool) : (loadSized r address size signed).isPlain := by
  unfold loadSized
  split <;> simp [isPlain, mov, Operand.isFrame, hr]

end Moves

end RegionCompiler.Codegen
