import RegionCompiler.Proofs.Codegen.Contents
import RegionCompiler.Proofs.Typing.Parts

/-! Where references lead. The code of a reference pushes an address and follows the accessors from
there: members lie at offsets, pointers are read, and elements lie behind the start of their array,
unless the index is out of bounds. -/
namespace RegionCompiler

open Machine Codegen Typing

namespace Semantics

/-- What a reference reads on its way. -/
inductive Visit
  | pointer (a : Word)
  /-- The record of an array at an address, with the size of an element and an index. -/
  | element (a : Word) (size : Nat) (index : Word)

namespace Visit

def start : Visit → Word
  | pointer a | element a _ _ => a

/-- How many bytes are read. -/
def bytes : Visit → Nat
  | pointer _ => 8
  | element _ _ _ => 16

def target (m : Memory) : Visit → Word
  | pointer a => m.word a
  | element a size index => m.word a + index * BitVec.ofInt 64 size

/-- The index is out of bounds, both taken without a sign. -/
def IsOutside (m : Memory) : Visit → Prop
  | pointer _ => False
  | element a _ index => m.word (displace a 8) ≤ index

instance (m : Memory) : DecidablePred (IsOutside m)
  | pointer _ => inferInstanceAs (Decidable False)
  | element a _ index => inferInstanceAs (Decidable (m.word (displace a 8) ≤ index))

/-- What the check of an index is good for: a negative index is out of bounds, unless an array of
bytes takes half of all memory, and an element that is not lies inside its array. -/
structure Checked (m : Memory) (a : Word) (size : Nat) (index : Word) : Prop where
  negative : index.toInt < 0 → 0 ≤ (m.word (displace a 8)).toInt ∨ 2 ≤ size ∧
      (m.word a).toNat + (m.word (displace a 8)).toNat * size ≤ 2 ^ 64 →
    (element a size index).IsOutside m
  within : ¬ (element a size index).IsOutside m →
    (m.word a).toNat + (m.word (displace a 8)).toNat * size ≤ 2 ^ 64 →
    (m.word a).toNat ≤ ((element a size index).target m).toNat ∧
      ((element a size index).target m).toNat + size ≤
        (m.word a).toNat + (m.word (displace a 8)).toNat * size

theorem checked (m : Memory) (a : Word) (size : Nat) (index : Word) : Checked m a size index := by
  refine ⟨fun h hlength => ?_, fun h hwrap => ?_⟩
  · change (m.word (displace a 8)).toNat ≤ index.toNat
    have hhigh : 2 ^ 63 ≤ index.toNat := by
      rw [BitVec.toInt_eq_toNat_cond] at h
      split at h <;> omega
    rcases hlength with hlength | ⟨hsize, hwrap⟩
    · rw [BitVec.toInt_eq_toNat_cond] at hlength
      split at hlength <;> omega
    · have htwo := Nat.mul_le_mul_left (m.word (displace a 8)).toNat hsize
      omega
  · have hlt : index.toNat < (m.word (displace a 8)).toNat := Nat.not_le.1 h
    have hend : index.toNat * size + size ≤ (m.word (displace a 8)).toNat * size := by
      rw [← Nat.succ_mul]
      exact Nat.mul_le_mul_right size hlt
    have htarget : ((element a size index).target m).toNat =
        ((m.word a).toNat + index.toNat * size) % 2 ^ 64 := by
      rw [target, BitVec.ofInt_natCast, BitVec.toNat_add, BitVec.toNat_mul, BitVec.toNat_ofNat]
      simp [Nat.add_mod, Nat.mul_mod]
    have hfits : (m.word a).toNat + index.toNat * size < 2 ^ 64 := by
      have hstart := (m.word a).isLt
      rcases Nat.eq_zero_or_pos size with rfl | hsize <;> omega
    rw [htarget, Nat.mod_eq_of_lt hfits]
    omega

end Visit

inductive Destination
  | address (a : Word)
  | outside
  /-- An index has no value. -/
  | faults

structure Walk where
  visits : List Visit
  destination : Destination

/-- The way of a reference with one visit before it. It ends there if the index is out of bounds. -/
def Visit.follow (v : Visit) (m : Memory) (rest : Word → Walk) : Walk :=
  if v.IsOutside m then ⟨[v], .outside⟩
  else ⟨v :: (rest (v.target m)).visits, (rest (v.target m)).destination⟩

/-- Where accessors lead from something of a type at an address. -/
def walk (layouts : Registry) (value : Expr → Option Int) (m : Memory) :
    Ty → List Accessor → Word → Walk
  | _, [], a => ⟨[], .address a⟩
  | .base record, .member _ name :: rest, a =>
    match (layouts.get? record).bind (·.member? name.value) with
    | some member => walk layouts value m member.ty rest (displace a member.offset)
    | none => ⟨[], .faults⟩
  | .pointer target, .dereference _ :: rest, a =>
    (Visit.pointer a).follow m fun b => walk layouts value m target rest b
  | .array element _, .index _ position :: rest, a =>
    match value position with
    | some index =>
      (Visit.element a (sizeIn layouts element) (BitVec.ofInt 64 index)).follow m fun b =>
        walk layouts value m element rest b
    | none => ⟨[], .faults⟩
  | _, _ :: _, _ => ⟨[], .faults⟩

section Walking

variable {layouts : Registry} {value : Expr → Option Int} {m : Memory}

end Walking

end Semantics

namespace Codegen

open Machine.Instr Semantics

section Steps

variable {m : Image} {w : StackArea} {d i : Nat} {s t u : State} {a : Word}

end Steps

namespace Setting

/-- Where the way of a reference ends in its code. -/
def Reaches (c : Setting) (d : Nat) (s : State) (finish trap : Nat) :
    Destination → Nat → State → Prop
  | .address a => fun j t => j = finish ∧ c.work.Pushes d (· = a) s t
  | .outside => fun j _ => j = trap
  | .faults => c.Stops

/-- Code that follows accessors from the address of something of a type on top of the stack. -/
def Follows (c : Setting) (store : Store) (base : Ty) (accessors : List Accessor) (code : Code) :
    Prop :=
  ∀ {i d s u a trap}, Sits c.image.code i code → 16 ∣ d →
    d + 16 + stackOfAll c.room (accessors.flatMap Accessor.expressions) ≤ c.work.limit →
    c.Backs store d s → positionOf c.image.code (.symbol Collector.boundsTrap) = some trap →
    (∀ v ∈ (walk c.env.layouts (eval c.call store) s.memory base accessors a).visits,
      ∀ n < v.bytes, c.work.Safe d (v.start + BitVec.ofNat 64 n)) →
    c.work.Pushes d (· = a) s u →
    c.image.Arrives i u (c.Reaches d s (i + code.length) trap
      (walk c.env.layouts (eval c.call store) s.memory base accessors a).destination)

variable {c : Setting} {store : Store} {base : Ty} {accessors : List Accessor} {code : Code}

end Setting

variable {c : Setting} {store : Store}

end Codegen

section Accepted

variable {isFile : String → Bool} {platform : Platform} {path text : String} {layouts : Registry}
  {p : Program} {out : Codegen.Output} {r : Routine}

open Semantics

end Accepted

end RegionCompiler
