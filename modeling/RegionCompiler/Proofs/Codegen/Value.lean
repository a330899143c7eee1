import RegionCompiler.Proofs.Codegen.Move
import RegionCompiler.Proofs.Machine.Process
import RegionCompiler.Proofs.Semantics

/-! Values in memory. Only the low bytes of a slot count; what is above them is left over from
whatever put the value there. -/
namespace RegionCompiler.Codegen

open Machine Machine.Instr Semantics

theorem bmod_word (v : Int) : v.bmod (2 ^ 64) = (v + 2 ^ 63) % 2 ^ 64 - 2 ^ 63 := by
  rw [Int.bmod_def]
  split <;> omega

theorem bmod_half (v : Int) : v.bmod (2 ^ 32) = (v + 2 ^ 31) % 2 ^ 32 - 2 ^ 31 := by
  rw [Int.bmod_def]
  split <;> omega

end RegionCompiler.Codegen

namespace RegionCompiler.Semantics.Scalar

open Machine

/-- The low bytes at an address are those of a value of the type. -/
def Holds (k : Scalar) (m : Memory) (a : Word) (v : Int) : Prop :=
  k.Range v ∧ (m.load a k.bytes : Int) = v % 256 ^ k.bytes

theorem wrap_int (v : Int) : int.wrap v = (v + 2 ^ 63) % 2 ^ 64 - 2 ^ 63 := Codegen.bmod_word v

theorem wrap_i32 (v : Int) : i32.wrap v = (v + 2 ^ 31) % 2 ^ 32 - 2 ^ 31 := Codegen.bmod_half v

theorem range_int {v : Int} : int.Range v ↔ -2 ^ 63 ≤ v ∧ v < 2 ^ 63 := by
  rw [Range, wrap_int]
  omega

theorem range_i32 {v : Int} : i32.Range v ↔ -2 ^ 31 ≤ v ∧ v < 2 ^ 31 := by
  rw [Range, wrap_i32]
  omega

theorem range_byte {v : Int} : byte.Range v ↔ 0 ≤ v ∧ v < 2 ^ 8 := by
  simp only [Range, wrap]
  omega

theorem range_bool {v : Int} : bool.Range v ↔ v = 0 ∨ v = 1 := by
  simp only [Range, wrap]
  omega

theorem range_wrap (k : Scalar) (v : Int) : k.Range (k.wrap v) := by
  cases k with
  | int =>
    rw [range_int, wrap_int]
    omega
  | i32 =>
    rw [range_i32, wrap_i32]
    omega
  | byte =>
    rw [range_byte, wrap]
    omega
  | bool =>
    rw [range_bool, wrap]
    omega

/-- Wrapping keeps the low bytes, except that a truth value has only one bit. -/
theorem wrap_emod {k : Scalar} (hk : k ≠ bool) (v : Int) :
    k.wrap v % 256 ^ k.bytes = v % 256 ^ k.bytes := by
  cases k with
  | int =>
    rw [wrap_int, bytes]
    omega
  | i32 =>
    rw [wrap_i32, bytes]
    omega
  | byte =>
    rw [wrap, bytes]
    omega
  | bool => exact absurd rfl hk

namespace Holds

variable {k : Scalar} {m m' : Memory} {a : Word} {v x : Int}

theorem congr (h : k.Holds m a v)
    (hm : ∀ n < k.bytes, m' (a + BitVec.ofNat 64 n) = m (a + BitVec.ofNat 64 n)) :
    k.Holds m' a v :=
  ⟨h.1, by rw [Memory.load_congr hm, h.2]⟩

end Holds

end RegionCompiler.Semantics.Scalar

namespace RegionCompiler.Codegen

open Machine Machine.Instr Semantics

section Moves

variable {symbols : String → Word} {s : State} {k : Scalar} {v : Int}

theorem loadInteger_effect {a : Address} (h : k.Holds s.memory (s.address symbols a) v)
    (r : Register) :
    s.effect symbols (loadInteger r a k.bytes k.ty) = some (s.set r (BitVec.ofInt 64 v)) := by
  obtain ⟨hrange, hload⟩ := h
  cases k with
  | int =>
    have hword : BitVec.ofNat 64 (s.memory.load (s.address symbols a) 8) = BitVec.ofInt 64 v := by
      apply BitVec.eq_of_toNat_eq
      simp only [Scalar.bytes] at hload
      simp only [BitVec.toNat_ofNat, BitVec.toNat_ofInt]
      omega
    change some (s.set r (BitVec.ofNat 64 (s.memory.load (s.address symbols a) 8))) = _
    rw [hword]
  | i32 =>
    have hword : (BitVec.ofNat 32 (s.memory.load (s.address symbols a) 4)).toInt = v := by
      simp only [Scalar.bytes] at hload
      rw [Scalar.range_i32] at hrange
      rw [BitVec.toInt_ofNat', hload, bmod_half]
      omega
    change some (s.set r (BitVec.ofInt 64 _)) = _
    rw [hword]
  | byte =>
    have hword : BitVec.ofNat 64 (s.memory.load (s.address symbols a) 1) = BitVec.ofInt 64 v := by
      apply BitVec.eq_of_toNat_eq
      simp only [Scalar.bytes] at hload
      rw [Scalar.range_byte] at hrange
      simp only [BitVec.toNat_ofNat, BitVec.toNat_ofInt]
      omega
    change some (s.set r (BitVec.ofNat 64 (s.memory.load (s.address symbols a) 1))) = _
    rw [hword]
  | bool =>
    have hword : BitVec.ofNat 64 (s.memory.load (s.address symbols a) 1) = BitVec.ofInt 64 v := by
      apply BitVec.eq_of_toNat_eq
      simp only [Scalar.bytes] at hload
      rw [Scalar.range_bool] at hrange
      simp only [BitVec.toNat_ofNat, BitVec.toNat_ofInt]
      omega
    change some (s.set r (BitVec.ofNat 64 (s.memory.load (s.address symbols a) 1))) = _
    rw [hword]

end Moves

end RegionCompiler.Codegen
