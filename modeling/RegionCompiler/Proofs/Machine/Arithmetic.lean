import RegionCompiler.Proofs.Machine.State

/-! Integer arithmetic on words. A comparison leaves flags that tell how its operands compare, as
numbers with a sign and without one; a division gives the quotient and the remainder unless it
faults. -/
namespace RegionCompiler.Machine

def Condition.compares (x y : Word) : Condition → Bool
  | .equal => x = y
  | .notEqual => x ≠ y
  | .less => x.toInt < y.toInt
  | .lessOrEqual => x.toInt ≤ y.toInt
  | .greater => y.toInt < x.toInt
  | .greaterOrEqual => y.toInt ≤ x.toInt
  | .below => x.toNat < y.toNat
  | .belowOrEqual => x.toNat ≤ y.toNat
  | .above => y.toNat < x.toNat
  | .aboveOrEqual => y.toNat ≤ x.toNat
  | .overflow => (x - y).toInt ≠ x.toInt - y.toInt
  | .unordered => false

theorem toInt_bounds (x : Word) : -2 ^ 63 ≤ x.toInt ∧ x.toInt < 2 ^ 63 := by
  have hlow := BitVec.le_toInt x
  have hhigh := BitVec.toInt_lt (x := x)
  omega

theorem toInt_sub_word (x y : Word) :
    (x - y).toInt = (x.toInt - y.toInt + 2 ^ 63) % 2 ^ 64 - 2 ^ 63 := by
  rw [BitVec.toInt_sub, Int.bmod_def]
  split <;> omega

/-- The sign of a difference is wrong exactly if the difference overflows. -/
theorem sign_ne_overflow (x y : Word) :
    (decide ((x - y).toInt < 0) != decide ((x - y).toInt ≠ x.toInt - y.toInt)) =
      decide (x.toInt < y.toInt) := by
  have hx := toInt_bounds x
  have hy := toInt_bounds y
  have hsub := toInt_sub_word x y
  generalize (x - y).toInt = d at hsub ⊢
  by_cases hoverflow : d = x.toInt - y.toInt
  · have hsign : d < 0 ↔ x.toInt < y.toInt := by omega
    simp [hsign, ← hoverflow]
  · have hsign : d < 0 ↔ ¬ x.toInt < y.toInt := by omega
    simp [hsign, hoverflow, ← decide_not]

theorem Condition.holds_ofSub {condition : Condition} (h : condition ≠ .unordered) (x y : Word) :
    condition.holds (.ofSub x y) = some (condition.compares x y) := by
  have hsign := sign_ne_overflow x y
  have heq : x = y ↔ x.toInt = y.toInt := ⟨congrArg _, BitVec.eq_of_toInt_eq⟩
  have heq' : x = y ↔ x.toNat = y.toNat := ⟨congrArg _, BitVec.eq_of_toNat_eq⟩
  have hbne (a b : Bool) : (a == b) = !(a != b) := by cases a <;> cases b <;> rfl
  cases condition with
  | equal => simp [holds, compares]
  | notEqual => simp [holds, compares]
  | less => simp [holds, compares, Flags.ofSub, Flags.ofResult, ← hsign]
  | greaterOrEqual =>
    simp only [holds, compares, Flags.ofSub, Flags.ofResult, Option.pure_def, Option.bind_eq_bind,
      Option.bind_some, hbne, hsign, ← decide_not, Int.not_lt]
  | lessOrEqual =>
    simp only [holds, compares, Flags.zero_ofSub, Option.pure_def, Option.bind_eq_bind,
      Option.bind_some]
    simp only [Flags.ofSub, Flags.ofResult, Option.bind_some, hsign]
    rw [Option.some.injEq, ← Bool.decide_or, decide_eq_decide, heq]
    omega
  | greater =>
    simp only [holds, compares, Flags.zero_ofSub, Option.pure_def, Option.bind_eq_bind,
      Option.bind_some]
    simp only [Flags.ofSub, Flags.ofResult, Option.bind_some, hbne, hsign]
    rw [Option.some.injEq, ← decide_not, ← decide_not, ← Bool.decide_and, decide_eq_decide, heq]
    omega
  | below => simp [holds, compares]
  | aboveOrEqual =>
    simp only [holds, compares, Flags.carry_ofSub, Option.pure_def, Option.bind_eq_bind,
      Option.bind_some, ← decide_not, Nat.not_lt]
  | belowOrEqual =>
    simp only [holds, compares, Flags.zero_ofSub, Flags.carry_ofSub, Option.pure_def,
      Option.bind_eq_bind, Option.bind_some]
    rw [Option.some.injEq, ← Bool.decide_or, decide_eq_decide, heq']
    omega
  | above =>
    simp only [holds, compares, Flags.zero_ofSub, Flags.carry_ofSub, Option.pure_def,
      Option.bind_eq_bind, Option.bind_some]
    rw [Option.some.injEq, ← decide_not, ← decide_not, ← Bool.decide_and, decide_eq_decide, heq']
    omega
  | overflow => rfl
  | unordered => exact absurd rfl h

namespace State

variable {symbols : String → Word} {s : State} {a b : Int}

@[simp] theorem effect_xor (r : Register) (src : Operand) :
    s.effect symbols (.binary .xor_ (.register r .qword) src) =
      some ((s.withFlags (.ofLogic (s.registers r ^^^ s.read symbols src))).set r
        (s.registers r ^^^ s.read symbols src)) := (rfl)

@[simp] theorem effect_and (r : Register) (src : Operand) :
    s.effect symbols (.binary .and_ (.register r .qword) src) =
      some ((s.withFlags (.ofLogic (s.registers r &&& s.read symbols src))).set r
        (s.registers r &&& s.read symbols src)) := (rfl)

@[simp] theorem effect_or (r : Register) (src : Operand) :
    s.effect symbols (.binary .or_ (.register r .qword) src) =
      some ((s.withFlags (.ofLogic (s.registers r ||| s.read symbols src))).set r
        (s.registers r ||| s.read symbols src)) := (rfl)

@[simp] theorem effect_xor_memory (a : Address) (src : Operand) :
    s.effect symbols (.binary .xor_ (.memory .qword a) src) =
      some ((s.withFlags (.ofLogic (s.memory.word
        (s.address symbols a) ^^^ s.read symbols src))).put
        (s.address symbols a) (s.memory.word (s.address symbols a) ^^^ s.read symbols src)) := (rfl)

@[simp] theorem effect_not_memory (a : Address) :
    s.effect symbols (.unary .not_ (.memory .qword a)) =
      some (s.put (s.address symbols a) (~~~s.memory.word (s.address symbols a))) := (rfl)

@[simp] theorem effect_neg_memory (a : Address) :
    s.effect symbols (.unary .neg (.memory .qword a)) =
      some ((s.withFlags (.ofSub 0 (s.memory.word (s.address symbols a)))).put
        (s.address symbols a) (-s.memory.word (s.address symbols a))) := (rfl)

@[simp] theorem effect_cqo : s.effect symbols .cqo =
    some (s.set .rdx (if (s.registers .rax).toInt < 0 then -1 else 0)) := (rfl)

@[simp] theorem effect_idiv (r : Register) : s.effect symbols (.unary .idiv (.register r .qword)) =
    s.divide true (s.registers r) := (rfl)

@[simp] theorem effect_div (r : Register) : s.effect symbols (.unary .div (.register r .qword)) =
    s.divide false (s.registers r) := (rfl)

theorem effect_clear (r : Register) : ∃ f, s.effect symbols
    (.binary .xor_ (.register r .dword) (.register r .dword)) = some ((s.withFlags f).set r 0) :=
  ⟨_, by
    simp [effect, binary, BinaryInstr.computeLow, BinaryInstr.compute, write, Operand.width]
    rfl⟩

theorem toInt_ofInt_word (ha : -2 ^ 63 ≤ a ∧ a < 2 ^ 63) : (BitVec.ofInt 64 a).toInt = a := by
  rw [BitVec.toInt_ofInt, Int.bmod_def]
  split <;> omega

/-- Among signed words only one quotient does not fit into a word. -/
theorem tdiv_bounds (ha : -2 ^ 63 ≤ a ∧ a < 2 ^ 63) (hb : b ≠ 0) :
    -2 ^ 63 ≤ a.tdiv b ∧ a.tdiv b < 2 ^ 63 ↔ ¬ (a = -2 ^ 63 ∧ b = -1) := by
  have habs : (a.tdiv b).natAbs = a.natAbs / b.natAbs := Int.natAbs_tdiv a b
  by_cases hone : b.natAbs = 1
  · rcases Int.natAbs_eq b with h | h <;> rw [hone] at h <;> subst h
    · simp
      omega
    · simp
      omega
  · have hhalf : a.natAbs / b.natAbs ≤ a.natAbs / 2 := Nat.div_le_div_left (by omega) (by omega)
    omega

theorem divide_signed (ha : -2 ^ 63 ≤ a ∧ a < 2 ^ 63) (hb : -2 ^ 63 ≤ b ∧ b < 2 ^ 63)
    (hrax : s.registers .rax = BitVec.ofInt 64 a)
    (hrdx : s.registers .rdx = if a < 0 then -1 else 0) :
    s.divide true (BitVec.ofInt 64 b) =
      if b ≠ 0 ∧ ¬ (a = -2 ^ 63 ∧ b = -1) then
        some (((s.withFlags .undefined).set .rax (BitVec.ofInt 64 (a.tdiv b))).set .rdx
          (BitVec.ofInt 64 (a.tmod b)))
      else none := by
  have hdividend : (s.registers .rdx).toInt * 2 ^ 64 + ((s.registers .rax).toNat : Int) = a := by
    rw [hrax, hrdx, BitVec.toNat_ofInt]
    split
    · have hminus : (-1 : Word).toInt = -1 := by decide
      rw [hminus]
      omega
    · have hzero : (0 : Word).toInt = 0 := by decide
      rw [hzero]
      omega
  unfold divide
  simp only [if_true, hdividend, toInt_ofInt_word hb]
  refine if_congr (and_congr_right fun hne => tdiv_bounds ha hne) rfl rfl

theorem divide_unsigned (ha : 0 ≤ a ∧ a < 2 ^ 64) (hb : 0 ≤ b ∧ b < 2 ^ 64)
    (hrax : s.registers .rax = BitVec.ofInt 64 a) (hrdx : s.registers .rdx = 0) :
    s.divide false (BitVec.ofInt 64 b) =
      if b ≠ 0 then
        some (((s.withFlags .undefined).set .rax (BitVec.ofInt 64 (a.tdiv b))).set .rdx
          (BitVec.ofInt 64 (a.tmod b)))
      else none := by
  have hdividend : ((s.registers .rdx).toNat : Int) * 2 ^ 64 + ((s.registers .rax).toNat : Int) =
      a := by
    rw [hrax, hrdx, BitVec.toNat_ofInt]
    have hzero : (0 : Word).toNat = 0 := by decide
    rw [hzero]
    omega
  have hdivisor : ((BitVec.ofInt 64 b).toNat : Int) = b := by
    rw [BitVec.toNat_ofInt]
    omega
  have hfits : a.tdiv b < 2 ^ 64 := by
    have hle := Int.tdiv_le_self b ha.1
    omega
  unfold divide
  simp only [Bool.false_eq_true, if_false, hdividend, hdivisor]
  exact if_congr (and_iff_left hfits) rfl rfl

end State

end RegionCompiler.Machine
