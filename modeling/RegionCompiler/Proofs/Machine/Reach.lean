import RegionCompiler.Proofs.Machine.Mention

/-! How far numbers in instructions reach. A number that is in reach of four bytes can be expressed
in machine code, and one that is in reach of a word can be counted. -/
namespace RegionCompiler.Machine

/-- Limits on sizes, and the limits on numbers that they imply. Two values and what lies between
them are still in reach of the stack pointer. -/
structure Reach where
  /-- All numbers are less. -/
  word : Nat
  /-- Displacements in a frame are less, on both sides of the base pointer. -/
  frame : Nat
  value : Nat
  arguments : Nat
  aligned : 16 ∣ value
  value_ge : 16 ≤ value
  values : 2 * value + 16 < word
  parts : value + arguments ≤ word
  value_le_arguments : value ≤ arguments
  value_le_frame : value ≤ frame
  arguments_lt : arguments < word
  frame_gt : 64 < frame
  frame_le : frame ≤ word

variable {R : Reach}

def Reach.Holds (R : Reach) (v : Int) : Prop := -(R.frame : Int) < v ∧ v < R.word

def Address.Within (R : Reach) (a : Address) : Prop :=
  R.Holds a.displacement ∧ (a.base = .register .rbp → a.displacement < R.frame)

def Operand.Within (R : Reach) : Operand → Prop
  | .register _ _ => True
  | .memory _ a => a.Within R
  | .immediate v => R.Holds v

/-- An instruction with its numbers in reach. What is moved to all of a register takes eight bytes
anyway. -/
def Instr.Within (R : Reach) : Instr → Prop
  | .binary .mov (.register _ .qword) (.immediate _) => True
  | .binary _ dst src => dst.Within R ∧ src.Within R
  | .unary _ operand => operand.Within R
  | .lea _ a | .movsxd _ a | .movzx _ _ a | .loadFloat _ _ a | .storeFloat _ a _ => a.Within R
  | .btc _ a bit => a.Within R ∧ R.Holds bit
  | _ => True

namespace Reach

theorem holds_nat {n : Nat} : R.Holds n ↔ n < R.word := by
  have := R.frame_gt
  unfold Holds
  omega

theorem holds_small {v : Int} (h : v.natAbs ≤ 64) : R.Holds v ∧ v < R.frame := by
  have := R.frame_gt
  have := R.frame_le
  unfold Holds
  omega

end Reach

namespace Address

variable {a : Address} {n : Nat}

@[simp] theorem displacement_offset (a : Address) (n : Nat) :
    (a.offset n).displacement = a.displacement + n := rfl

@[simp] theorem displacement_stack (n : Nat) : (stack n).displacement = n := rfl

@[simp] theorem displacement_frame (v : Int) : (frame v).displacement = v := rfl

@[simp] theorem within_stack : (stack n).Within R ↔ n < R.word := by
  simp [Within, Reach.holds_nat, stack, at_]

@[simp] theorem within_ofSymbol {name : String} : (ofSymbol name).Within R := by
  have := (Reach.holds_small (R := R) (v := 0) (by decide)).1
  simpa [Within, ofSymbol] using this

theorem within_frame {v : Int} (h : -(R.frame : Int) < v) (h' : v < R.frame) :
    (frame v).Within R := by
  have := R.frame_le
  exact ⟨⟨h, by rw [displacement_frame]; omega⟩, fun _ => h'⟩

theorem within_at {r : Register} (h : n < R.value) : (at_ r n).Within R := by
  have := R.value_le_frame
  have := R.values
  exact ⟨Reach.holds_nat.2 (by omega), fun _ => by simp only [at_]; omega⟩

theorem within_of_small (h : a.displacement.natAbs ≤ 64) : a.Within R :=
  ⟨(Reach.holds_small h).1, fun _ => (Reach.holds_small h).2⟩

theorem Within.isCounted (h : a.Within R) (hword : R.word ≤ 0x10000000000000000)
    (hframe : R.frame ≤ 0x8000000000000000) :
    a.isCounted := by
  obtain ⟨⟨hlow, hhigh⟩, hbase⟩ := h
  unfold Address.isCounted
  split
  case h_1 hrbp =>
    have := hbase hrbp
    simp only [Bool.and_eq_true, Bool.or_eq_true, decide_eq_true_eq]
    omega
  case h_2 =>
    simp only [decide_eq_true_eq]
    omega

end Address

namespace Operand

variable {o : Operand}

theorem Within.numbers (h : o.Within R) : ∀ v ∈ o.numbers, R.Holds v := by
  cases o with
  | register r w => exact fun v hv => absurd hv List.not_mem_nil
  | memory w a => exact List.forall_mem_singleton.2 h.1
  | immediate v => exact List.forall_mem_singleton.2 h

theorem within_of_small (h : ∀ v ∈ o.numbers, v.natAbs ≤ 64) : o.Within R := by
  cases o with
  | register r w => trivial
  | memory w a => exact Address.within_of_small (h _ List.mem_cons_self)
  | immediate v => exact (Reach.holds_small (h _ List.mem_cons_self)).1

theorem Within.isCounted (h : o.Within R) (hword : R.word ≤ 0x10000000000000000)
    (hframe : R.frame ≤ 0x8000000000000000) :
    o.isCounted := by
  cases o with
  | register r w => rfl
  | memory w a => exact Address.Within.isCounted h hword hframe
  | immediate v =>
    have := h.2
    simp only [Operand.isCounted, decide_eq_true_eq]
    omega

end Operand

namespace Instr

variable {i : Instr} {a : Address} {r : Register} {w : Width} {n : Nat}

@[simp] theorem within_load : (mov (.register r w) (.memory w a)).Within R ↔ a.Within R := by
  cases w <;> simp [Within, mov, Operand.Within]

@[simp] theorem within_store : (mov (.memory w a) (.register r w)).Within R ↔ a.Within R := by
  simp [Within, mov, Operand.Within]

@[simp] theorem within_storeImmediate {v : Int} :
    (movImm (.memory w a) v).Within R ↔ a.Within R ∧ R.Holds v := by
  simp [Within, movImm, Operand.Within]

@[simp] theorem within_unary {op : UnaryInstr} :
    (Instr.unary op (.memory w a)).Within R ↔ a.Within R := Iff.rfl

@[simp] theorem within_lea : (Instr.lea r a).Within R ↔ a.Within R := Iff.rfl

@[simp] theorem within_loadFloat {p : Precision} {x : Xmm} :
    (Instr.loadFloat p x a).Within R ↔ a.Within R := Iff.rfl

@[simp] theorem within_storeFloat {p : Precision} {x : Xmm} :
    (Instr.storeFloat p a x).Within R ↔ a.Within R := Iff.rfl

theorem Within.numbers (h : i.Within R) : ∀ v ∈ i.numbers, R.Holds v := by
  unfold Instr.numbers
  split
  case h_2 =>
    rw [Within] at h
    · exact List.forall_mem_append.2 ⟨h.1.numbers, h.2.numbers⟩
    · assumption
  case h_3 => exact Operand.Within.numbers h
  case h_9 =>
    exact List.forall_mem_append.2 ⟨List.forall_mem_singleton.2 h.1.1,
      List.forall_mem_singleton.2 h.2⟩
  all_goals first
    | exact fun v hv => absurd hv List.not_mem_nil
    | exact List.forall_mem_singleton.2 h.1

theorem within_of_small (h : ∀ v ∈ i.numbers, v.natAbs ≤ 64) : i.Within R := by
  unfold Within
  split
  case h_2 =>
    rw [Instr.numbers] at h
    · obtain ⟨hdst, hsrc⟩ := List.forall_mem_append.1 h
      exact ⟨Operand.within_of_small hdst, Operand.within_of_small hsrc⟩
    · assumption
  case h_3 => exact Operand.within_of_small h
  case h_9 =>
    exact ⟨Address.within_of_small (h _ List.mem_cons_self),
      (Reach.holds_small (h _ (by simp [Instr.numbers]))).1⟩
  all_goals first
    | trivial
    | exact Address.within_of_small (h _ List.mem_cons_self)

theorem Within.isCounted (h : i.Within R) (hword : R.word ≤ 0x10000000000000000)
    (hframe : R.frame ≤ 0x8000000000000000) :
    i.isCounted := by
  unfold Instr.isCounted
  split
  case h_2 =>
    rename_i hne
    rw [Within] at h
    · exact Bool.and_eq_true_iff.2 ⟨h.1.isCounted hword hframe, h.2.isCounted hword hframe⟩
    · rintro r v rfl rfl rfl
      exact hne r .qword v rfl rfl rfl
  case h_3 => exact Operand.Within.isCounted h hword hframe
  case h_7 => exact h.1.isCounted hword hframe
  all_goals first
    | rfl
    | exact Address.Within.isCounted h hword hframe

end Instr

end RegionCompiler.Machine
