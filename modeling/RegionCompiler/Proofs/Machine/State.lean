import Mathlib
import RegionCompiler.Machine.Instr
import RegionCompiler.Number.Binary

/-! What instructions do to the registers and to memory. Floating-point arithmetic is left out, so a
run stops at it; numbers are only loaded, stored and widened. The same holds of conditions on flags
that an instruction leaves undefined, and of divisions that fault. -/
namespace RegionCompiler.Machine

abbrev Word := BitVec 64

/-- The address a number of bytes away. Addresses wrap around. -/
def displace (a : Word) (bytes : Int) : Word := a + BitVec.ofInt 64 bytes

@[simp] theorem displace_zero (a : Word) : displace a 0 = a := by
  simp [displace]

@[simp] theorem displace_displace (a : Word) (i j : Int) :
    displace (displace a i) j = displace a (i + j) := by
  rw [displace, displace, displace, BitVec.ofInt_add, BitVec.add_assoc]

theorem displace_add (a : Word) (i : Int) (n : Nat) :
    displace a i + BitVec.ofNat 64 n = displace a (i + n) := by
  rw [← displace_displace, displace.eq_def _ (n : Int), BitVec.ofInt_natCast]

theorem sub_ofInt (a : Word) (i : Int) : a - BitVec.ofInt 64 i = displace a (-i) := by
  rw [displace, BitVec.ofInt_neg, BitVec.sub_eq_add_neg]

theorem add_ofNat_sub (a x : Word) : a + BitVec.ofNat 64 (x - a).toNat = x := by
  rw [BitVec.ofNat_toNat, BitVec.setWidth_eq, BitVec.add_comm, BitVec.sub_add_cancel]

abbrev Memory := Word → BitVec 8

namespace Memory

/-- The number in some bytes, the lowest of them first. -/
def load (m : Memory) (a : Word) : Nat → Nat
  | 0 => 0
  | n + 1 => (m a).toNat + 256 * load m (a + 1) n

/-- Only the low bytes of the number are stored. -/
def store (m : Memory) (a : Word) (n value : Nat) : Memory := fun x =>
  if (x - a).toNat < n then BitVec.ofNat 8 (value / 256 ^ (x - a).toNat) else m x

theorem load_lt (m : Memory) (a : Word) (n : Nat) : m.load a n < 256 ^ n := by
  induction n generalizing a with
  | zero => exact Nat.one_pos
  | succ n ih =>
    have hbyte := (m a).isLt
    have hrest := ih (a + 1)
    rw [load, Nat.pow_succ]
    omega

theorem load_congr {m m' : Memory} {a a' : Word} {n : Nat}
    (h : ∀ k < n, m (a + BitVec.ofNat 64 k) = m' (a' + BitVec.ofNat 64 k)) :
    m.load a n = m'.load a' n := by
  induction n generalizing a a' with
  | zero => rfl
  | succ n ih =>
    have hfirst := h 0 (by omega)
    have hrest : m.load (a + 1) n = m'.load (a' + 1) n := by
      refine ih fun k hk => ?_
      have hnext := h (k + 1) (by omega)
      rw [Nat.add_comm k 1, BitVec.ofNat_add, ← BitVec.add_assoc, ← BitVec.add_assoc] at hnext
      exact hnext
    simp only [BitVec.add_zero] at hfirst
    rw [load, load, hfirst, hrest]

theorem store_other {m : Memory} {a x : Word} {n value : Nat} (h : n ≤ (x - a).toNat) :
    m.store a n value x = m x :=
  if_neg (by omega)

theorem store_byte (m : Memory) {a : Word} {n value k : Nat} (hk : k < n) (hn : n ≤ 2 ^ 64) :
    m.store a n value (a + BitVec.ofNat 64 k) = BitVec.ofNat 8 (value / 256 ^ k) := by
  have hsub : (a + BitVec.ofNat 64 k - a).toNat = k := by
    rw [BitVec.add_comm, BitVec.add_sub_cancel, BitVec.toNat_ofNat]
    exact Nat.mod_eq_of_lt (by omega)
  unfold store
  rw [hsub, if_pos hk]

theorem load_store_part (m : Memory) (a : Word) {n value : Nat} (hn : n ≤ 2 ^ 64) {j k : Nat}
    (hk : j + k ≤ n) :
    (m.store a n value).load (a + BitVec.ofNat 64 j) k = value / 256 ^ j % 256 ^ k := by
  induction k generalizing j with
  | zero => rw [load, Nat.pow_zero, Nat.mod_one]
  | succ k ih =>
    have hnext : a + BitVec.ofNat 64 j + 1 = a + BitVec.ofNat 64 (j + 1) := by
      rw [BitVec.ofNat_add, ← BitVec.add_assoc]
      rfl
    rw [load, hnext, ih (by omega), store_byte m (by omega) hn, BitVec.toNat_ofNat,
      Nat.pow_succ 256 j, ← Nat.div_div_eq_div_mul, Nat.pow_succ 256 k, Nat.mul_comm (256 ^ k),
      Nat.mod_mul]

theorem load_store (m : Memory) (a : Word) {n k : Nat} (value : Nat) (hn : n ≤ 2 ^ 64)
    (hk : k ≤ n) : (m.store a n value).load a k = value % 256 ^ k := by
  have h : (m.store a n value).load (a + BitVec.ofNat 64 0) k = value / 256 ^ 0 % 256 ^ k :=
    load_store_part m a hn (by omega)
  simpa using h

/-- The eight bytes at an address. -/
def word (m : Memory) (a : Word) : Word := BitVec.ofNat 64 (m.load a 8)

def put (m : Memory) (a value : Word) : Memory := m.store a 8 value.toNat

/-- Two words that share no byte. -/
def Apart (a b : Word) : Prop := 8 ≤ (a - b).toNat ∧ 8 ≤ (b - a).toNat

theorem Apart.symm {a b : Word} (h : Apart a b) : Apart b a := ⟨h.2, h.1⟩

theorem put_other {m : Memory} {a x value : Word} (h : 8 ≤ (x - a).toNat) :
    m.put a value x = m x :=
  store_other h

theorem word_congr {m m' : Memory} {a a' : Word}
    (h : ∀ k < 8, m (a + BitVec.ofNat 64 k) = m' (a' + BitVec.ofNat 64 k)) :
    m.word a = m'.word a' := by
  rw [word, word, load_congr h]

@[simp] theorem word_put (m : Memory) (a value : Word) : (m.put a value).word a = value := by
  rw [word, put, load_store m a value.toNat (by omega) (Nat.le_refl 8)]
  apply BitVec.eq_of_toNat_eq
  rw [BitVec.toNat_ofNat]
  omega

theorem word_put_apart {m : Memory} {a b value : Word} (h : Apart a b) :
    (m.put a value).word b = m.word b := by
  refine word_congr fun k hk => put_other ?_
  obtain ⟨hab, hba⟩ := h
  have hadd : b + BitVec.ofNat 64 k - a = b - a + BitVec.ofNat 64 k := by
    rw [BitVec.sub_eq_add_neg, BitVec.sub_eq_add_neg, BitVec.add_assoc, BitVec.add_assoc,
      BitVec.add_comm (BitVec.ofNat 64 k)]
  have hneg : (a - b).toNat = (2 ^ 64 - (b - a).toNat) % 2 ^ 64 := by
    rw [← BitVec.toNat_neg, BitVec.neg_sub, BitVec.add_comm, ← BitVec.sub_eq_add_neg]
  rw [hadd, BitVec.toNat_add, BitVec.toNat_ofNat]
  omega

end Memory

/-- Flags that are not known are undefined. -/
structure Flags where
  zero : Option Bool
  sign : Option Bool
  carry : Option Bool
  overflow : Option Bool

namespace Flags

def undefined : Flags := ⟨none, none, none, none⟩

def ofResult {n : Nat} (r : BitVec n) (carry overflow : Bool) : Flags :=
  ⟨some (decide (r = 0)), some (decide (r.toInt < 0)), some carry, some overflow⟩

def ofAdd {n : Nat} (a b : BitVec n) : Flags :=
  ofResult (a + b) (decide (2 ^ n ≤ a.toNat + b.toNat))
    (decide ((a + b).toInt ≠ a.toInt + b.toInt))

def ofSub {n : Nat} (a b : BitVec n) : Flags :=
  ofResult (a - b) (decide (a.toNat < b.toNat)) (decide ((a - b).toInt ≠ a.toInt - b.toInt))

def ofLogic {n : Nat} (r : BitVec n) : Flags := ofResult r false false

@[simp] theorem carry_ofSub {n : Nat} (a b : BitVec n) :
    (ofSub a b).carry = some (decide (a.toNat < b.toNat)) := rfl

@[simp] theorem zero_ofSub {n : Nat} (a b : BitVec n) : (ofSub a b).zero = some
    (decide (a = b)) := by
  have h : a - b = 0#n ↔ a = b := by
    rw [← BitVec.add_left_inj b, BitVec.sub_add_cancel, BitVec.zero_add]
  simp [ofSub, ofResult, h]

@[simp] theorem zero_ofLogic {n : Nat} (r : BitVec n) :
    (ofLogic r).zero = some (decide (r = 0#n)) := rfl

end Flags

/-- Whether a condition holds, if the flags it reads are defined. -/
def Condition.holds (f : Flags) : Condition → Option Bool
  | .equal => f.zero
  | .notEqual => do return !(← f.zero)
  | .less => do return (← f.sign) != (← f.overflow)
  | .greaterOrEqual => do return (← f.sign) == (← f.overflow)
  | .lessOrEqual => do return (← f.zero) || (← f.sign) != (← f.overflow)
  | .greater => do return !(← f.zero) && (← f.sign) == (← f.overflow)
  | .below => f.carry
  | .aboveOrEqual => do return !(← f.carry)
  | .belowOrEqual => do return (← f.zero) || (← f.carry)
  | .above => do return !(← f.zero) && !(← f.carry)
  | .overflow => f.overflow
  | .unordered => none

/-- A call of a C function, as it was made. -/
structure Call where
  name : String
  registers : Register → Word
  blocks : Word → Option Nat

structure State where
  registers : Register → Word
  /-- The low eight bytes of the vector registers. -/
  vectors : Xmm → Word
  memory : Memory
  flags : Flags
  /-- The sizes of the blocks that the C library has handed out. -/
  blocks : Word → Option Nat
  /-- The calls of the C library that were made, the oldest first. -/
  calls : List Call

namespace State

def set (s : State) (r : Register) (value : Word) : State :=
  { s with registers := fun r' => if r' = r then value else s.registers r' }

def setVector (s : State) (x : Xmm) (value : Word) : State :=
  { s with vectors := fun x' => if x' = x then value else s.vectors x' }

def put (s : State) (a value : Word) : State := { s with memory := s.memory.put a value }

def withFlags (s : State) (flags : Flags) : State := { s with flags }

def withMemory (s : State) (memory : Memory) : State := { s with memory }

section Views

variable (s : State) (r r' : Register) (x : Xmm) (a value : Word) (f : Flags) (m : Memory)

@[simp] theorem registers_set :
    (s.set r value).registers r' = if r' = r then value else s.registers r' := rfl

@[simp] theorem vectors_set : (s.set r value).vectors = s.vectors := rfl

@[simp] theorem memory_set : (s.set r value).memory = s.memory := rfl

@[simp] theorem flags_set : (s.set r value).flags = s.flags := rfl

@[simp] theorem blocks_set : (s.set r value).blocks = s.blocks := rfl

@[simp] theorem calls_set : (s.set r value).calls = s.calls := rfl

@[simp] theorem registers_setVector : (s.setVector x value).registers = s.registers := rfl

@[simp] theorem memory_setVector : (s.setVector x value).memory = s.memory := rfl

@[simp] theorem registers_put : (s.put a value).registers = s.registers := rfl

@[simp] theorem vectors_put : (s.put a value).vectors = s.vectors := rfl

@[simp] theorem memory_put : (s.put a value).memory = s.memory.put a value := rfl

@[simp] theorem flags_put : (s.put a value).flags = s.flags := rfl

@[simp] theorem blocks_put : (s.put a value).blocks = s.blocks := rfl

@[simp] theorem calls_put : (s.put a value).calls = s.calls := rfl

@[simp] theorem registers_withFlags : (s.withFlags f).registers = s.registers := rfl

@[simp] theorem memory_withFlags : (s.withFlags f).memory = s.memory := rfl

@[simp] theorem flags_withFlags : (s.withFlags f).flags = f := rfl

@[simp] theorem blocks_withFlags : (s.withFlags f).blocks = s.blocks := rfl

@[simp] theorem vectors_withFlags : (s.withFlags f).vectors = s.vectors := rfl

@[simp] theorem calls_withFlags : (s.withFlags f).calls = s.calls := rfl

@[simp] theorem registers_withMemory : (s.withMemory m).registers = s.registers := rfl

@[simp] theorem vectors_withMemory : (s.withMemory m).vectors = s.vectors := rfl

@[simp] theorem memory_withMemory : (s.withMemory m).memory = m := rfl

@[simp] theorem blocks_withMemory : (s.withMemory m).blocks = s.blocks := rfl

@[simp] theorem calls_withMemory : (s.withMemory m).calls = s.calls := rfl

@[simp] theorem set_withMemory : (s.withMemory m).set r value = (s.set r value).withMemory m := rfl

@[simp] theorem withMemory_withMemory (m' : Memory) :
    (s.withMemory m).withMemory m' = s.withMemory m' := rfl

@[simp] theorem vectors_setVector (x' : Xmm) :
    (s.setVector x value).vectors x' = if x' = x then value else s.vectors x' := rfl

@[simp] theorem blocks_setVector : (s.setVector x value).blocks = s.blocks := rfl

@[simp] theorem calls_setVector : (s.setVector x value).calls = s.calls := rfl

@[simp] theorem set_set (value' : Word) : (s.set r value).set r value' = s.set r value' := by
  simp only [set, State.mk.injEq, and_true]
  funext r'
  by_cases h : r' = r <;> simp [h]

@[simp] theorem set_self : s.set r (s.registers r) = s := by
  have hregisters : (s.set r (s.registers r)).registers = s.registers := by
    funext r'
    by_cases h : r' = r <;> simp [h]
  cases s
  simp_all [set]

end Views

def address (symbols : String → Word) (s : State) (a : Address) : Word :=
  let base := match a.base with
    | .register r => s.registers r
    | .symbol name => symbols name
  let index := match a.index with
    | none => 0
    | some (r, scale) => s.registers r * BitVec.ofNat 64 scale
  displace (base + index) a.displacement

/-- The bytes of an operand, extended by zeros. -/
def read (symbols : String → Word) (s : State) : Operand → Word
  | .register r .qword => s.registers r
  | .register r width => BitVec.ofNat 64 ((s.registers r).toNat % 256 ^ width.bytes)
  | .memory width a => BitVec.ofNat 64 (s.memory.load (s.address symbols a) width.bytes)
  | .immediate value => BitVec.ofInt 64 value

/-- Writing four bytes of a register clears the others, writing fewer keeps them. -/
def write (symbols : String → Word) (s : State) (value : Word) : Operand → Option State
  | .register r .qword => some (s.set r value)
  | .register r .dword => some (s.set r (BitVec.ofNat 64 (value.toNat % 256 ^ 4)))
  | .register r width =>
    let bound := 256 ^ width.bytes
    some (s.set r (BitVec.ofNat 64
      ((s.registers r).toNat / bound * bound + value.toNat % bound)))
  | .memory width a =>
    some { s with memory := s.memory.store (s.address symbols a) width.bytes value.toNat }
  | .immediate _ => none

end State

/-- The number of bytes that an instruction with this destination works on. -/
def Operand.width : Operand → Width
  | .register _ width | .memory width _ => width
  | .immediate _ => .qword

/-- The result of an operation and the flags, on operands of one width. -/
def BinaryInstr.compute {n : Nat} (op : BinaryInstr) (a b : BitVec n) : BitVec n × Flags :=
  match op with
  | .mov => (b, .undefined)
  | .add => (a + b, .ofAdd a b)
  | .sub | .cmp => (a - b, .ofSub a b)
  | .imul => (a * b, .undefined)
  | .and_ | .test => (a &&& b, .ofLogic (a &&& b))
  | .or_ => (a ||| b, .ofLogic (a ||| b))
  | .xor_ => (a ^^^ b, .ofLogic (a ^^^ b))

def BinaryInstr.computeLow (op : BinaryInstr) (width : Width) (a b : Word) : Word × Flags :=
  match width with
  | .qword => op.compute a b
  | .dword => ((op.compute (a.setWidth 32) (b.setWidth 32)).1.setWidth 64,
      (op.compute (a.setWidth 32) (b.setWidth 32)).2)
  | .word => ((op.compute (a.setWidth 16) (b.setWidth 16)).1.setWidth 64,
      (op.compute (a.setWidth 16) (b.setWidth 16)).2)
  | .byte => ((op.compute (a.setWidth 8) (b.setWidth 8)).1.setWidth 64,
      (op.compute (a.setWidth 8) (b.setWidth 8)).2)

/-- The bits of the double with the value of a single. A NaN becomes a quiet one. -/
def widen (bits : Nat) : Nat :=
  let magnitude := bits % 2 ^ 31
  let wide :=
    if Number.Format.binary32.infinity < magnitude then
      Number.Format.binary64.infinity ||| (magnitude % 2 ^ 23) <<< 29 ||| 1 <<< 51
    else Number.Format.binary32.convert .binary64 magnitude
  bits / 2 ^ 31 * 2 ^ 63 + wide

namespace State

section Effects

variable (symbols : String → Word)

def binary (s : State) (op : BinaryInstr) (dst src : Operand) : Option State :=
  let result := op.computeLow dst.width (s.read symbols dst) (s.read symbols src)
  match op with
  | .mov => s.write symbols (s.read symbols src) dst
  | .cmp | .test => some (s.withFlags result.2)
  | _ => (s.withFlags result.2).write symbols result.1 dst

/-- Division of `rdx` and `rax` together. A quotient that does not fit faults. -/
def divide (s : State) (signed : Bool) (divisor : Word) : Option State :=
  let dividend : Int := if signed then (s.registers .rdx).toInt * 2 ^ 64 + (s.registers .rax).toNat
    else (s.registers .rdx).toNat * 2 ^ 64 + (s.registers .rax).toNat
  let divisor : Int := if signed then divisor.toInt else divisor.toNat
  let quotient := dividend.tdiv divisor
  let fits := if signed then -2 ^ 63 ≤ quotient ∧ quotient < 2 ^ 63 else quotient < 2 ^ 64
  if divisor ≠ 0 ∧ fits then
    some (((s.withFlags .undefined).set .rax (BitVec.ofInt 64 quotient)).set .rdx
      (BitVec.ofInt 64 (dividend.tmod divisor)))
  else none

/-- Counting up and down keeps the carry; only quadwords are modelled. -/
def unary (s : State) (op : UnaryInstr) (operand : Operand) : Option State :=
  let a := s.read symbols operand
  if operand.width = .qword then
    match op with
    | .neg => (s.withFlags (.ofSub 0 a)).write symbols (-a) operand
    | .not_ => s.write symbols (~~~a) operand
    | .inc => (s.withFlags { Flags.ofAdd a 1 with carry := s.flags.carry }).write symbols (a + 1)
        operand
    | .dec => (s.withFlags { Flags.ofSub a 1 with carry := s.flags.carry }).write symbols (a - 1)
        operand
    | .idiv => s.divide true a
    | .div => s.divide false a
  else none

def push (s : State) (value : Word) : State :=
  (s.set .rsp (displace (s.registers .rsp) (-8))).put (displace (s.registers .rsp) (-8)) value

/-- The word at the top of the stack. -/
def peek (s : State) : Word := s.memory.word (s.registers .rsp)

def drop (s : State) : State := s.set .rsp (displace (s.registers .rsp) 8)

/-- What an instruction does on its way to the next one. Jumps, calls and returns are not given
here. -/
def effect (s : State) : Instr → Option State
  | .comment _ | .label _ | .symbol _ => some s
  | .binary op dst src => s.binary symbols op dst src
  | .unary op operand => s.unary symbols op operand
  | .lea dst a => some (s.set dst (s.address symbols a))
  | .movsxd dst a =>
    some (s.set dst ((BitVec.ofNat 32 (s.memory.load (s.address symbols a) 4)).signExtend 64))
  | .movzx dst width a =>
    some (s.set dst (BitVec.ofNat 64 (s.memory.load (s.address symbols a) width.bytes)))
  | .cmov condition dst src => do
    let taken ← condition.holds s.flags
    return if taken then s.set dst (s.registers src) else s
  | .cqo => some (s.set .rdx (if (s.registers .rax).toInt < 0 then -1 else 0))
  | .push r => some (s.push (s.registers r))
  | .pop r => some (s.drop.set r s.peek)
  | .loadFloat precision x a =>
    some (s.setVector x
      (BitVec.ofNat 64 (s.memory.load (s.address symbols a) precision.width.bytes)))
  | .storeFloat precision a x =>
    some { s with memory :=
      s.memory.store (s.address symbols a) precision.width.bytes (s.vectors x).toNat }
  | .convertFloat .single x y =>
    some (s.setVector x (BitVec.ofNat 64 (widen ((s.vectors y).toNat % 2 ^ 32))))
  | _ => none

end Effects

/-! The effects of instructions on whole registers and words. The lemmas hold by definition, but
rewriting must not use them that way, or the checker would run the code. -/

section Words

variable {symbols : String → Word} {s : State}

@[simp] theorem read_register (r : Register) :
    s.read symbols (.register r .qword) = s.registers r := (rfl)

@[simp] theorem read_memory (a : Address) :
    s.read symbols (.memory .qword a) = s.memory.word (s.address symbols a) := (rfl)

@[simp] theorem read_immediate (value : Int) :
    s.read symbols (.immediate value) = BitVec.ofInt 64 value := (rfl)

@[simp] theorem address_at (r : Register) (d : Int) :
    s.address symbols (Address.at_ r d) = displace (s.registers r) d := by
  simp [address, Address.at_]

@[simp] theorem address_stack (offset : Nat) :
    s.address symbols (Address.stack offset) = displace (s.registers .rsp) offset :=
  address_at _ _

@[simp] theorem address_frame (d : Int) :
    s.address symbols (Address.frame d) = displace (s.registers .rbp) d :=
  address_at _ _

@[simp] theorem address_symbol (name : String) :
    s.address symbols (Address.ofSymbol name) = symbols name := by
  simp [address, Address.ofSymbol]

@[simp] theorem address_entry (base index : Register) (d : Int) :
    s.address symbols (Address.entry base index d) =
      displace (s.registers base + s.registers index * 8) d := (rfl)

@[simp] theorem effect_label (l : Label) : s.effect symbols (.label l) = some s := (rfl)

@[simp] theorem effect_symbol (name : String) : s.effect symbols (.symbol name) = some s := (rfl)

@[simp] theorem effect_mov_register (r : Register) (src : Operand) :
    s.effect symbols (.mov (.register r .qword) src) = some (s.set r (s.read symbols src)) := (rfl)

@[simp] theorem effect_mov_memory (a : Address) (src : Operand) :
    s.effect symbols (.mov (.memory .qword a) src) =
      some (s.put (s.address symbols a) (s.read symbols src)) := (rfl)

@[simp] theorem effect_movImm_register (r : Register) (value : Int) :
    s.effect symbols (.movImm (.register r .qword) value) =
      some (s.set r (BitVec.ofInt 64 value)) := (rfl)

@[simp] theorem effect_movImm_memory (a : Address) (value : Int) :
    s.effect symbols (.movImm (.memory .qword a) value) =
      some (s.put (s.address symbols a) (BitVec.ofInt 64 value)) := (rfl)

@[simp] theorem effect_add (r : Register) (src : Operand) :
    s.effect symbols (.binary .add (.register r .qword) src) =
      some ((s.withFlags (.ofAdd (s.registers r) (s.read symbols src))).set r
        (s.registers r + s.read symbols src)) := (rfl)

@[simp] theorem effect_sub (r : Register) (src : Operand) :
    s.effect symbols (.binary .sub (.register r .qword) src) =
      some ((s.withFlags (.ofSub (s.registers r) (s.read symbols src))).set r
        (s.registers r - s.read symbols src)) := (rfl)

@[simp] theorem effect_imul (r : Register) (src : Operand) :
    s.effect symbols (.binary .imul (.register r .qword) src) =
      some ((s.withFlags .undefined).set r (s.registers r * s.read symbols src)) := (rfl)

@[simp] theorem effect_cmp (r : Register) (src : Operand) :
    s.effect symbols (.binary .cmp (.register r .qword) src) =
      some (s.withFlags (.ofSub (s.registers r) (s.read symbols src))) := (rfl)

@[simp] theorem effect_test (r : Register) (src : Operand) :
    s.effect symbols (.binary .test (.register r .qword) src) =
      some (s.withFlags (.ofLogic (s.registers r &&& s.read symbols src))) := (rfl)

@[simp] theorem effect_inc_memory (a : Address) :
    s.effect symbols (.unary .inc (.memory .qword a)) =
      some ((s.withFlags { Flags.ofAdd (s.memory.word (s.address symbols a)) 1 with
        carry := s.flags.carry }).put (s.address symbols a)
          (s.memory.word (s.address symbols a) + 1)) := (rfl)

@[simp] theorem effect_dec_memory (a : Address) :
    s.effect symbols (.unary .dec (.memory .qword a)) =
      some ((s.withFlags { Flags.ofSub (s.memory.word (s.address symbols a)) 1 with
        carry := s.flags.carry }).put (s.address symbols a)
          (s.memory.word (s.address symbols a) - 1)) := (rfl)

@[simp] theorem effect_dec_register (r : Register) :
    s.effect symbols (.unary .dec (.register r .qword)) =
      some ((s.withFlags { Flags.ofSub (s.registers r) 1 with carry := s.flags.carry }).set r
        (s.registers r - 1)) := (rfl)

@[simp] theorem effect_lea (r : Register) (a : Address) :
    s.effect symbols (.lea r a) = some (s.set r (s.address symbols a)) := (rfl)

@[simp] theorem effect_cmov (condition : Condition) (dst src : Register) :
    s.effect symbols (.cmov condition dst src) = (condition.holds s.flags).map fun taken =>
      if taken then s.set dst (s.registers src) else s := by
  cases h : condition.holds s.flags <;> simp [effect, h]

@[simp] theorem effect_push (r : Register) :
    s.effect symbols (.push r) = some (s.push (s.registers r)) := (rfl)

@[simp] theorem effect_pop (r : Register) :
    s.effect symbols (.pop r) = some (s.drop.set r s.peek) := (rfl)

@[simp] theorem effect_loadFloat (p : Precision) (x : Xmm) (a : Address) :
    s.effect symbols (.loadFloat p x a) = some (s.setVector x
      (BitVec.ofNat 64 (s.memory.load (s.address symbols a) p.width.bytes))) := (rfl)

end Words

end State

end RegionCompiler.Machine
