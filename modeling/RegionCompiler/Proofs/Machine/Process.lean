import RegionCompiler.Collector
import RegionCompiler.Proofs.Machine.Run

/-! A program that runs: where its stack and its heap lie, and what it may expect of the C library.
Places on the stack are given by their distance from a base. -/
namespace RegionCompiler.Machine

/-- The bytes above the stack pointer that a called function may use for itself. -/
def shadowSpace : Convention → Nat
  | .systemV => 0
  | .microsoft => 32

/-- An integer argument of a C function. -/
def argument (platform : Platform) (registers : Register → Word) (k : Nat) : Word :=
  registers (platform.convention.argumentRegisters.getD k .rax)

@[simp] theorem shadowSpace_linux : shadowSpace Platform.linux.convention = 0 := rfl

@[simp] theorem shadowSpace_windows : shadowSpace Platform.windows.convention = 32 := rfl

section Arguments

variable (registers : Register → Word)

@[simp] theorem argument_linux_zero : argument .linux registers 0 = registers .rdi := rfl

@[simp] theorem argument_linux_one : argument .linux registers 1 = registers .rsi := rfl

@[simp] theorem argument_windows_zero : argument .windows registers 0 = registers .rcx := rfl

@[simp] theorem argument_windows_one : argument .windows registers 1 = registers .rdx := rfl

end Arguments

/-- What a call asks the C library to do with its memory. -/
inductive Request
  | realloc (p bytes : Word)
  | free (p : Word)
  | other (name : String)
deriving DecidableEq

def Call.request (platform : Platform) (c : Call) : Request :=
  match c.name with
  | "realloc" => .realloc (argument platform c.registers 0) (argument platform c.registers 1)
  | "free" => .free (argument platform c.registers 0)
  | name => .other name

/-- The calls of a run, the oldest first. -/
def State.requests (platform : Platform) (s : State) : List Request :=
  s.calls.map (Call.request platform)

/-- The words in which the collector keeps its state. -/
inductive Cell
  | entries
  | length
  | capacity
  | moved
deriving DecidableEq

def Cell.symbol : Cell → String
  | entries => Collector.entriesSymbol
  | length => Collector.lengthSymbol
  | capacity => Collector.capacitySymbol
  | moved => Collector.movedSymbol

/-- Where things lie in memory. -/
structure Places where
  image : Image
  platform : Platform
  base : Word
  /-- The stack takes the bytes from `low` on, up to `high`, as seen from the base. -/
  low : Int
  high : Int
  /-- The memory that the C library hands out and works on. -/
  heap : Word → Prop
  /-- The stack that the C library needs for itself. -/
  reserve : Nat
  /-- Which requests the C library may turn down, when it has handed out such blocks. -/
  scarce : (Word → Option Nat) → Word → Word → Prop

namespace Places

variable (w : Places)

def at_ (i : Int) : Word := displace w.base i

def OnStack (a : Word) : Prop := ∃ i, w.low ≤ i ∧ i < w.high ∧ a = w.at_ i

/-- Where a word of the collector lies. -/
def cell (x : Cell) : Word := w.image.symbols x.symbol

def InCell (x : Cell) (a : Word) : Prop := (a - w.cell x).toNat < 8

/-- Blocks on the heap that share no byte. -/
structure Sound (blocks : Word → Option Nat) : Prop where
  null : blocks 0#64 = none
  bounded : ∀ {q : Word} {n : Nat}, blocks q = some n → n < 2 ^ 63
  inside : ∀ {q : Word} {n : Nat}, blocks q = some n → ∀ j < n, w.heap (q + BitVec.ofNat 64 j)
  apart : ∀ {q q' : Word} {n n' : Nat}, blocks q = some n → blocks q' = some n' → q ≠ q' →
    ∀ j < n, ∀ j' < n', q + BitVec.ofNat 64 j ≠ q' + BitVec.ofNat 64 j'

/-- A state in which a C function may be called: the stack is aligned, with room below, and the
shadow space is there. -/
structure Callable (s : State) (i : Int) : Prop where
  rsp : s.registers .rsp = w.at_ i
  aligned : (s.registers .rsp).toNat % 16 = 0
  room : w.low + w.reserve ≤ i
  shadow : i + shadowSpace w.platform.convention ≤ w.high
  sound : w.Sound s.blocks

/-- What every C function keeps: the stack above its shadow space, and all memory that is neither
its own nor on the stack. -/
structure Returned (i : Int) (s s' : State) : Prop where
  rsp : s'.registers .rsp = s.registers .rsp
  rbp : s'.registers .rbp = s.registers .rbp
  sound : w.Sound s'.blocks
  memory : ∀ a, ¬ w.heap a →
    (∀ j, w.low ≤ j → j < i + shadowSpace w.platform.convention → a ≠ w.at_ j) →
    s'.memory a = s.memory a

end Places

/-- A block that was there stays, with its contents; one that was not is not handed out. -/
def Kept (s s' : State) (q : Word) : Prop :=
  s'.blocks q = s.blocks q ∧ ∀ n, s.blocks q = some n → ∀ j < n,
    s'.memory (q + BitVec.ofNat 64 j) = s.memory (q + BitVec.ofNat 64 j)

theorem Kept.trans {s s' s'' : State} {q : Word} (h : Kept s s' q) (h' : Kept s' s'' q) :
    Kept s s'' q := by
  refine ⟨h'.1.trans h.1, fun n hn j hj => ?_⟩
  rw [h'.2 n (h.1.trans hn) j hj, h.2 n hn j hj]

namespace Places

/-- How C describes `realloc`: the block moves to a new one of the given size, with its contents,
or it stays where it is and null is returned. -/
def Reallocates (w : Places) : Prop :=
  ∀ (s : State) (i : Int) (p bytes : Word), w.Callable s i →
    argument w.platform s.registers 0 = p → argument w.platform s.registers 1 = bytes →
    (p = 0#64 ∨ s.blocks p ≠ none) → bytes ≠ 0#64 →
    ∃ s', w.image.library "realloc" s = some s' ∧ w.Returned i s s' ∧
      (∀ q, q ≠ p → q ≠ s'.registers .rax → Kept s s' q) ∧
      (s'.registers .rax = 0#64 ∧ w.scarce s.blocks p bytes ∧ Kept s s' p ∨
        s'.registers .rax ≠ 0#64 ∧
          (s'.registers .rax = p ∨ s.blocks (s'.registers .rax) = none ∧ s'.blocks p = none) ∧
          s'.blocks (s'.registers .rax) = some bytes.toNat ∧
          ∀ n, s.blocks p = some n → ∀ j < min n bytes.toNat,
            s'.memory (s'.registers .rax + BitVec.ofNat 64 j) =
              s.memory (p + BitVec.ofNat 64 j))

/-- How C describes `free`: a block that was handed out is no longer. -/
def Frees (w : Places) : Prop :=
  ∀ (s : State) (i : Int) (p : Word), w.Callable s i → argument w.platform s.registers 0 = p →
    (p = 0#64 ∨ s.blocks p ≠ none) →
    ∃ s', w.image.library "free" s = some s' ∧ w.Returned i s s' ∧ s'.blocks p = none ∧
      ∀ q, q ≠ p → Kept s s' q

end Places

/-- A program in memory, with its collector. Its aligned stack, its heap and its data do not
overlap, and no name has two places in its code. -/
structure Process extends Places where
  resultSize : Nat
  known : platform = .linux ∨ platform = .windows
  aligned : base.toNat % 16 = 0
  window : high - low ≤ 2 ^ 64
  stack_heap : ∀ a, toPlaces.OnStack a → ¬ heap a
  stack_cell : ∀ a, toPlaces.OnStack a → ∀ x, ¬ toPlaces.InCell x a
  heap_cell : ∀ a, heap a → ∀ x, ¬ toPlaces.InCell x a
  cell_cell : ∀ x y, x ≠ y → ∀ a, toPlaces.InCell x a → ¬ toPlaces.InCell y a
  distinct : (marks image.code).Nodup
  collector : Collector.code platform resultSize <:+: image.code
  foreign : ∀ name ∈ Collector.cFunctions, positionOf image.code (.symbol name) = none
  realloc : toPlaces.Reallocates
  free : toPlaces.Frees

namespace Process

variable {w : Process} {i j : Int} {n k : Nat} {m : Memory}

@[simp] theorem displace_at (w : Process) (i j : Int) :
    displace (w.at_ i) j = w.at_ (i + j) :=
  displace_displace w.base i j

@[simp] theorem at_add (w : Process) (i : Int) (n : Nat) :
    w.at_ i + BitVec.ofNat 64 n = w.at_ (i + n) :=
  displace_add w.base i n

theorem at_sub_toNat (w : Process) (i j : Int) :
    (w.at_ j - w.at_ i).toNat = ((j - i) % 2 ^ 64).toNat := by
  have hj : w.at_ j = BitVec.ofInt 64 (j - i) + w.at_ i := by
    rw [BitVec.add_comm]
    change _ = displace (w.at_ i) (j - i)
    rw [displace_at, show i + (j - i) = j by omega]
  rw [hj, BitVec.add_sub_cancel, BitVec.toNat_ofInt]
  rfl

theorem at_aligned (w : Process) (h : i % 16 = 0) : (w.at_ i).toNat % 16 = 0 := by
  have hbase := w.aligned
  simp only [Places.at_, displace, BitVec.toNat_add, BitVec.toNat_ofInt]
  omega

@[simp] theorem at_sub (w : Process) (i : Int) (n : Nat) :
    w.at_ i - BitVec.ofNat 64 n = w.at_ (i - n) := by
  rw [← BitVec.ofInt_natCast, sub_ofInt, displace_at, Int.sub_eq_add_neg]

theorem at_ne (hi : w.low ≤ i) (hi' : i < w.high) (hj : w.low ≤ j) (hj' : j < w.high)
    (h : i ≠ j) : w.at_ i ≠ w.at_ j := by
  intro heq
  have hsub := w.at_sub_toNat j i
  have hwindow := w.window
  rw [heq, BitVec.sub_self] at hsub
  simp only [BitVec.toNat_ofNat, Nat.zero_mod] at hsub
  omega

theorem onStack_at (hi : w.low ≤ i) (hi' : i < w.high) : w.OnStack (w.at_ i) :=
  ⟨i, hi, hi', rfl⟩

theorem inCell_add (w : Process) (x : Cell) (hk : k < 8) :
    w.InCell x (w.cell x + BitVec.ofNat 64 k) := by
  rw [Places.InCell, BitVec.add_comm, BitVec.add_sub_cancel, BitVec.toNat_ofNat]
  omega

end Process

theorem Memory.Apart.of_disjoint {P Q : Word → Prop} (hPQ : ∀ a, P a → ¬ Q a) {a b : Word}
    (ha : ∀ k < 8, P (a + BitVec.ofNat 64 k)) (hb : ∀ k < 8, Q (b + BitVec.ofNat 64 k)) :
    Memory.Apart a b := by
  constructor
  · by_contra hlt
    refine hPQ a (by simpa using ha 0 (by omega)) ?_
    rw [← add_ofNat_sub b a]
    exact hb _ (by omega)
  · by_contra hlt
    refine hPQ b ?_ (by simpa using hb 0 (by omega))
    rw [← add_ofNat_sub a b]
    exact ha _ (by omega)

end RegionCompiler.Machine
