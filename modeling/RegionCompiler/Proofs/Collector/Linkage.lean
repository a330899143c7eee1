import RegionCompiler.Proofs.Collector.Regions

/-! How the routines of the collector are entered and left, how they call the C library, and which
memory they leave alone. -/
namespace RegionCompiler.Machine

open Collector

theorem Memory.put_outside {P : Word → Prop} {m : Memory} {a x v : Word}
    (ha : ∀ k < 8, P (a + BitVec.ofNat 64 k)) (hx : ¬ P x) : m.put a v x = m x := by
  refine put_other (Nat.le_of_not_lt fun hlt => hx ?_)
  rw [← add_ofNat_sub a x]
  exact ha _ hlt

namespace State

/-- States that differ in the stack pointer and the flags only. -/
structure Alike (s s' : State) : Prop where
  registers : ∀ r, r ≠ .rsp → s'.registers r = s.registers r
  memory : s'.memory = s.memory
  blocks : s'.blocks = s.blocks
  calls : s'.calls = s.calls

end State

namespace Process

variable {w : Process} {i k : Int} {j n : Nat} {own : List Word} {e s s' : State} {c : Regions}
  {P : Nat → State → Prop}

/-- The stack below a place, the cells of the collector and some blocks may have changed, and
nothing else. -/
structure Leaves (w : Process) (k : Int) (own : List Word) (e s : State) : Prop where
  untouched : ∀ a, ¬ w.heap a → (∀ x, ¬ w.InCell x a) → (∀ i, w.low ≤ i → i < k → a ≠ w.at_ i) →
    s.memory a = e.memory a
  kept : ∀ q, q ∉ own → Kept e s q

namespace Leaves

theorem refl (w : Process) (k : Int) (own : List Word) (e : State) : w.Leaves k own e e where
  untouched _ _ _ _ := rfl
  kept _ _ := ⟨rfl, fun _ _ _ _ => rfl⟩

theorem trans (h : w.Leaves k own e s) (h' : w.Leaves k own s s') : w.Leaves k own e s' where
  untouched a hheap hcell hstack :=
    (h'.untouched a hheap hcell hstack).trans (h.untouched a hheap hcell hstack)
  kept q hq := (h.kept q hq).trans (h'.kept q hq)

theorem mono (h : w.Leaves k own e s) {k' : Int} (hk : k ≤ k') {own' : List Word}
    (hown : own ⊆ own') : w.Leaves k' own' e s where
  untouched a hheap hcell hstack :=
    h.untouched a hheap hcell fun i hlow hi => hstack i hlow (by omega)
  kept q hq := h.kept q fun hmem => hq (hown hmem)

/-- Registers do not count. -/
theorem of_eq (h : w.Leaves k own e s) (hmemory : s'.memory = s.memory)
    (hblocks : s'.blocks = s.blocks) : w.Leaves k own e s' := by
  refine ⟨?_, ?_⟩
  · rw [hmemory]
    exact h.untouched
  · intro q hq
    rw [Kept, hmemory, hblocks]
    exact h.kept q hq

theorem put {Q : Word → Prop} {a : Word} (v : Word) (h : w.Leaves k own e s)
    (ha : ∀ n < 8, Q (a + BitVec.ofNat 64 n))
    (hother : ∀ x, Q x → w.heap x ∨ (∃ y, w.InCell y x) ∨ ∃ i, w.low ≤ i ∧ i < k ∧ x = w.at_ i)
    (hkept : ∀ q, q ∉ own → ∀ n, s.blocks q = some n → ∀ j < n, ¬ Q (q + BitVec.ofNat 64 j)) :
    w.Leaves k own e (s.put a v) := by
  refine h.trans ⟨?_, ?_⟩
  · intro x hheap hcell hstack
    refine Memory.put_outside ha fun hx => ?_
    rcases hother x hx with h | ⟨y, h⟩ | ⟨i, hlow, hi, h⟩
    · exact hheap h
    · exact hcell y h
    · exact hstack i hlow hi h
  · intro q hq
    exact ⟨rfl, fun n hn j hj => Memory.put_outside ha (hkept q hq n hn j hj)⟩

theorem put_stack (h : w.Leaves k own e s) (hsound : w.Sound s.blocks) (hi : w.low ≤ i)
    (hi' : i + 8 ≤ k) (hk : k ≤ w.high) (v : Word) : w.Leaves k own e (s.put (w.at_ i) v) := by
  refine h.put (Q := fun x => ∃ j, w.low ≤ j ∧ j < k ∧ x = w.at_ j) v ?_ ?_ ?_
  · intro n hn
    exact ⟨i + n, by omega, by omega, w.at_add i n⟩
  · intro x hx
    exact .inr (.inr hx)
  · rintro q - n hn j hj ⟨i', hlow, hlt, heq⟩
    exact w.stack_heap _ ⟨i', hlow, by omega, heq⟩ (hsound.inside hn j hj)

theorem put_cell (h : w.Leaves k own e s) (hsound : w.Sound s.blocks) (x : Cell) (v : Word) :
    w.Leaves k own e (s.put (w.cell x) v) := by
  refine h.put (Q := w.InCell x) v (fun _ => w.inCell_add x) ?_ ?_
  · intro y hy
    exact .inr (.inl ⟨x, hy⟩)
  · intro q _ n hn j hj
    exact w.heap_cell _ (hsound.inside hn j hj) x

theorem put_slot (h : w.Leaves k own e s) (hc : w.Holds s.memory s.blocks c)
    (hown : w.data s.memory ∈ own) (hn : n < (w.capacity s.memory).toNat) (v : Word) :
    w.Leaves k own e (s.put (slot (w.data s.memory) n) v) := by
  rcases hc.block with ⟨-, hzero⟩ | hblock
  · rw [hzero] at hn
    cases hn
  · refine h.put (Q := fun x => ∃ j < 8 * (w.capacity s.memory).toNat,
      x = w.data s.memory + BitVec.ofNat 64 j) v ?_ ?_ ?_
    · intro j hj
      exact ⟨8 * n + j, by omega, slot_add _ _ _⟩
    · rintro _ ⟨j, hj, rfl⟩
      exact .inl (hc.sound.inside hblock j hj)
    · rintro q hq n' hn' j hj ⟨j', hj', heq⟩
      exact hc.sound.apart hn' hblock (fun h => hq (h ▸ hown)) j hj j' hj' heq

theorem word_at (h : w.Leaves k own e s) (hlow : w.low ≤ k) (hi : k ≤ i) (hi' : i + 8 ≤ w.high) :
    s.memory.word (w.at_ i) = e.memory.word (w.at_ i) := by
  refine Memory.word_congr fun n hn => ?_
  rw [w.at_add]
  have hstack : w.OnStack (w.at_ (i + n)) := onStack_at (by omega) (by omega)
  refine h.untouched _ (w.stack_heap _ hstack) (w.stack_cell _ hstack) fun i' hlow' hi'' => ?_
  exact at_ne (by omega) (by omega) hlow' (by omega) (by omega)

end Leaves

/-- A call that has just been made, with room on the stack. -/
structure Entered (w : Process) (depth : Nat) (k : Int) (e : State) : Prop where
  rsp : e.registers .rsp = w.at_ k
  aligned : k % 16 = 8
  room : w.low + w.reserve + depth ≤ k
  high : k + 8 ≤ w.high

theorem Entered.mono {depth depth' : Nat} (h : w.Entered depth k e) (hle : depth' ≤ depth) :
    w.Entered depth' k e :=
  { h with room := by have := h.room; omega }

/-- The state after the prologue. -/
def opened (w : Process) (k : Int) (e : State) : State :=
  ((e.put (w.at_ (k - 8)) (e.registers .rbp)).set .rsp (w.at_ (k - 8))).set .rbp (w.at_ (k - 8))

/-- The state before the return, when the body ended in this one. -/
def closed (w : Process) (k : Int) (e s : State) : State :=
  (s.set .rsp (w.at_ k)).set .rbp (e.registers .rbp)

/-- A routine that has saved the frame of its caller. -/
structure Inside (w : Process) (k : Int) (own : List Word) (e s : State) : Prop where
  rbp : s.registers .rbp = w.at_ (k - 8)
  leaves : w.Leaves (k - 8) own (w.opened k e) s

section Frames

variable {depth : Nat} (h : w.Entered depth k e) (hdepth : 8 ≤ depth)

include h

theorem prologue_arrives (hsits : Sits w.image.code j prologue)
    (hnext : w.image.Arrives (j + 2) (w.opened k e) P) : w.image.Arrives j e P := by
  refine .straight hsits (t := w.opened k e) ?_ hnext
  simp [prologue, State.push, h.rsp, opened]
  rfl

include hdepth

theorem Entered.leaves_opened (hsound : w.Sound e.blocks) (own : List Word) :
    w.Leaves k own e (w.opened k e) := by
  obtain ⟨-, -, hroom, hhigh⟩ := h
  exact ((Leaves.refl w k own e).put_stack hsound (by omega) (by omega) (by omega) _).of_eq rfl rfl

theorem Inside.closed (hs : w.Inside k own e s) (hsound : w.Sound e.blocks) :
    w.Leaves k own e (w.closed k e s) :=
  (h.leaves_opened hdepth hsound own).trans
    ((hs.leaves.mono (by omega) (List.Subset.refl own)).of_eq rfl rfl)

theorem epilogue_arrives (hs : w.Inside k own e s) (hsits : Sits w.image.code j epilogue)
    (hP : w.image.code[j + 2]? = some .ret → P (j + 2) (w.closed k e s)) :
    w.image.Arrives j s P := by
  have hsaved : s.memory.word (w.at_ (k - 8)) = e.registers .rbp := by
    obtain ⟨-, -, hroom, hhigh⟩ := h
    rw [hs.leaves.word_at (by omega) (by omega) (by omega)]
    simp [opened]
  refine .straight (t := w.closed k e s)
    (hsits.take 2) ?_ (.here (hP hsits.tail.tail.head))
  simp [epilogue, hs.rbp, closed, State.drop, State.peek, hsaved]

end Frames

/-- The registers that the routines pass on to C functions. -/
def passed : List Register := [.r10, .r11]

/-- A C function is about to be called. -/
structure Readied (w : Process) (i : Int) (count : Nat) (s s₁ : State) : Prop where
  rsp : s₁.registers .rsp = w.at_ (i - shadowSpace w.platform.convention)
  rbp : s₁.registers .rbp = s.registers .rbp
  memory : s₁.memory = s.memory
  blocks : s₁.blocks = s.blocks
  calls : s₁.calls = s.calls
  first : argument w.platform s₁.registers 0 = s.registers .r10
  second : count = 2 → argument w.platform s₁.registers 1 = s.registers .r11

theorem callC_split (w : Process) (name : String) {count : Nat} (hcount : count = 1 ∨ count = 2)
    (hrsp : s.registers .rsp = w.at_ i) :
    ∃ before after, callC w.platform name ((passed.take count).map (Operand.register · .qword)) =
        before ++ .call name :: after ∧
      (∃ s₁, straight w.image.symbols before s = some s₁ ∧ w.Readied i count s s₁) ∧
      ∀ s₂, s₂.registers .rsp = w.at_ (i - shadowSpace w.platform.convention) →
        ∃ s₃, straight w.image.symbols after s₂ = some s₃ ∧ s₃.registers .rsp = w.at_ i ∧
          s₂.Alike s₃ := by
  have hlinux (s₂ : State) (hrsp₂ : s₂.registers .rsp = w.at_ (i - 0)) :
      ∃ s₃, straight w.image.symbols [] s₂ = some s₃ ∧ s₃.registers .rsp = w.at_ i ∧
        s₂.Alike s₃ :=
    ⟨s₂, rfl, by simpa using hrsp₂, fun _ _ => rfl, rfl, rfl, rfl⟩
  have hwindows (s₂ : State) (hrsp₂ : s₂.registers .rsp = w.at_ (i - 32)) :
      ∃ s₃, straight w.image.symbols [.binary .add Register.rsp (.immediate 32)] s₂ = some s₃ ∧
        s₃.registers .rsp = w.at_ i ∧ s₂.Alike s₃ := by
    refine ⟨(s₂.withFlags (.ofAdd (w.at_ (i - 32)) 32#64)).set .rsp (w.at_ i), ?_, ?_, ?_, rfl,
      rfl, rfl⟩
    · simp [hrsp₂]
    · simp
    · intro r hr
      simp [hr]
  rcases w.known with hplatform | hplatform <;> rw [hplatform] <;> rcases hcount with rfl | rfl
  · refine ⟨[.mov Register.rdi Register.r10], [], rfl, ⟨_, rfl, ?_⟩, hlinux⟩
    constructor <;> simp [hplatform, hrsp]
  · refine ⟨[.mov Register.rdi Register.r10, .mov Register.rsi Register.r11], [], rfl, ⟨_, rfl, ?_⟩,
      hlinux⟩
    constructor <;> simp [hplatform, hrsp]
  · refine ⟨[.mov Register.rcx Register.r10, .binary .sub Register.rsp (.immediate 32)], _, rfl,
      ⟨_, by simp; rfl, ?_⟩,
      hwindows⟩
    constructor <;> simp [hplatform, hrsp]
  · refine ⟨[.mov Register.rcx Register.r10, .mov Register.rdx Register.r11,
      .binary .sub Register.rsp (.immediate 32)], _, rfl,
      ⟨_, by simp; rfl, ?_⟩,
      hwindows⟩
    constructor <;> simp [hplatform, hrsp]

theorem callC_arrives {name : String} (count : Nat) (hcount : count = 1 ∨ count = 2)
    (hsits : Sits w.image.code j
      (callC w.platform name ((passed.take count).map (Operand.register · .qword))))
    (hrsp : s.registers .rsp = w.at_ i)
    (h : ∀ j' s₁, w.image.code[j']? = some (.call name) → w.Readied i count s s₁ →
      (∀ s₂, s₂.registers .rsp = s₁.registers .rsp →
        (∀ s₃, s₃.registers .rsp = w.at_ i → s₂.Alike s₃ →
          w.image.Arrives (j + (callC w.platform name
            ((passed.take count).map (Operand.register · .qword))).length) s₃ P) →
        w.image.Arrives (j' + 1) s₂ P) →
      w.image.Arrives j' s₁ P) :
    w.image.Arrives j s P := by
  obtain ⟨before, after, hsplit, ⟨s₁, hbefore, hready⟩, hafter⟩ := w.callC_split name hcount hrsp
  rw [hsplit] at hsits h
  refine .straight hsits.left hbefore (h _ s₁ hsits.right.head hready ?_)
  intro s₂ hrsp₂ hnext
  obtain ⟨s₃, hstraight, hrsp₃, halike⟩ := hafter s₂ (hrsp₂.trans hready.rsp)
  have harrives := hnext s₃ hrsp₃ halike
  rw [List.length_append, List.length_cons, ← Nat.add_assoc, ← Nat.add_assoc,
    Nat.add_right_comm] at harrives
  exact .straight hsits.right.tail hstraight harrives

/-- What a call of the C library keeps. -/
structure Called (w : Process) (i : Int) (own : List Word) (request : Request) (s s' : State) :
    Prop where
  rsp : s'.registers .rsp = w.at_ i
  rbp : s'.registers .rbp = s.registers .rbp
  sound : w.Sound s'.blocks
  cells : ∀ x, s'.memory.word (w.cell x) = s.memory.word (w.cell x)
  leaves : w.Leaves i own s s'
  calls : ∃ call : Call, s'.calls = s.calls ++ [call] ∧ call.request w.platform = request ∧
    call.blocks = s.blocks

/-- A state in which the routines may call the C library. -/
structure Calling (w : Process) (i : Int) (s : State) : Prop where
  rsp : s.registers .rsp = w.at_ i
  aligned : i % 16 = 0
  room : w.low + w.reserve + 32 ≤ i
  high : i ≤ w.high
  sound : w.Sound s.blocks

variable {count : Nat} {s₁ s₂ s₃ : State} {name : String}

theorem Readied.callable (h : w.Readied i count s s₁) (hs : w.Calling i s) :
    w.Callable s₁ (i - shadowSpace w.platform.convention) := by
  obtain ⟨-, haligned, hroom, hhigh, hsound⟩ := hs
  have hshadow : shadowSpace w.platform.convention = 0 ∨
      shadowSpace w.platform.convention = 32 := by
    rcases w.known with hplatform | hplatform <;> simp [hplatform]
  constructor
  case rsp => exact h.rsp
  case aligned =>
    rw [h.rsp]
    exact w.at_aligned (by omega)
  case room => omega
  case shadow => omega
  case sound =>
    rw [h.blocks]
    exact hsound

theorem Readied.called (own : List Word) (h : w.Readied i count s s₁) (hs : w.Calling i s)
    (hreturned : w.Returned (i - shadowSpace w.platform.convention) s₁ s₂)
    (hkept : ∀ q, q ∉ own → Kept s₁ s₂ q) (hrsp : s₃.registers .rsp = w.at_ i)
    (halike : (s₂.after s₁ name).Alike s₃) :
    w.Called i own (Call.request w.platform ⟨name, s₁.registers, s₁.blocks⟩) s s₃ := by
  have hmemory (a : Word) (hheap : ¬ w.heap a)
      (hstack : ∀ j, w.low ≤ j → j < i → a ≠ w.at_ j) : s₃.memory a = s.memory a := by
    rw [halike.memory, ← h.memory]
    exact hreturned.memory a hheap (by simpa using hstack)
  constructor
  case rsp => exact hrsp
  case rbp => rw [halike.registers _ (by decide), ← h.rbp, ← hreturned.rbp]; rfl
  case sound => rw [halike.blocks]; exact hreturned.sound
  case cells =>
    intro x
    refine Memory.word_congr fun n hn => hmemory _ ?_ ?_
    · exact fun hheap => w.heap_cell _ hheap x (w.inCell_add x hn)
    · intro j hlow hj heq
      exact w.stack_cell _ ⟨j, hlow, hj.trans_le hs.high, heq⟩ x (w.inCell_add x hn)
  case leaves =>
    refine ⟨fun a hheap _ hstack => hmemory a hheap hstack, fun q hq => ?_⟩
    have hq' := hkept q hq
    rw [Kept, h.memory, h.blocks] at hq'
    rw [Kept, halike.memory, halike.blocks]
    exact hq'
  case calls =>
    refine ⟨_, ?_, rfl, h.blocks⟩
    rw [halike.calls, ← h.calls]
    rfl

theorem free_reaches (hsits : Sits w.image.code j (callC w.platform "free" [Register.r10]))
    (hs : w.Calling i s) :
    w.image.Arrives j s fun j' s₁ =>
      w.image.code[j']? = some (.call "free") ∧ w.Readied i 1 s s₁ :=
  callC_arrives 1 (.inl rfl) hsits hs.rsp fun _ _ hj' hready _ => .here ⟨hj', hready⟩

theorem free_arrives {p : Word}
    (hsits : Sits w.image.code j (callC w.platform "free" [Register.r10]))
    (hs : w.Calling i s) (hp : s.registers .r10 = p) (hok : p = 0#64 ∨ s.blocks p ≠ none)
    (hnext : ∀ s', w.Called i [p] (.free p) s s' → s'.blocks p = none →
      w.image.Arrives (j + (callC w.platform "free" [Register.r10]).length) s' P) :
    w.image.Arrives j s P := by
  refine callC_arrives 1 (.inl rfl) hsits hs.rsp fun j' s₁ hj' hready hback => ?_
  obtain ⟨s₂, hlibrary, hreturned, hfreed, hkept⟩ :=
    w.free s₁ _ p (hready.callable hs) (hready.first.trans hp) (by rwa [hready.blocks])
  refine .library hj' (w.foreign _ (by simp [cFunctions])) hlibrary
    (hback _ hreturned.rsp fun s₃ hrsp halike => hnext s₃ ?_ ?_)
  · have hcalled := hready.called [p] hs hreturned
      (fun q hq => hkept q (by simpa using hq)) hrsp halike
    rwa [show Call.request w.platform ⟨"free", s₁.registers, s₁.blocks⟩ = .free _ from rfl,
      hready.first, hp] at hcalled
  · rw [halike.blocks]
    exact hfreed

theorem realloc_arrives {p bytes : Word}
    (hsits : Sits w.image.code j (callC w.platform "realloc" [Register.r10, Register.r11]))
    (hs : w.Calling i s) (hp : s.registers .r10 = p) (hbytes : s.registers .r11 = bytes)
    (hlive : p = 0#64 ∨ s.blocks p ≠ none) (hpositive : bytes ≠ 0#64)
    (hnext : ∀ s', w.Called i [p, s'.registers .rax] (.realloc p bytes) s s' →
      (s'.registers .rax = 0#64 ∧ w.scarce s.blocks p bytes ∨
        s'.registers .rax ≠ 0#64 ∧
          (s'.registers .rax = p ∨ s.blocks (s'.registers .rax) = none ∧ s'.blocks p = none) ∧
          s'.blocks (s'.registers .rax) = some bytes.toNat ∧
          ∀ n, s.blocks p = some n → ∀ j < min n bytes.toNat,
            s'.memory (s'.registers .rax + BitVec.ofNat 64 j) =
              s.memory (p + BitVec.ofNat 64 j)) →
      w.image.Arrives (j + (callC w.platform "realloc"
        [Register.r10, Register.r11]).length) s' P) :
    w.image.Arrives j s P := by
  refine callC_arrives 2 (.inr rfl) hsits hs.rsp fun j' s₁ hj' hready hback => ?_
  obtain ⟨s₂, hlibrary, hreturned, hkept, houtcome⟩ :=
    w.realloc s₁ _ p bytes (hready.callable hs) (hready.first.trans hp)
      ((hready.second rfl).trans hbytes) (by rwa [hready.blocks]) hpositive
  refine .library hj' (w.foreign _ (by simp [cFunctions])) hlibrary
    (hback _ hreturned.rsp fun s₃ hrsp halike => hnext s₃ ?_ ?_)
  · have hrax : s₃.registers .rax = s₂.registers .rax := halike.registers _ (by decide)
    have hcalled := hready.called [p, s₃.registers .rax] hs hreturned
      (fun q hq => hkept q (fun h => hq (by simp [h])) (fun h => hq (by simp [h, hrax])))
      hrsp halike
    rwa [show Call.request w.platform ⟨"realloc", s₁.registers, s₁.blocks⟩ = .realloc _ _ from rfl,
      hready.first, hready.second rfl, hp, hbytes] at hcalled
  · rw [halike.registers _ (by decide), halike.blocks, halike.memory, ← hready.blocks,
      ← hready.memory]
    rcases houtcome with ⟨hnull, hscarce, -⟩ | hmoved
    · exact .inl ⟨hnull, hscarce⟩
    · exact .inr hmoved

theorem sits_routine (w : Process) (r : Collector.Routine) :
    ∃ start, Sits w.image.code start (r.code w.platform) := by
  obtain ⟨before, after, hcode⟩ := w.collector
  have hall : Sits w.image.code before.length (Collector.code w.platform w.resultSize) := by
    rw [← hcode]
    exact .of_append before after
  have hroutines := hall.left.left
  cases r with
  | push => exact ⟨_, hroutines.left.left.left.left.left.right⟩
  | enter => exact ⟨_, hroutines.left.left.left.left.right⟩
  | exit => exact ⟨_, hroutines.left.left.left.right⟩
  | release => exact ⟨_, hroutines.left.left.right⟩
  | adopt => exact ⟨_, hroutines.left.right⟩
  | collect => exact ⟨_, hroutines.right⟩

theorem exists_memoryTrap (w : Process) :
    ∃ i, positionOf w.image.code (.symbol memoryTrap) = some i := by
  obtain ⟨before, after, hcode⟩ := w.collector
  have hall : Sits w.image.code before.length (Collector.code w.platform w.resultSize) := by
    rw [← hcode]
    exact .of_append before after
  exact ⟨_, positionOf_eq w.distinct hall.left.right.head rfl⟩

theorem position_of (w : Process) {instr : Instr} (hi : w.image.code[j]? = some instr) {t : Target}
    (ht : instr.mark? = some t) : positionOf w.image.code t = some j :=
  positionOf_eq w.distinct hi ht

end Process

end RegionCompiler.Machine
