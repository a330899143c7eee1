import RegionCompiler.Proofs.Collector.Linkage

/-! What a routine of the collector does to memory and to the blocks of the C library, and the
routines that append an entry. -/
namespace RegionCompiler.Collector

open Machine Machine.Instr

/-- The capacity that follows when there is no room left. -/
def doubled (capacity : Nat) : Nat := if capacity = 0 then 16 else 2 * capacity

/-- The part of `push` that keeps the entry and finds out whether there is room. -/
def measuring : Code :=
  [.symbol pushSymbol] ++ prologue ++ [.push .rax, .binary .sub Register.rsp (.immediate 8),
    mov Register.rcx length, .binary .cmp Register.rcx capacity]

/-- The part of `push` that makes room. -/
def growing : Code :=
  [mov Register.rdx capacity, .binary .add Register.rdx Register.rdx,
    movImm Register.r10 initialCapacity, .binary .test Register.rdx Register.rdx,
    .cmov .equal .rdx .r10, mov capacity Register.rdx, mov Register.r11 Register.rdx,
    .binary .imul Register.r11 (.immediate 8), mov Register.r10 entries]

/-- The part of `push` that has room. -/
def storing : Code :=
  [.label ⟨1⟩, mov Register.rcx entries, mov Register.rdx length,
    mov Register.rax (Address.frame (-8)), mov (Address.entry .rcx .rdx 0) Register.rax,
    .unary .inc length]

theorem push_eq (platform : Platform) : push platform ⟨1⟩ =
    measuring ++ (jumpIf .below ⟨1⟩ :: (growing ++
      (callC platform "realloc" [Register.r10, Register.r11] ++
        (checkAllocation ++ (mov entries Register.rax :: (storing ++ epilogue)))))) := by
  simp [push, measuring, growing, storing]

end RegionCompiler.Collector

namespace RegionCompiler.Machine.Process

open Collector Instr

section Statements

variable (w : Process) (r : Collector.Routine) (k : Int) (e : State) (c : Regions)

/-- Whether a routine finds no room for the entry that it appends. -/
def grows : Bool := r.appends c && c.entries.length == (w.capacity e.memory).toNat

/-- The bytes that a larger stack takes. -/
def grownBytes : Word := BitVec.ofNat 64 (8 * doubled (w.capacity e.memory).toNat)

/-- What a routine asks of the C library, in this order. -/
def wishes : List Request :=
  (if w.grows r e c then [.realloc (w.data e.memory) (w.grownBytes e)] else []) ++
    (r.freed (e.registers .rax) c).map .free

/-- What holds when a routine returns. -/
structure Performed (s : State) : Prop where
  rsp : s.registers .rsp = e.registers .rsp
  rbp : s.registers .rbp = e.registers .rbp
  rax : r = .push → s.registers .rax = e.registers .rax
  holds : w.Holds s.memory s.blocks (r.apply (e.registers .rax) c)
  capacity : (w.capacity s.memory).toNat =
    if w.grows r e c then doubled (w.capacity e.memory).toNat else (w.capacity e.memory).toNat
  leaves : w.Leaves k (w.data e.memory :: w.data s.memory :: r.freed (e.registers .rax) c) e s
  fresh : w.data s.memory = w.data e.memory ∨
    e.blocks (w.data s.memory) = none ∧ s.blocks (w.data e.memory) = none
  gone : ∀ p ∈ r.freed (e.registers .rax) c, s.blocks p = none
  calls : ∃ calls, s.calls = e.calls ++ calls ∧
    calls.map (Call.request w.platform) = w.wishes r e c ∧
    ∀ call ∈ calls, ∀ p, call.request w.platform = .free p → p = 0#64 ∨ call.blocks p ≠ none

/-- A routine that found no room for its entry has asked for a larger stack, all that it has asked
for, and was turned down. The run has come to where programs end that are out of memory. -/
structure Refused (j : Nat) (s : State) : Prop where
  grows : w.grows r e c
  scarce : w.scarce e.blocks (w.data e.memory) (w.grownBytes e)
  asked : ∃ call, s.calls = e.calls ++ [call] ∧
    call.request w.platform = .realloc (w.data e.memory) (w.grownBytes e)
  null : s.registers .rax = 0#64
  trap : positionOf w.image.code (.symbol memoryTrap) = some j

/-- The ways in which a routine may end: it returns, it has run out of memory, or it is about to
free what is not a block of the program. -/
def Ends (j : Nat) (s : State) : Prop :=
  w.image.code[j]? = some .ret ∧ w.Performed r k e c s ∨ w.Refused r e c j s ∨
  ∃ done p rest calls, r.freed (e.registers .rax) c = done ++ p :: rest ∧ p ≠ 0#64 ∧
    (p = w.data e.memory ∨ e.blocks p = none ∨ p ∈ done) ∧
    w.image.code[j]? = some (.call "free") ∧ argument w.platform s.registers 0 = p ∧
    s.calls = e.calls ++ calls ∧ calls.map (Call.request w.platform) = done.map .free

end Statements

variable {w : Process} {k : Int} {j : Nat} {own : List Word} {e s : State} {c : Regions} {v : Word}
  {P : Nat → State → Prop}

theorem store_arrives {depth : Nat} (hentered : w.Entered depth k e) (hdepth : 16 ≤ depth)
    (hsound : w.Sound e.blocks)
    (hsits : Sits w.image.code j (storing ++ epilogue))
    (hs : w.Inside k own e s) (hc : w.Holds s.memory s.blocks c) (hown : w.data s.memory ∈ own)
    (hroom : c.entries.length < (w.capacity s.memory).toNat)
    (hv : s.memory.word (w.at_ (k - 16)) = v) :
    w.image.Arrives j s fun j' s' => w.image.code[j']? = some .ret ∧
      s'.registers .rsp = w.at_ k ∧ s'.registers .rbp = e.registers .rbp ∧
      s'.registers .rax = v ∧ w.Holds s'.memory s'.blocks (c.push v) ∧ w.Leaves k own e s' ∧
      w.data s'.memory = w.data s.memory ∧ w.capacity s'.memory = w.capacity s.memory ∧
      s'.blocks = s.blocks ∧ s'.calls = s.calls := by
  have hlength : (s.memory.put (slot (w.data s.memory) c.entries.length) v).word
      (w.cell .length) = BitVec.ofNat 64 c.entries.length := by
    rw [Memory.word_put_apart (hc.apart_cell hroom _), hc.length]
  have hsaved : k - 8 + -8 = k - 16 := by omega
  obtain ⟨s', hrun, hrbp, hrax, hmemory, hblocks, hcalls⟩ : ∃ s',
      straight w.image.symbols storing s = some s' ∧
      s'.registers .rbp = w.at_ (k - 8) ∧ s'.registers .rax = v ∧
      s'.memory = (s.memory.put (slot (w.data s.memory) c.entries.length) v).put (w.cell .length)
        (BitVec.ofNat 64 (c.entries.length + 1)) ∧
      s'.blocks = s.blocks ∧ s'.calls = s.calls := by
    simp [storing, entries, length, hc.length, hs.rbp, hv, hsaved, hlength, BitVec.ofNat_add]
  have hs' : w.Inside k own e s' := by
    refine ⟨hrbp, ?_⟩
    exact ((hs.leaves.put_slot hc hown hroom v).put_cell hc.sound .length _).of_eq hmemory hblocks
  refine .straight hsits.left hrun (epilogue_arrives hentered (by omega) hs' hsits.right ?_)
  refine fun hret => ⟨hret, by simp [closed], by simp [closed], by simpa [closed] using hrax, ?_,
    hs'.closed hentered (by omega) hsound, ?_, ?_, hblocks, hcalls⟩
  · change w.Holds s'.memory s'.blocks _
    rw [hmemory, hblocks]
    exact hc.append hroom v
  · change w.data s'.memory = _
    simp [hmemory, hc.data_put_slot hroom]
  · change w.capacity s'.memory = _
    simp [hmemory, hc.capacity_put_slot hroom]

/-- The frame of `push`, in which the new entry is kept. -/
structure Pushing (w : Process) (k : Int) (e s : State) : Prop where
  rsp : s.registers .rsp = w.at_ (k - 24)
  rbp : s.registers .rbp = w.at_ (k - 8)
  memory : s.memory = (w.opened k e).memory.put (w.at_ (k - 16)) (e.registers .rax)
  blocks : s.blocks = e.blocks
  calls : s.calls = e.calls

namespace Pushing

variable (h : w.Pushing k e s) (hentered : w.Entered 56 k e) (hc : w.Holds e.memory e.blocks c)

include h

theorem saved : s.memory.word (w.at_ (k - 16)) = e.registers .rax := by
  rw [h.memory, Memory.word_put]

include hentered

theorem holds (hc : w.Holds e.memory e.blocks c) : w.Holds s.memory s.blocks c := by
  obtain ⟨-, -, hlow, hhigh⟩ := hentered
  rw [h.memory, h.blocks]
  exact (hc.put_stack (by omega) (by omega) _).put_stack (by omega) (by omega) _

theorem cells (x : Cell) : s.memory.word (w.cell x) = e.memory.word (w.cell x) := by
  obtain ⟨-, -, hlow, hhigh⟩ := hentered
  rw [h.memory, Memory.word_put_apart (apart_stack_cell (by omega) (by omega) x)]
  exact Memory.word_put_apart (apart_stack_cell (by omega) (by omega) x)

theorem inside (hsound : w.Sound e.blocks) (own : List Word) : w.Inside k own e s := by
  obtain ⟨-, -, hlow, hhigh⟩ := hentered
  refine ⟨h.rbp, ?_⟩
  exact ((Leaves.refl w (k - 8) own (w.opened k e)).put_stack hsound (by omega) (by omega)
    (by omega) _).of_eq h.memory h.blocks

end Pushing

theorem pushHead_arrives (hentered : w.Entered 56 k e) (hc : w.Holds e.memory e.blocks c)
    (hsits : Sits w.image.code j measuring)
    (hnext : ∀ s, w.Pushing k e s →
      s.flags.carry = some (decide (c.entries.length < (w.capacity e.memory).toNat)) →
      w.image.Arrives (j + 7) s P) :
    w.image.Arrives j e P := by
  refine .straight hsits.left.left (t := e) rfl (prologue_arrives hentered hsits.left.right ?_)
  obtain ⟨-, -, hlow, hhigh⟩ := hentered
  have hsaved : k - 8 + -8 = k - 16 := by omega
  have hbelow : k - 16 - 8 = k - 24 := by omega
  have hc' := (hc.put_stack (i := k - 8) (by omega) (by omega) (e.registers .rbp)).put_stack
    (i := k - 16) (by omega) (by omega) (e.registers .rax)
  have hcapacity : w.capacity ((e.memory.put (w.at_ (k - 8)) (e.registers .rbp)).put
      (w.at_ (k - 16)) (e.registers .rax)) = w.capacity e.memory := by
    rw [capacity_put_stack _ (by omega) (by omega), capacity_put_stack _ (by omega) (by omega)]
  obtain ⟨s, hrun, hrsp, hrbp, hmemory, hblocks, hcalls, hflags⟩ : ∃ s,
      straight w.image.symbols [.push .rax, .binary .sub Register.rsp (.immediate 8),
        mov Register.rcx length, .binary .cmp Register.rcx Collector.capacity] (w.opened k e) =
          some s ∧
      s.registers .rsp = w.at_ (k - 24) ∧ s.registers .rbp = w.at_ (k - 8) ∧
      s.memory = (w.opened k e).memory.put (w.at_ (k - 16)) (e.registers .rax) ∧
      s.blocks = e.blocks ∧ s.calls = e.calls ∧
      s.flags.carry = some (decide (c.entries.length < (w.capacity e.memory).toNat)) := by
    simp [opened, length, Collector.capacity, State.push, hsaved, hbelow, hc'.length, hcapacity,
      -BitVec.toNat_ofNat, hc.toNat_length]
  exact .straight hsits.right hrun (hnext s ⟨hrsp, hrbp, hmemory, hblocks, hcalls⟩ hflags)

theorem pushGrow_arrives (hc : w.Holds s.memory s.blocks c)
    (hsits : Sits w.image.code j growing)
    (hnext : ∀ s', s'.registers .rsp = s.registers .rsp → s'.registers .rbp = s.registers .rbp →
      s'.registers .r10 = w.data s.memory → s'.registers .r11 = w.grownBytes s →
      s'.memory = s.memory.put (w.cell .capacity)
        (BitVec.ofNat 64 (doubled (w.capacity s.memory).toNat)) →
      s'.blocks = s.blocks → s'.calls = s.calls → w.image.Arrives (j + 9) s' P) :
    w.image.Arrives j s P := by
  have hbounded := hc.bounded
  have hbytes (n : Nat) : BitVec.ofNat 64 n * 8#64 = BitVec.ofNat 64 (8 * n) := by
    rw [Nat.mul_comm, BitVec.ofNat_mul]
  obtain ⟨s', hrun, hrsp, hrbp, hr10, hr11, hmemory, hblocks, hcalls⟩ : ∃ s',
      straight w.image.symbols growing s = some s' ∧
      s'.registers .rsp = s.registers .rsp ∧ s'.registers .rbp = s.registers .rbp ∧
      s'.registers .r10 = w.data s.memory ∧ s'.registers .r11 = w.grownBytes s ∧
      s'.memory = s.memory.put (w.cell .capacity)
        (BitVec.ofNat 64 (doubled (w.capacity s.memory).toNat)) ∧
      s'.blocks = s.blocks ∧ s'.calls = s.calls := by
    by_cases hzero : w.capacity s.memory = 0#64
    · simp [growing, entries, Collector.capacity, Condition.holds, initialCapacity, hzero, doubled,
        grownBytes]
    · have hpositive : (w.capacity s.memory).toNat ≠ 0 := fun h => hzero (BitVec.eq_of_toNat_eq h)
      have hdouble : w.capacity s.memory + w.capacity s.memory =
          BitVec.ofNat 64 (2 * (w.capacity s.memory).toNat) := by
        rw [Nat.two_mul, BitVec.ofNat_add, BitVec.ofNat_toNat, BitVec.setWidth_eq]
      have hne : w.capacity s.memory + w.capacity s.memory ≠ 0#64 := by
        intro h
        have htoNat := congrArg BitVec.toNat h
        simp only [BitVec.toNat_add, BitVec.toNat_ofNat] at htoNat
        omega
      simp [growing, entries, Collector.capacity, Condition.holds, initialCapacity, hne, doubled,
        grownBytes, hpositive]
      simp [hdouble, hbytes]
  exact .straight hsits hrun (hnext s' hrsp hrbp hr10 hr11 hmemory hblocks hcalls)

theorem toNat_grownBytes (hc : w.Holds s.memory s.blocks c) :
    (w.grownBytes s).toNat = 8 * doubled (w.capacity s.memory).toNat := by
  have hbounded := hc.bounded
  rw [grownBytes, BitVec.toNat_ofNat, doubled]
  split <;> omega

theorem Holds.grown {s' : State} (hc : w.Holds s.memory s.blocks c) (hsound : w.Sound s'.blocks)
    (hfull : c.entries.length = (w.capacity s.memory).toNat)
    (hlength : s'.memory.word (w.cell .length) = s.memory.word (w.cell .length))
    (hmoved : s'.memory.word (w.cell .moved) = s.memory.word (w.cell .moved))
    (hcapacity : w.capacity s'.memory =
      BitVec.ofNat 64 (doubled (w.capacity s.memory).toNat))
    (hblock : s'.blocks (w.data s'.memory) = some (w.grownBytes s).toNat)
    (hbytes : ∀ n, s.blocks (w.data s.memory) = some n → ∀ j < min n (w.grownBytes s).toNat,
      s'.memory (w.data s'.memory + BitVec.ofNat 64 j) =
        s.memory (w.data s.memory + BitVec.ofNat 64 j)) :
    w.Holds s'.memory s'.blocks c ∧
      (w.capacity s'.memory).toNat = doubled (w.capacity s.memory).toNat := by
  have hbounded := hc.bounded
  have hcapacity' : (w.capacity s'.memory).toNat = doubled (w.capacity s.memory).toNat := by
    rw [hcapacity, BitVec.toNat_ofNat, doubled]
    split <;> omega
  have hgrown := toNat_grownBytes hc
  have hle : (w.capacity s.memory).toNat ≤ doubled (w.capacity s.memory).toNat := by
    rw [doubled]
    split <;> omega
  refine ⟨hc.relocate hsound hlength hmoved ?_ ?_ ?_, hcapacity'⟩
  · rw [hcapacity', hfull]
    exact hle
  · right
    rw [hblock, hcapacity', hgrown]
  · intro j hj
    rcases hc.block with ⟨-, hzero⟩ | hold
    · rw [hfull, hzero] at hj
      exact absurd hj (by simp)
    · exact hbytes _ hold j (by omega)

theorem pushTail_arrives (hentered : w.Entered 56 k e) (hsound : w.Sound e.blocks)
    (hsits : Sits w.image.code j (storing ++ epilogue))
    (hs : w.Inside k [w.data e.memory, w.data s.memory] e s)
    (hc : w.Holds s.memory s.blocks c) (hroom : c.entries.length < (w.capacity s.memory).toNat)
    (hsaved : s.memory.word (w.at_ (k - 16)) = e.registers .rax)
    (hcapacity : (w.capacity s.memory).toNat =
      if w.grows .push e c then doubled (w.capacity e.memory).toNat
      else (w.capacity e.memory).toNat)
    (hfresh : w.data s.memory = w.data e.memory ∨
      e.blocks (w.data s.memory) = none ∧ s.blocks (w.data e.memory) = none)
    (hcalls : ∃ calls, s.calls = e.calls ++ calls ∧
      calls.map (Call.request w.platform) = w.wishes .push e c ∧
      ∀ call ∈ calls, ∀ p, call.request w.platform = .free p → p = 0#64 ∨ call.blocks p ≠ none) :
    w.image.Arrives j s (w.Ends .push k e c) := by
  refine (store_arrives hentered (by omega) hsound hsits hs hc (by simp) hroom hsaved).mono ?_
  rintro j' s' ⟨hret, hrsp, hrbp, hrax, hc', hleaves, hdata, hcapacity', hblocks', hcalls'⟩
  refine .inl ⟨hret, ?_⟩
  exact {
    rsp := hrsp.trans hentered.rsp.symm
    rbp := hrbp
    rax := fun _ => hrax
    holds := hc'
    capacity := by rw [hcapacity', hcapacity]
    leaves := by rw [hdata]; exact hleaves
    fresh := by
      rw [hdata, hblocks']
      exact hfresh
    gone := by simp [Collector.Routine.freed]
    calls := by rw [hcalls']; exact hcalls }

section Grown

variable {s₂ s₃ t : State} (hs : w.Pushing k e s)
  (hmemory : s₂.memory = s.memory.put (w.cell .capacity)
    (BitVec.ofNat 64 (doubled (w.capacity s.memory).toNat)))
  (hblocks : s₂.blocks = s.blocks)
  (hcalled : w.Called (k - 24) [w.data s.memory, s₃.registers .rax]
    (.realloc (w.data s.memory) (w.grownBytes s)) s₂ s₃)
  (hstored : t.memory = s₃.memory.put (w.cell .entries) (s₃.registers .rax))
  (hheld : t.blocks = s₃.blocks)

include hmemory hcalled hstored

theorem grown_cells (x : Cell) : t.memory.word (w.cell x) =
    if x = .entries then s₃.registers .rax
    else if x = .capacity then BitVec.ofNat 64 (doubled (w.capacity s.memory).toNat)
    else s.memory.word (w.cell x) := by
  rw [hstored, word_put_cell, hcalled.cells, hmemory, word_put_cell]

include hblocks hheld

theorem grown_holds (hc : w.Holds s.memory s.blocks c)
    (hfull : c.entries.length = (w.capacity s.memory).toNat)
    (hblock : s₃.blocks (s₃.registers .rax) = some (w.grownBytes s).toNat)
    (hcontents : ∀ n, s₂.blocks (w.data s.memory) = some n → ∀ j < min n (w.grownBytes s).toNat,
      s₃.memory (s₃.registers .rax + BitVec.ofNat 64 j) =
        s₂.memory (w.data s.memory + BitVec.ofNat 64 j)) :
    w.Holds t.memory t.blocks c ∧
      (w.capacity t.memory).toNat = doubled (w.capacity s.memory).toNat := by
  have hcell := grown_cells hmemory hcalled hstored
  have hdata : w.data t.memory = s₃.registers .rax := hcell .entries
  have hheap (m : Memory) (x : Cell) (v : Word) (a : Word) (ha : w.heap a) :
      m.put (w.cell x) v a = m a :=
    Memory.put_outside (fun _ => w.inCell_add x) (w.heap_cell a ha x)
  refine hc.grown ?_ hfull ?_ ?_ ?_ ?_ ?_
  · rw [hheld]
    exact hcalled.sound
  · simp [hcell]
  · simp [hcell]
  · exact hcell .capacity
  · rw [hheld, hdata, hblock]
  · intro n hn j hj
    have hin : w.heap (s₃.registers .rax + BitVec.ofNat 64 j) :=
      hcalled.sound.inside hblock j (by omega)
    rw [hdata, hstored, hheap _ _ _ _ hin, hcontents n (by rwa [hblocks]) j hj, hmemory,
      hheap _ _ _ _ (hc.sound.inside hn j (by omega))]

include hs

theorem grown_leaves (hentered : w.Entered 56 k e) (hc : w.Holds e.memory e.blocks c) :
    w.Leaves (k - 8) [w.data e.memory, w.data t.memory] (w.opened k e) t := by
  have hdata : w.data t.memory = s₃.registers .rax :=
    grown_cells hmemory hcalled hstored .entries
  have hasked : w.Leaves (k - 8) [w.data e.memory, w.data t.memory] (w.opened k e) s₂ :=
    ((hs.inside hentered hc.sound _).leaves.put_cell (hs.holds hentered hc).sound .capacity _).of_eq
      hmemory hblocks
  have hleaves := hcalled.leaves
  rw [show w.data s.memory = w.data e.memory from hs.cells hentered .entries, ← hdata] at hleaves
  exact ((hasked.trans (hleaves.mono (by omega) (List.Subset.refl _))).put_cell
    hcalled.sound .entries _).of_eq hstored hheld

omit hblocks hheld

theorem grown_saved (hentered : w.Entered 56 k e) :
    t.memory.word (w.at_ (k - 16)) = e.registers .rax := by
  obtain ⟨-, -, hlow, hhigh⟩ := hentered
  have happart (x : Cell) := (apart_stack_cell (w := w) (i := k - 16) (by omega)
    (by omega) x).symm
  rw [hstored, Memory.word_put_apart (happart _),
    hcalled.leaves.word_at (by omega) (by omega) (by omega), hmemory,
    Memory.word_put_apart (happart _), hs.saved]

end Grown

theorem pushGrown_arrives (hentered : w.Entered 56 k e) (hc : w.Holds e.memory e.blocks c)
    (hfull : c.entries.length = (w.capacity e.memory).toNat) (hs : w.Pushing k e s)
    {s₂ s₃ : State} (hrbp : s₂.registers .rbp = s.registers .rbp)
    (hmemory : s₂.memory = s.memory.put (w.cell .capacity)
      (BitVec.ofNat 64 (doubled (w.capacity s.memory).toNat)))
    (hblocks : s₂.blocks = s.blocks) (hcalls : s₂.calls = s.calls)
    (hcalled : w.Called (k - 24) [w.data s.memory, s₃.registers .rax]
      (.realloc (w.data s.memory) (w.grownBytes s)) s₂ s₃)
    (houtcome : s₃.registers .rax = 0#64 ∧ w.scarce s₂.blocks (w.data s.memory) (w.grownBytes s) ∨
      s₃.registers .rax ≠ 0#64 ∧
        (s₃.registers .rax = w.data s.memory ∨
          s₂.blocks (s₃.registers .rax) = none ∧ s₃.blocks (w.data s.memory) = none) ∧
        s₃.blocks (s₃.registers .rax) = some (w.grownBytes s).toNat ∧
        ∀ n, s₂.blocks (w.data s.memory) = some n → ∀ j < min n (w.grownBytes s).toNat,
          s₃.memory (s₃.registers .rax + BitVec.ofNat 64 j) =
            s₂.memory (w.data s.memory + BitVec.ofNat 64 j))
    (hsits : Sits w.image.code j
      (checkAllocation ++ (mov entries Register.rax :: (storing ++ epilogue)))) :
    w.image.Arrives j s₃ (w.Ends .push k e c) := by
  have hdata : w.data s.memory = w.data e.memory := hs.cells hentered .entries
  have hcapacity : w.capacity s.memory = w.capacity e.memory := hs.cells hentered .capacity
  have hbytes : w.grownBytes s = w.grownBytes e := by rw [grownBytes, hcapacity, grownBytes]
  have hgrows : w.grows .push e c = true := by simp [grows, Collector.Routine.appends, hfull]
  obtain ⟨call, hcall, hrequest, -⟩ := hcalled.calls
  rw [hcalls, hs.calls] at hcall
  rw [hdata, hbytes] at hrequest
  refine .straight (hsits.left.take 1) (t := s₃.withFlags (.ofLogic (s₃.registers .rax)))
    (by simp [checkAllocation]) ?_
  rcases houtcome with ⟨hnull, hscarce⟩ | ⟨hne, hfresh, hblock, hcontents⟩
  · obtain ⟨i, hi⟩ := w.exists_memoryTrap
    refine .taken hsits.tail.head (by simp [Condition.holds, hnull]) hi (.here (.inr (.inl ?_)))
    rw [hblocks, hs.blocks, hdata, hbytes] at hscarce
    exact ⟨hgrows, hscarce, ⟨call, hcall, hrequest⟩, hnull, hi⟩
  · refine .notTaken hsits.tail.head (by simp [Condition.holds, hne]) ?_
    obtain ⟨t, hrun, hrbp', hstored, hheld, hcalls'⟩ : ∃ t,
        straight w.image.symbols [mov entries Register.rax]
          (s₃.withFlags (.ofLogic (s₃.registers .rax))) = some t ∧
        t.registers .rbp = s₃.registers .rbp ∧
        t.memory = s₃.memory.put (w.cell .entries) (s₃.registers .rax) ∧
        t.blocks = s₃.blocks ∧ t.calls = s₃.calls := by
      simp [entries]
    refine .straight (hsits.right.take 1) hrun ?_
    have hdata' : w.data t.memory = s₃.registers .rax := by simp [hstored]
    obtain ⟨hc', hcapacity'⟩ := grown_holds hmemory hblocks hcalled hstored hheld
      (hs.holds hentered hc) (by rw [hcapacity, hfull]) hblock hcontents
    refine pushTail_arrives hentered hc.sound hsits.right.tail
      ⟨?_, grown_leaves hs hmemory hblocks hcalled hstored hheld hentered hc⟩ hc' ?_
      (grown_saved hs hmemory hcalled hstored hentered) ?_ ?_ ?_
    · rw [hrbp', hcalled.rbp, hrbp, hs.rbp]
    · rw [hcapacity', hcapacity, hfull, doubled]
      split <;> omega
    · rw [hcapacity', hcapacity, if_pos hgrows]
    · rw [hdata', hheld, ← hdata, ← hs.blocks, ← hblocks]
      exact hfresh
    · exact ⟨[call], by rw [hcalls', hcall],
        by simp [wishes, hgrows, hrequest, Collector.Routine.freed], by simp [hrequest]⟩

theorem push_arrives (hentered : w.Entered 56 k e) (hc : w.Holds e.memory e.blocks c)
    (hsits : Sits w.image.code j (Collector.Routine.push.code w.platform)) :
    w.image.Arrives j e (w.Ends .push k e c) := by
  have hroutine : Sits w.image.code j (Collector.push w.platform ⟨1⟩) := hsits
  rw [push_eq] at hroutine
  have hgrowing := hroutine.right.tail
  have hrest := hgrowing.right.right
  have hstore := hrest.right.tail
  refine pushHead_arrives hentered hc hroutine.left fun s hs hcarry => ?_
  have hjump : w.image.code[j + 7]? = some (.jcc .below (.label ⟨1⟩)) := hroutine.right.head
  have hcs := hs.holds hentered hc
  have hdata : w.data s.memory = w.data e.memory := hs.cells hentered .entries
  have hcapacity : w.capacity s.memory = w.capacity e.memory := hs.cells hentered .capacity
  by_cases hroom : c.entries.length < (w.capacity e.memory).toNat
  · have hgrows : w.grows .push e c = false := by
      simp only [grows, Bool.and_eq_false_iff, beq_eq_false_iff_ne]
      exact .inr (by omega)
    refine .taken hjump (by simp [Condition.holds, hcarry, hroom])
      (w.position_of hstore.head rfl) ?_
    refine pushTail_arrives hentered hc.sound hstore (hs.inside hentered hc.sound _) hcs
      (by rwa [hcapacity]) hs.saved (by rw [hcapacity, if_neg (by simp [hgrows])]) (.inl hdata) ?_
    exact ⟨[], by simp [hs.calls], by simp [wishes, hgrows, Collector.Routine.freed], by simp⟩
  · refine .notTaken hjump (by simp [Condition.holds, hcarry, hroom]) ?_
    refine pushGrow_arrives hcs hgrowing.left ?_
    intro s₂ hrsp hrbp hr10 hr11 hmemory hblocks hcalls
    have hfull : c.entries.length = (w.capacity e.memory).toNat := by
      have hfits := hc.fits
      omega
    have hcalling : w.Calling (k - 24) s₂ := by
      obtain ⟨-, haligned, hlow, hhigh⟩ := hentered
      refine ⟨hrsp.trans hs.rsp, by omega, by omega, by omega, ?_⟩
      rw [hblocks]
      exact hcs.sound
    refine realloc_arrives hgrowing.right.left hcalling hr10 hr11 ?_ ?_ ?_
    · rw [hblocks]
      rcases hcs.block with ⟨hnull, -⟩ | hblock
      · exact .inl hnull
      · exact .inr (by simp [hblock])
    · intro hzero
      have hbytes := toNat_grownBytes hcs
      rw [hzero, doubled] at hbytes
      split at hbytes <;> simp at hbytes
      omega
    · intro s₃ hcalled houtcome
      refine pushGrown_arrives hentered hc hfull hs hrbp hmemory hblocks hcalls hcalled ?_ hrest
      exact houtcome

/-- A routine that appends and goes on as `push`: it has asked the C library for nothing, and of
the cells it may have changed `moved` alone. -/
structure Relays (w : Process) (r : Collector.Routine) (e e' : State) (c c' : Regions) : Prop where
  appends : r.appends c = true
  freed : r.freed (e.registers .rax) c = []
  length : c'.entries.length = c.entries.length
  cells : ∀ x, x ≠ .moved → e'.memory.word (w.cell x) = e.memory.word (w.cell x)
  blocks : e'.blocks = e.blocks
  calls : e'.calls = e.calls

namespace Relays

variable {r : Collector.Routine} {e' : State} {c' : Regions} {k' : Int}
  (h : w.Relays r e e' c c')

include h

theorem data : w.data e'.memory = w.data e.memory := h.cells .entries (by decide)

theorem capacity : w.capacity e'.memory = w.capacity e.memory := h.cells .capacity (by decide)

theorem grows : w.grows .push e' c' = w.grows r e c := by
  rw [Process.grows, Process.grows, h.capacity, h.length, h.appends]
  rfl

theorem grownBytes : w.grownBytes e' = w.grownBytes e := by
  rw [Process.grownBytes, Process.grownBytes, h.capacity]

theorem wishes : w.wishes .push e' c' = w.wishes r e c := by
  have hpush : Collector.Routine.push.freed (e'.registers .rax) c' = [] := rfl
  simp [Process.wishes, h.grows, h.grownBytes, h.data, h.freed, hpush]

theorem refused (hs : w.Refused .push e' c' j s) : w.Refused r e c j s where
  grows := h.grows ▸ hs.grows
  scarce := by
    have hscarce := hs.scarce
    rwa [h.blocks, h.data, h.grownBytes] at hscarce
  asked := by
    have hasked := hs.asked
    rwa [h.calls, h.data, h.grownBytes] at hasked
  null := hs.null
  trap := hs.trap

theorem performed {t : State} (hs : w.Performed .push k' e' c' s) (hr : r ≠ .push)
    (hrsp : t.registers .rsp = e.registers .rsp) (hrbp : t.registers .rbp = e.registers .rbp)
    (hc : w.Holds s.memory s.blocks (r.apply (e.registers .rax) c))
    (hleaves : w.Leaves k [w.data e.memory, w.data s.memory] e t)
    (hmemory : t.memory = s.memory) (hblocks : t.blocks = s.blocks) (hcalls : t.calls = s.calls) :
    w.Performed r k e c t where
  rsp := hrsp
  rbp := hrbp
  rax hpush := absurd hpush hr
  holds := by rwa [hmemory, hblocks]
  capacity := by rw [hmemory, hs.capacity, h.grows, h.capacity]
  leaves := by rwa [hmemory, h.freed]
  fresh := by
    rw [hmemory, hblocks, ← h.data, ← h.blocks]
    exact hs.fresh
  gone := by simp [h.freed]
  calls := by
    rw [hcalls, ← h.calls, ← h.wishes]
    exact hs.calls

/-- `push` frees nothing, so that it returns or is refused the room. -/
theorem ends (hends : w.Ends .push k' e' c' j s) :
    w.image.code[j]? = some .ret ∧ w.Performed .push k' e' c' s ∨ w.Refused r e c j s := by
  rcases hends with hreturns | hrefused | ⟨done, p, rest, -, hfreed, -⟩
  · exact .inl hreturns
  · exact .inr (h.refused hrefused)
  · simp [Collector.Routine.freed] at hfreed

end Relays

theorem enter_arrives (hentered : w.Entered 72 k e) (hc : w.Holds e.memory e.blocks c)
    (hsits : Sits w.image.code j (Collector.Routine.enter.code w.platform)) :
    w.image.Arrives j e (w.Ends .enter k e c) := by
  have hroutine : Sits w.image.code j ([.symbol enterSymbol] ++ (prologue ++
    (movImm Register.rax Collector.marker :: .call pushSymbol :: epilogue))) := hsits
  have hbody := hroutine.right.right
  obtain ⟨start, hpush⟩ := w.sits_routine .push
  refine .straight hroutine.left (t := e) rfl (prologue_arrives hentered hroutine.right.left ?_)
  refine .straight (hbody.take 1) (t := (w.opened k e).set .rax Regions.marker)
    (by simp [Regions.marker]) ?_
  refine .call hbody.tail.head (w.position_of hpush.head rfl) ?_
  change w.image.Arrives start (((w.opened k e).set .rax Regions.marker).push
    (w.image.addressOf (j + 5))) _
  generalize hback : w.image.addressOf (j + 5) = back
  generalize he' : ((w.opened k e).set .rax Regions.marker).push back = e'
  obtain ⟨hrsp, hrbp, hrax, hmemory, hblocks, hcalls⟩ : e'.registers .rsp = w.at_ (k - 16) ∧
      e'.registers .rbp = w.at_ (k - 8) ∧ e'.registers .rax = Regions.marker ∧
      e'.memory = (w.opened k e).memory.put (w.at_ (k - 16)) back ∧ e'.blocks = e.blocks ∧
      e'.calls = e.calls := by
    have hsaved : k - 8 + -8 = k - 16 := by omega
    simp [← he', opened, State.push, hsaved]
  have hplace := hentered
  obtain ⟨-, haligned, hlow, hhigh⟩ := hplace
  have hentered' : w.Entered 56 (k - 16) e' := ⟨hrsp, by omega, by omega, by omega⟩
  have hc' : w.Holds e'.memory e'.blocks c := by
    rw [hmemory, hblocks]
    exact (hc.put_stack (by omega) (by omega) _).put_stack (by omega) (by omega) _
  have hrelays : w.Relays .enter e e' c c := by
    refine ⟨rfl, rfl, rfl, fun x _ => ?_, hblocks, hcalls⟩
    rw [hmemory, Memory.word_put_apart (apart_stack_cell (by omega) (by omega) x)]
    exact Memory.word_put_apart (apart_stack_cell (by omega) (by omega) x)
  refine (push_arrives hentered' hc' hpush).bind fun i s hends => ?_
  rcases hrelays.ends hends with ⟨hret, hs⟩ | hrefused
  · have hpeek : s.peek = back := by
      rw [State.peek, hs.rsp, hrsp, hs.leaves.word_at (by omega) (by omega) (by omega), hmemory,
        Memory.word_put]
    refine .ret hret hbody.tail.head rfl (hpeek.trans hback.symm) ?_
    have hinside : w.Inside k [w.data e.memory, w.data s.memory] e s.drop := by
      refine ⟨by simp [State.drop, hs.rbp, hrbp], ?_⟩
      have hleaves : w.Leaves (k - 8) _ e' s := hs.leaves.mono (by omega) (List.Subset.refl _)
      rw [hrelays.data] at hleaves
      refine Leaves.of_eq (.trans ?_ hleaves) rfl rfl
      exact ((Leaves.refl w (k - 8) _ (w.opened k e)).put_stack hc.sound (by omega) (by omega)
        (by omega) _).of_eq hmemory hblocks
    have hholds := hs.holds
    rw [Collector.Routine.apply, hrax] at hholds
    refine epilogue_arrives hentered (by omega) hinside hbody.tail.tail fun hret => .inl ⟨hret, ?_⟩
    exact hrelays.performed hs (by decide) (by simp [closed, hentered.rsp]) (by simp [closed])
      hholds (hinside.closed hentered (by omega) hc.sound) rfl rfl rfl
  · exact .here (.inr (.inl hrefused))

/-- A routine that neither asks for room nor frees anything. -/
theorem Performed.quiet {r : Collector.Routine} (hrsp : s.registers .rsp = e.registers .rsp)
    (hrbp : s.registers .rbp = e.registers .rbp) (hr : r ≠ .push) (happends : r.appends c = false)
    (hfreed : r.freed (e.registers .rax) c = [])
    (hc : w.Holds s.memory s.blocks (r.apply (e.registers .rax) c))
    (hdata : w.data s.memory = w.data e.memory)
    (hcapacity : w.capacity s.memory = w.capacity e.memory)
    (hleaves : w.Leaves k [] e s) (hcalls : s.calls = e.calls) : w.Performed r k e c s where
  rsp := hrsp
  rbp := hrbp
  rax h := absurd h hr
  holds := hc
  capacity := by simp [hcapacity, grows, happends]
  leaves := hleaves.mono (Int.le_refl k) (List.nil_subset _)
  fresh := .inl hdata
  gone := by simp [hfreed]
  calls := ⟨[], by simp [hcalls], by simp [wishes, grows, happends, hfreed], by simp⟩

theorem adopt_arrives (hentered : w.Entered 56 k e) (hc : w.Holds e.memory e.blocks c)
    (hsits : Sits w.image.code j (Collector.Routine.adopt.code w.platform)) :
    w.image.Arrives j e (w.Ends .adopt k e c) := by
  have hroutine : Sits w.image.code j ([.symbol adoptSymbol, mov Register.rax moved,
    .binary .test Register.rax Register.rax] ++ (jumpIf .equal ⟨5⟩ :: movImm moved 0 ::
      .jmp (.symbol pushSymbol) :: .label ⟨5⟩ :: [.ret])) := hsits
  refine .straight hroutine.left
    (t := (e.set .rax c.moved).withFlags (.ofLogic c.moved)) (by simp [moved, hc.moved]) ?_
  by_cases hzero : c.moved = 0#64
  · refine .taken hroutine.right.head (by simp [Condition.holds, hzero])
      (w.position_of hroutine.right.tail.tail.tail.head rfl) ?_
    refine .straight (hroutine.right.tail.tail.tail.take 1) (by simp; rfl)
      (.here (.inl ⟨hroutine.right.tail.tail.tail.tail.head, ?_⟩))
    refine .quiet (by simp) (by simp) (by decide)
      (by simp [Collector.Routine.appends, hzero]) rfl ?_ rfl
      rfl ((Leaves.refl w k [] e).of_eq rfl rfl) rfl
    simpa [Collector.Routine.apply, Regions.adopt, hzero] using hc
  · refine .notTaken hroutine.right.head (by simp [Condition.holds, hzero]) ?_
    obtain ⟨start, hpush⟩ := w.sits_routine .push
    obtain ⟨e', hrun, hrsp, hrbp, hrax, hmemory, hblocks, hcalls⟩ : ∃ e',
        straight w.image.symbols [movImm moved 0]
          ((e.set .rax c.moved).withFlags (.ofLogic c.moved)) = some e' ∧
        e'.registers .rsp = e.registers .rsp ∧ e'.registers .rbp = e.registers .rbp ∧
        e'.registers .rax = c.moved ∧ e'.memory = e.memory.put (w.cell .moved) 0#64 ∧
        e'.blocks = e.blocks ∧ e'.calls = e.calls := by
      simp [moved]
    refine .straight (hroutine.right.tail.take 1) hrun ?_
    refine .jump hroutine.right.tail.tail.head (w.position_of hpush.head rfl) ?_
    have hentered' : w.Entered 56 k e' := { hentered with rsp := hrsp.trans hentered.rsp }
    have hc' : w.Holds e'.memory e'.blocks { c with moved := 0#64 } := by
      rw [hmemory, hblocks]
      exact hc.put_moved _
    have hrelays : w.Relays .adopt e e' c { c with moved := 0#64 } := by
      refine ⟨by simp [Collector.Routine.appends, hzero], rfl, rfl, fun x hx => ?_, hblocks, hcalls⟩
      simp [hmemory, word_put_cell, hx]
    refine (push_arrives hentered' hc' hpush).mono fun i s hends => ?_
    rcases hrelays.ends hends with ⟨hret, hs⟩ | hrefused
    · have hholds : w.Holds s.memory s.blocks c.adopt := by
        have hpushed := hs.holds
        rw [Collector.Routine.apply, hrax] at hpushed
        simpa [Regions.adopt, Regions.push, hzero] using hpushed
      have hleaves := hs.leaves
      rw [hrelays.data] at hleaves
      have hbefore : w.Leaves k [w.data e.memory, w.data s.memory] e e' :=
        ((Leaves.refl w k _ e).put_cell hc.sound .moved _).of_eq hmemory hblocks
      exact .inl ⟨hret, hrelays.performed hs (by decide) (hs.rsp.trans hrsp) (hs.rbp.trans hrbp)
        hholds (hbefore.trans hleaves) rfl rfl rfl⟩
    · exact .inr (.inl hrefused)

end RegionCompiler.Machine.Process
