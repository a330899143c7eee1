import RegionCompiler.Proofs.Machine.Process

/-! What the collector keeps, seen as a stack of words, and how that stack lies in memory. -/
namespace RegionCompiler.Collector

open Machine

structure Regions where
  /-- The newest entry is the last one. -/
  entries : List Word
  /-- The pointer that waits to be adopted, or zero. -/
  moved : Word

namespace Regions

/-- The entry that starts a frame. -/
def marker : Word := BitVec.ofInt 64 Collector.marker

def empty : Regions := ⟨[], 0#64⟩

def push (c : Regions) (p : Word) : Regions := { c with entries := c.entries ++ [p] }

def enter (c : Regions) : Regions := c.push marker

def innermost (c : Regions) : List Word := c.entries.rtakeWhile (· ≠ marker)

/-- Takes away the innermost frame together with its marker. -/
def exit (c : Regions) : Regions :=
  { c with entries := (c.entries.rdropWhile (· ≠ marker)).dropLast }

/-- What leaving the innermost frame frees, in this order. -/
def garbage (c : Regions) : List Word := c.innermost.reverse.filter (· ≠ 0#64)

def release (c : Regions) (p : Word) : Regions :=
  if c.entries.getLast? = some p then ⟨c.entries.dropLast, p⟩ else { c with moved := 0#64 }

def adopt (c : Regions) : Regions :=
  if c.moved = 0#64 then c else ⟨c.entries ++ [c.moved], 0#64⟩

def collect (c : Regions) (p : Word) : Regions :=
  { c with entries := (c.entries.reverse.replace p 0#64).reverse }

section Last

variable (es : List Word) (q p : Word)

theorem exit_concat (h : p ≠ marker) :
    (⟨es ++ [p], q⟩ : Regions).exit = (⟨es, q⟩ : Regions).exit := by
  simp [exit, h]

theorem exit_marker : (⟨es ++ [marker], q⟩ : Regions).exit = ⟨es, q⟩ := by
  simp [exit]

theorem garbage_concat (h : p ≠ marker) :
    (⟨es ++ [p], q⟩ : Regions).garbage =
      (if p = 0#64 then [] else [p]) ++ (⟨es, q⟩ : Regions).garbage := by
  have hinner : (⟨es ++ [p], q⟩ : Regions).innermost = (⟨es, q⟩ : Regions).innermost ++ [p] :=
    List.rtakeWhile_concat_pos _ _ _ (by simpa using h)
  rw [garbage, hinner, List.reverse_append, List.filter_append]
  by_cases hp : p = 0#64 <;> simp [hp, garbage]

theorem garbage_marker : (⟨es ++ [marker], q⟩ : Regions).garbage = [] := by
  simp [garbage, innermost]

end Last

variable {c : Regions} {p : Word}

theorem collect_found {es rest : List Word} (hc : c.entries = es ++ p :: rest) (hp : p ∉ rest) :
    c.collect p = { c with entries := c.entries.set es.length 0#64 } := by
  have hreplace : (rest.reverse ++ p :: es.reverse).replace p 0#64 =
      rest.reverse ++ 0#64 :: es.reverse := by
    rw [List.replace_append, if_neg (by simpa using hp), List.replace_cons_self]
  simp [collect, hc, hreplace]

theorem collect_missing (h : p ∉ c.entries) : c.collect p = c := by
  simp [collect, List.replace_of_not_mem, h]

end Regions

/-- The routines that programs call. -/
inductive Routine
  | push
  | enter
  | exit
  | release
  | adopt
  | collect
deriving DecidableEq

namespace Routine

def symbol : Routine → String
  | push => pushSymbol
  | enter => enterSymbol
  | exit => exitSymbol
  | release => releaseSymbol
  | adopt => adoptSymbol
  | collect => collectSymbol

/-- What a routine makes of the stack, when it is called with a word in `rax`. -/
def apply (p : Word) (c : Regions) : Routine → Regions
  | push => c.push p
  | enter => c.enter
  | exit => c.exit
  | release => c.release p
  | adopt => c.adopt
  | collect => c.collect p

def freed (p : Word) (c : Regions) : Routine → List Word
  | exit => c.garbage
  | collect => [p]
  | _ => []

/-- Whether a routine needs room for another entry. -/
def appends (c : Regions) : Routine → Bool
  | push | enter => true
  | adopt => c.moved ≠ 0#64
  | _ => false

def code (platform : Platform) : Routine → Code
  | push => Collector.push platform ⟨1⟩
  | enter => Collector.enter
  | exit => Collector.exit platform ⟨2⟩ ⟨3⟩
  | release => Collector.release ⟨4⟩
  | adopt => Collector.adopt ⟨5⟩
  | collect => Collector.collect platform ⟨6⟩ ⟨7⟩

end Routine

end RegionCompiler.Collector

namespace RegionCompiler.Machine.Process

open Collector

variable {w : Process} {m m' : Memory} {blocks : Word → Option Nat} {c : Regions} {i k : Int}
  {n : Nat} {v : Word} {x y : Cell}

/-- The block in which the collector keeps its stack. -/
def data (w : Process) (m : Memory) : Word := m.word (w.cell .entries)

def capacity (w : Process) (m : Memory) : Word := m.word (w.cell .capacity)

section Cells

variable (w : Process)

@[simp] theorem symbols_entries : w.image.symbols entriesSymbol = w.cell .entries := rfl

@[simp] theorem symbols_length : w.image.symbols lengthSymbol = w.cell .length := rfl

@[simp] theorem symbols_capacity : w.image.symbols capacitySymbol = w.cell .capacity := rfl

@[simp] theorem symbols_moved : w.image.symbols movedSymbol = w.cell .moved := rfl

@[simp] theorem word_entries : m.word (w.cell .entries) = w.data m := rfl

@[simp] theorem word_capacity : m.word (w.cell .capacity) = w.capacity m := rfl

end Cells

/-- Where an entry of the collector's stack lies. -/
def slot (a : Word) (n : Nat) : Word := a + BitVec.ofNat 64 (8 * n)

/-- Memory and blocks in which the collector has this stack. -/
structure Holds (w : Process) (m : Memory) (blocks : Word → Option Nat) (c : Regions) : Prop where
  sound : w.Sound blocks
  length : m.word (w.cell .length) = BitVec.ofNat 64 c.entries.length
  moved : m.word (w.cell .moved) = c.moved
  fits : c.entries.length ≤ (w.capacity m).toNat
  block : w.data m = 0#64 ∧ w.capacity m = 0#64 ∨ blocks (w.data m) = some
    (8 * (w.capacity m).toNat)
  entry : ∀ n e, c.entries[n]? = some e → m.word (slot (w.data m) n) = e

theorem slot_add (a : Word) (n k : Nat) :
    slot a n + BitVec.ofNat 64 k = a + BitVec.ofNat 64 (8 * n + k) := by
  rw [slot, BitVec.add_assoc, ← BitVec.ofNat_add]

@[simp] theorem add_mul_eight (a : Word) (n : Nat) : a + BitVec.ofNat 64 n * 8#64 = slot a n := by
  rw [slot, Nat.mul_comm, BitVec.ofNat_mul]

@[simp] theorem displace_slot (a : Word) (n : Nat) : displace (slot a (n + 1)) (-8) = slot a n := by
  have hnext : slot a (n + 1) = slot a n + 8#64 := by
    rw [slot, slot, Nat.mul_add, BitVec.ofNat_add, BitVec.add_assoc]
  have hback : 8#64 + BitVec.ofInt 64 (-8) = 0#64 := by decide
  rw [hnext, displace, BitVec.add_assoc, hback, BitVec.add_zero]

theorem apart_slot {a : Word} {n n' N : Nat} (hN : 8 * N < 2 ^ 63) (hn : n < N) (hn' : n' < N)
    (h : n ≠ n') : Memory.Apart (slot a n) (slot a n') := by
  simp only [Memory.Apart, slot, BitVec.toNat_sub, BitVec.toNat_add, BitVec.toNat_ofNat]
  omega

theorem onStack_word (hi : w.low ≤ i) (hi' : i + 8 ≤ w.high) :
    ∀ k < 8, w.OnStack (w.at_ i + BitVec.ofNat 64 k) := by
  intro k hk
  rw [w.at_add]
  exact onStack_at (by omega) (by omega)

theorem apart_stack_cell (hi : w.low ≤ i) (hi' : i + 8 ≤ w.high) (x : Cell) :
    Memory.Apart (w.at_ i) (w.cell x) :=
  .of_disjoint (fun a ha => w.stack_cell a ha x) (onStack_word hi hi') fun _ => w.inCell_add x

theorem data_put_stack (m : Memory) (hi : w.low ≤ i) (hi' : i + 8 ≤ w.high) (v : Word) :
    w.data (m.put (w.at_ i) v) = w.data m :=
  Memory.word_put_apart (apart_stack_cell hi hi' .entries)

theorem capacity_put_stack (m : Memory) (hi : w.low ≤ i) (hi' : i + 8 ≤ w.high) (v : Word) :
    w.capacity (m.put (w.at_ i) v) = w.capacity m :=
  Memory.word_put_apart (apart_stack_cell hi hi' .capacity)

theorem word_put_cell (m : Memory) (x y : Cell) (v : Word) :
    (m.put (w.cell x) v).word (w.cell y) = if y = x then v else m.word (w.cell y) := by
  split
  case isTrue h => rw [h, Memory.word_put]
  case isFalse h =>
    exact Memory.word_put_apart (.of_disjoint (w.cell_cell x y (Ne.symm h))
      (fun _ => w.inCell_add x) fun _ => w.inCell_add y)

@[simp] theorem data_put_cell (m : Memory) (x : Cell) (v : Word) :
    w.data (m.put (w.cell x) v) = if x = .entries then v else w.data m := by
  simp only [data, word_put_cell, eq_comm]

@[simp] theorem capacity_put_cell (m : Memory) (x : Cell) (v : Word) :
    w.capacity (m.put (w.cell x) v) = if x = .capacity then v else w.capacity m := by
  simp only [capacity, word_put_cell, eq_comm]

namespace Holds

theorem bounded (h : w.Holds m blocks c) : 8 * (w.capacity m).toNat < 2 ^ 63 := by
  rcases h.block with ⟨-, hcapacity⟩ | hblock
  · rw [hcapacity]
    decide
  · exact h.sound.bounded hblock

theorem toNat_length (h : w.Holds m blocks c) :
    (BitVec.ofNat 64 c.entries.length).toNat = c.entries.length := by
  have hbounded := h.bounded
  have hfits := h.fits
  rw [BitVec.toNat_ofNat]
  omega

theorem heap (h : w.Holds m blocks c) (hn : n < (w.capacity m).toNat) :
    ∀ k < 8, w.heap (slot (w.data m) n + BitVec.ofNat 64 k) := by
  intro k hk
  rw [slot_add]
  rcases h.block with ⟨-, hcapacity⟩ | hblock
  · rw [hcapacity] at hn
    cases hn
  · exact h.sound.inside hblock _ (by omega)

theorem apart_cell (h : w.Holds m blocks c) (hn : n < (w.capacity m).toNat) (x : Cell) :
    Memory.Apart (slot (w.data m) n) (w.cell x) :=
  .of_disjoint (fun a ha => w.heap_cell a ha x) (h.heap hn) fun _ => w.inCell_add x

theorem apart_stack (h : w.Holds m blocks c) (hn : n < (w.capacity m).toNat) (hi : w.low ≤ i)
    (hi' : i + 8 ≤ w.high) : Memory.Apart (w.at_ i) (slot (w.data m) n) :=
  .of_disjoint w.stack_heap (onStack_word hi hi') (h.heap hn)

theorem lt_capacity (h : w.Holds m blocks c) {e : Word} (he : c.entries[n]? = some e) :
    n < (w.capacity m).toNat :=
  (List.getElem?_eq_some_iff.1 he).1.trans_le h.fits

theorem word_put_slot (h : w.Holds m blocks c) (hn : n < (w.capacity m).toNat) (v : Word)
    {n' : Nat} (hn' : n' < (w.capacity m).toNat) :
    (m.put (slot (w.data m) n) v).word (slot (w.data m) n') =
      if n' = n then v else m.word (slot (w.data m) n') := by
  split
  case isTrue heq => rw [heq, Memory.word_put]
  case isFalse hne =>
    exact Memory.word_put_apart (apart_slot h.bounded hn hn' (Ne.symm hne))

theorem data_put_slot (h : w.Holds m blocks c) (hn : n < (w.capacity m).toNat) (v : Word) :
    w.data (m.put (slot (w.data m) n) v) = w.data m :=
  Memory.word_put_apart (h.apart_cell hn .entries)

theorem capacity_put_slot (h : w.Holds m blocks c) (hn : n < (w.capacity m).toNat) (v : Word) :
    w.capacity (m.put (slot (w.data m) n) v) = w.capacity m :=
  Memory.word_put_apart (h.apart_cell hn .capacity)

theorem update {c' : Regions} (h : w.Holds m blocks c) (hdata : w.data m' = w.data m)
    (hcapacity : w.capacity m' = w.capacity m)
    (hlength : m'.word (w.cell .length) = BitVec.ofNat 64 c'.entries.length)
    (hmoved : m'.word (w.cell .moved) = c'.moved)
    (hfits : c'.entries.length ≤ (w.capacity m).toNat)
    (hentry : ∀ n e, c'.entries[n]? = some e → m'.word (slot (w.data m) n) = e) :
    w.Holds m' blocks c' where
  sound := h.sound
  length := hlength
  moved := hmoved
  fits := by rw [hcapacity]; exact hfits
  block := by rw [hdata, hcapacity]; exact h.block
  entry := by rw [hdata]; exact hentry

/-- The stack is made of some words of memory only. -/
theorem congr (h : w.Holds m blocks c) (hcell : ∀ x, m'.word (w.cell x) = m.word (w.cell x))
    (hslot : ∀ n < (w.capacity m).toNat,
      m'.word (slot (w.data m) n) = m.word (slot (w.data m) n)) :
    w.Holds m' blocks c := by
  refine h.update (hcell _) (hcell _) ?_ ?_ h.fits ?_
  · rw [hcell, h.length]
  · rw [hcell, h.moved]
  · intro n e he
    rw [hslot n (h.lt_capacity he), h.entry n e he]

theorem put_stack (h : w.Holds m blocks c) (hi : w.low ≤ i) (hi' : i + 8 ≤ w.high) (v : Word) :
    w.Holds (m.put (w.at_ i) v) blocks c :=
  h.congr (fun x => Memory.word_put_apart (apart_stack_cell hi hi' x))
    fun _ hn => Memory.word_put_apart (h.apart_stack hn hi hi')

theorem put_moved (h : w.Holds m blocks c) (v : Word) :
    w.Holds (m.put (w.cell .moved) v) blocks { c with moved := v } := by
  refine h.update (by simp) (by simp) ?_ ?_ h.fits ?_
  · simp [word_put_cell, h.length]
  · simp
  · intro n e he
    rw [Memory.word_put_apart (h.apart_cell (h.lt_capacity he) _).symm, h.entry n e he]

/-- Only the oldest entries are left. -/
theorem put_length (h : w.Holds m blocks c) (hn : n ≤ c.entries.length) :
    w.Holds (m.put (w.cell .length) (BitVec.ofNat 64 n)) blocks
      { c with entries := c.entries.take n } := by
  have hfits := h.fits
  refine h.update (by simp) (by simp) ?_ ?_ ?_ ?_
  · simp [hn]
  · simp [word_put_cell, h.moved]
  · simp only [List.length_take]
    omega
  · intro k e he
    have hold : c.entries[k]? = some e := by
      simp only [List.getElem?_take] at he
      split at he
      · exact he
      · cases he
    rw [Memory.word_put_apart (h.apart_cell (h.lt_capacity hold) _).symm, h.entry k e hold]

theorem put_slot (h : w.Holds m blocks c) (hn : n < c.entries.length) (v : Word) :
    w.Holds (m.put (slot (w.data m) n) v) blocks { c with entries := c.entries.set n v } := by
  have hlt : n < (w.capacity m).toNat := hn.trans_le h.fits
  have hcell (x : Cell) :
      (m.put (slot (w.data m) n) v).word (w.cell x) = m.word (w.cell x) :=
    Memory.word_put_apart (h.apart_cell hlt x)
  refine h.update (hcell _) (hcell _) ?_ ?_ ?_ ?_
  · rw [hcell, h.length, List.length_set]
  · rw [hcell, h.moved]
  · rw [List.length_set]
    exact h.fits
  · intro k e he
    have hk : k < c.entries.length := by
      simpa using (List.getElem?_eq_some_iff.1 he).1
    rw [h.word_put_slot hlt v (hk.trans_le h.fits)]
    rw [List.getElem?_set] at he
    split at he
    case isTrue heq =>
      rw [if_pos heq.symm]
      simpa [hn] using he
    case isFalse hne => rw [if_neg (Ne.symm hne), h.entry k e he]

theorem relocate {blocks' : Word → Option Nat} (h : w.Holds m blocks c) (hsound : w.Sound blocks')
    (hlength : m'.word (w.cell .length) = m.word (w.cell .length))
    (hmoved : m'.word (w.cell .moved) = m.word (w.cell .moved))
    (hfits : c.entries.length ≤ (w.capacity m').toNat)
    (hblock : w.data m' = 0#64 ∧ w.capacity m' = 0#64 ∨
      blocks' (w.data m') = some (8 * (w.capacity m').toNat))
    (hbytes : ∀ j < 8 * c.entries.length,
      m' (w.data m' + BitVec.ofNat 64 j) = m (w.data m + BitVec.ofNat 64 j)) :
    w.Holds m' blocks' c where
  sound := hsound
  length := by rw [hlength, h.length]
  moved := by rw [hmoved, h.moved]
  fits := hfits
  block := hblock
  entry := by
    intro n e he
    have hn := (List.getElem?_eq_some_iff.1 he).1
    rw [← h.entry n e he]
    refine Memory.word_congr fun k hk => ?_
    rw [slot_add, slot_add]
    exact hbytes _ (by omega)

theorem transfer {s s' : State} (h : w.Holds s.memory s.blocks c) (hsound : w.Sound s'.blocks)
    (hcell : ∀ x, s'.memory.word (w.cell x) = s.memory.word (w.cell x))
    (hkept : Kept s s' (w.data s.memory)) : w.Holds s'.memory s'.blocks c := by
  have hdata : w.data s'.memory = w.data s.memory := hcell _
  have hcapacity : w.capacity s'.memory = w.capacity s.memory := hcell _
  have hfits := h.fits
  refine h.relocate hsound (hcell _) (hcell _) ?_ ?_ ?_
  · rwa [hcapacity]
  · rw [hdata, hcapacity, hkept.1]
    exact h.block
  · intro j hj
    rw [hdata]
    rcases h.block with ⟨-, hzero⟩ | hblock
    · simp only [hzero, BitVec.toNat_ofNat] at hfits
      omega
    · exact hkept.2 _ hblock j (by omega)

theorem append (h : w.Holds m blocks c) (hroom : c.entries.length < (w.capacity m).toNat)
    (v : Word) :
    w.Holds ((m.put (slot (w.data m) c.entries.length) v).put (w.cell .length)
      (BitVec.ofNat 64 (c.entries.length + 1))) blocks (c.push v) := by
  have hcell (x : Cell) : (m.put (slot (w.data m) c.entries.length) v).word (w.cell x) =
      m.word (w.cell x) :=
    Memory.word_put_apart (h.apart_cell hroom x)
  refine h.update ?_ ?_ ?_ ?_ ?_ ?_
  · simp [h.data_put_slot hroom]
  · simp [h.capacity_put_slot hroom]
  · simp [Regions.push]
  · simp [word_put_cell, hcell, h.moved, Regions.push]
  · simpa [Regions.push] using hroom
  · intro k e he
    have hk : k < (w.capacity m).toNat := by
      have hlt := (List.getElem?_eq_some_iff.1 he).1
      simp only [Regions.push, List.length_append, List.length_singleton] at hlt
      omega
    rw [Memory.word_put_apart (h.apart_cell hk _).symm, h.word_put_slot hroom v hk]
    rw [Regions.push, List.getElem?_append] at he
    split at he
    case isTrue hlt => rw [if_neg (by omega), h.entry k e he]
    case isFalse hlt =>
      obtain ⟨hzero, rfl⟩ : k - c.entries.length = 0 ∧ v = e := by
        simpa [List.getElem?_singleton] using he
      rw [if_pos (by omega)]

end Holds

end RegionCompiler.Machine.Process
