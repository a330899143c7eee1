import RegionCompiler.Proofs.Machine.Process

/-! A simple system on which programs run. Its C library hands out any place on the heap that is
free, so that what programs expect of the library can be met. -/
namespace RegionCompiler.Machine

namespace Loading

def stackBase : Word := 0x100000#64

def stackSize : Nat := 0x10000

def OnHeap (a : Word) : Prop := 0x1000000 ≤ a.toNat ∧ a.toNat < 0x1100000

/-- The words of the collector lie one after the other. -/
def symbols (name : String) : Word :=
  if name = Collector.entriesSymbol then 0x1000#64
  else if name = Collector.lengthSymbol then 0x1008#64
  else if name = Collector.capacitySymbol then 0x1010#64
  else 0x1018#64

/-- A place to which a block may move: it is on the heap, and no other block is in the way. -/
structure Vacant (blocks : Word → Option Nat) (p bytes a : Word) : Prop where
  heap : ∀ j < bytes.toNat, OnHeap (a + BitVec.ofNat 64 j)
  apart : ∀ q n, blocks q = some n → q ≠ p →
    ∀ j < bytes.toNat, ∀ j' < n, a + BitVec.ofNat 64 j ≠ q + BitVec.ofNat 64 j'
  unused : a = p ∨ blocks a = none

open Classical in
/-- The functions of the C library that the collector needs. -/
noncomputable def library (platform : Platform) (name : String) (s : State) : Option State :=
  let p := argument platform s.registers 0
  let bytes := argument platform s.registers 1
  if name = "free" then
    some { s with blocks := Function.update s.blocks p none }
  else if name = "realloc" then
    if h : ∃ a, Vacant s.blocks p bytes a then
      let a := h.choose
      some { s.set .rax a with
        memory := fun x => if (x - a).toNat < bytes.toNat then s.memory
          (p + (x - a)) else s.memory x
        blocks := Function.update (Function.update s.blocks p none) a (some bytes.toNat) }
    else some (s.set .rax 0#64)
  else none

noncomputable def image (platform : Platform) (code : Code) (hcode : code.length < 2 ^ 63) :
    Image where
  code := code
  addressOf := BitVec.ofNat 64
  positionAt := BitVec.toNat
  positionAt_addressOf := by
    intro i instr hi _
    have hlt := (List.getElem?_eq_some_iff.1 hi).1
    rw [BitVec.toNat_ofNat]
    omega
  symbols := symbols
  library := library platform

noncomputable def places (platform : Platform) (code : Code) (hcode : code.length < 2 ^ 63) :
    Places where
  image := image platform code hcode
  platform := platform
  base := stackBase
  low := 0
  high := stackSize
  heap := OnHeap
  reserve := 0
  scarce blocks p bytes := ¬ ∃ a, Vacant blocks p bytes a

section Library

variable {platform : Platform} {code : Code} {hcode : code.length < 2 ^ 63}
  {blocks : Word → Option Nat} {p bytes a : Word}

theorem library_places : (places platform code hcode).image.library = library platform := rfl

theorem sound_erase {w : Places} (h : w.Sound blocks) (p : Word) :
    w.Sound (Function.update blocks p none) := by
  have hkept {q : Word} {n : Nat} (hq : Function.update blocks p none q = some n) :
      blocks q = some n := by
    by_cases hqp : q = p
    · simp [hqp] at hq
    · simpa [hqp] using hq
  constructor
  case null =>
    by_cases hp : 0#64 = p
    · simp [← hp]
    · simp [hp, h.null]
  case bounded => exact fun hq => h.bounded (hkept hq)
  case inside => exact fun hq => h.inside (hkept hq)
  case apart => exact fun hq hq' => h.apart (hkept hq) (hkept hq')

theorem sound_insert {w : Places} (h : w.Sound blocks) {n : Nat} (hnull : a ≠ 0#64)
    (hn : n < 2 ^ 63) (hinside : ∀ j < n, w.heap (a + BitVec.ofNat 64 j))
    (hapart : ∀ q n', blocks q = some n' → q ≠ a →
      ∀ j < n, ∀ j' < n', a + BitVec.ofNat 64 j ≠ q + BitVec.ofNat 64 j') :
    w.Sound (Function.update blocks a (some n)) := by
  constructor
  case null => simp [Ne.symm hnull, h.null]
  case bounded =>
    intro q n' hq
    by_cases hqa : q = a
    · obtain rfl : n = n' := by simpa [hqa] using hq
      exact hn
    · exact h.bounded (by simpa [hqa] using hq)
  case inside =>
    intro q n' hq
    by_cases hqa : q = a
    · obtain rfl : n = n' := by simpa [hqa] using hq
      rwa [hqa]
    · exact h.inside (by simpa [hqa] using hq)
  case apart =>
    intro q q' n₁ n₂ hq hq' hne j hj j' hj'
    by_cases hqa : q = a
    · obtain rfl : n = n₁ := by simpa [hqa] using hq
      have hq'a : q' ≠ a := fun heq => hne (hqa.trans heq.symm)
      rw [hqa]
      exact hapart q' n₂ (by simpa [hq'a] using hq') hq'a j hj j' hj'
    · have hold : blocks q = some n₁ := by simpa [hqa] using hq
      by_cases hq'a : q' = a
      · obtain rfl : n = n₂ := by simpa [hq'a] using hq'
        rw [hq'a]
        exact (hapart q n₁ hold hqa j' hj' j hj).symm
      · exact h.apart hold (by simpa [hq'a] using hq') hne j hj j' hj'

theorem Vacant.bounded (h : Vacant blocks p bytes a) (hpositive : bytes ≠ 0#64) :
    a ≠ 0#64 ∧ bytes.toNat < 2 ^ 63 := by
  have hfirst : 0 < bytes.toNat := by
    rcases Nat.eq_zero_or_pos bytes.toNat with hzero | hpos
    · exact absurd (BitVec.eq_of_toNat_eq hzero) hpositive
    · exact hpos
  have hstart := h.heap 0 hfirst
  simp only [OnHeap, BitVec.add_zero] at hstart
  refine ⟨fun hnull => by simp [hnull] at hstart, ?_⟩
  by_contra hlarge
  obtain ⟨size, hsize⟩ : ∃ size, size = 0x100000 := ⟨_, rfl⟩
  have hend := h.heap size (by omega)
  simp only [OnHeap, BitVec.toNat_add, BitVec.toNat_ofNat] at hend
  omega

theorem frees : (places platform code hcode).Frees := by
  intro s i p hs hp hlive
  refine ⟨{ s with blocks := Function.update s.blocks p none }, ?_,
    ⟨rfl, rfl, sound_erase hs.sound p, fun _ _ _ => rfl⟩, by simp, ?_⟩
  · subst hp
    rw [library_places]
    simp only [library, if_true]
    rfl
  · intro q hq
    exact ⟨by simp [hq], fun _ _ _ _ => rfl⟩

theorem reallocates : (places platform code hcode).Reallocates := by
  intro s i p bytes hs hp hbytes hlive hpositive
  by_cases h : ∃ a, Vacant s.blocks p bytes a
  · have hchosen := h.choose_spec
    have hrun : library platform "realloc" s = some { s.set .rax h.choose with
        memory := fun x => if (x - h.choose).toNat < bytes.toNat then s.memory (p + (x - h.choose))
          else s.memory x
        blocks := Function.update (Function.update s.blocks p none) h.choose
          (some bytes.toNat) } := by
      subst hp hbytes
      simp only [library, if_neg (show ¬ "realloc" = "free" by decide), if_true]
      exact dif_pos h
    generalize h.choose = a at hchosen hrun
    obtain ⟨hnull, hbounded⟩ := hchosen.bounded hpositive
    have hinside (x : Word) (hx : (x - a).toNat < bytes.toNat) : OnHeap x := by
      rw [← add_ofNat_sub a x]
      exact hchosen.heap _ hx
    rw [library_places]
    refine ⟨_, hrun, ⟨by simp, by simp, ?_, ?_⟩, ?_,
      .inr ⟨by simpa using hnull, ?_, by simp, ?_⟩⟩
    · refine sound_insert (sound_erase hs.sound p) hnull hbounded hchosen.heap ?_
      intro q n hq _
      have hqp : q ≠ p := by
        rintro rfl
        simp at hq
      exact hchosen.apart q n (by simpa [hqp] using hq) hqp
    · intro x hx _
      exact if_neg fun hlt => hx (hinside x hlt)
    · intro q hqp hqa
      have hqa' : q ≠ a := by simpa using hqa
      refine ⟨by simp [hqp, hqa'], fun n hn j hj => if_neg fun hlt => ?_⟩
      refine hchosen.apart q n hn hqp _ hlt j hj ?_
      rw [add_ofNat_sub]
    · rcases hchosen.unused with hsame | hfree
      · exact .inl (by simpa using hsame)
      · by_cases hap : a = p
        · exact .inl (by simpa using hap)
        · exact .inr ⟨by simpa using hfree, by simp [Ne.symm hap]⟩
    · intro n hn j hj
      have hj' : (a + BitVec.ofNat 64 j - a).toNat = j := by
        rw [BitVec.add_comm, BitVec.add_sub_cancel, BitVec.toNat_ofNat]
        omega
      have hback : a + BitVec.ofNat 64 j - a = BitVec.ofNat 64 j := by
        rw [BitVec.add_comm, BitVec.add_sub_cancel]
      simp only [State.registers_set, if_true]
      rw [if_pos (by omega), hback]
  · refine ⟨s.set .rax 0#64, ?_, ⟨by simp, by simp, hs.sound, fun _ _ _ => rfl⟩,
      fun q _ _ => ⟨rfl, fun _ _ _ _ => rfl⟩, .inl ⟨by simp, h, rfl, fun _ _ _ _ => rfl⟩⟩
    subst hp hbytes
    simp only [library_places, library, if_neg (show ¬ "realloc" = "free" by decide), if_true]
    exact dif_neg h

/-- Where the words of the collector lie. -/
def cellAddress : Cell → Nat
  | .entries => 0x1000
  | .length => 0x1008
  | .capacity => 0x1010
  | .moved => 0x1018

theorem toNat_of_inCell {x : Cell} (h : (places platform code hcode).InCell x a) :
    cellAddress x ≤ a.toNat ∧ a.toNat < cellAddress x + 8 := by
  have hcell : (places platform code hcode).cell x = BitVec.ofNat 64 (cellAddress x) := by
    cases x <;> rfl
  rw [Places.InCell, hcell, BitVec.toNat_sub, BitVec.toNat_ofNat] at h
  cases x <;> simp only [cellAddress] at h ⊢ <;> omega

theorem toNat_of_onStack (h : (places platform code hcode).OnStack a) :
    0x100000 ≤ a.toNat ∧ a.toNat < 0x110000 := by
  obtain ⟨i, hlow, hhigh, rfl⟩ := h
  have hlow' : 0 ≤ i := hlow
  have hhigh' : i < 0x10000 := hhigh
  have hat : ((places platform code hcode).at_ i).toNat = (0x100000 + i).toNat % 2 ^ 64 := by
    change (stackBase + BitVec.ofInt 64 i).toNat = _
    rw [stackBase, BitVec.toNat_add, BitVec.toNat_ofInt, BitVec.toNat_ofNat]
    omega
  rw [hat]
  omega

end Library

/-- Code that has the collector in it becomes a program that runs. -/
noncomputable def process (platform : Platform) (code : Code) (hcode : code.length < 2 ^ 63)
    (resultSize : Nat) (hknown : platform = .linux ∨ platform = .windows)
    (hdistinct : (marks code).Nodup) (hcollector : Collector.code platform resultSize <:+: code)
    (hforeign : ∀ name ∈ Collector.cFunctions, positionOf code (.symbol name) = none) :
    Process where
  toPlaces := places platform code hcode
  resultSize := resultSize
  known := hknown
  aligned := by
    change stackBase.toNat % 16 = 0
    decide
  window := by
    change (0x10000 : Int) - 0 ≤ 2 ^ 64
    decide
  stack_heap a hstack hheap := by
    have h := toNat_of_onStack hstack
    have hheap' : 0x1000000 ≤ a.toNat ∧ a.toNat < 0x1100000 := hheap
    omega
  stack_cell a hstack x hcell := by
    have h := toNat_of_onStack hstack
    have h' := toNat_of_inCell hcell
    cases x <;> simp only [cellAddress] at h' <;> omega
  heap_cell a hheap x hcell := by
    have h' := toNat_of_inCell hcell
    have hheap' : 0x1000000 ≤ a.toNat ∧ a.toNat < 0x1100000 := hheap
    cases x <;> simp only [cellAddress] at h' <;> omega
  cell_cell x y hne a hx hy := by
    have h := toNat_of_inCell hx
    have h' := toNat_of_inCell hy
    cases x <;> cases y <;> simp only [cellAddress, ne_eq, not_true_eq_false] at h h' hne <;> omega
  distinct := hdistinct
  collector := hcollector
  foreign := hforeign
  realloc := reallocates
  free := frees

end Loading

end RegionCompiler.Machine
