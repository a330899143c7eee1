import RegionCompiler.Proofs.Collector.Leaving

/-! Calls of routines that free nothing. They come back with all memory as it was that is not the
collector's own, or they find that there is no room for another entry. -/
namespace RegionCompiler.Collector.Regions

open Machine

/-- Frames are opened that have no entries yet. -/
def enters (c : Regions) (n : Nat) : Regions :=
  { c with entries := c.entries ++ List.replicate n marker }

variable (c : Regions) (n m : Nat)

@[simp] theorem enters_zero : c.enters 0 = c := by
  simp [enters]

theorem enters_enters : (c.enters n).enters m = c.enters (n + m) := by
  simp [enters]

theorem length_enters : (c.enters n).entries.length = c.entries.length + n := by
  simp [enters]

theorem enters_succ : c.enters (n + 1) = (c.enters n).enter := by
  simp [enters, enter, push, List.replicate_succ']

theorem exit_enters : (c.enters (n + 1)).exit = c.enters n := by
  rw [enters_succ]
  exact exit_marker _ _

theorem garbage_enters : (c.enters (n + 1)).garbage = [] := by
  rw [enters_succ]
  exact garbage_marker _ _

end RegionCompiler.Collector.Regions

namespace RegionCompiler.Machine.Process

open Collector

variable {w : Process} {r : Collector.Routine} {k : Int} {i j n : Nat} {s t u : State}
  {c c' : Regions} {a : Word}

/-- Memory that belongs neither to the collector nor to the C library, nor to some places of the
stack. -/
def Beyond (w : Process) (P : Int → Prop) (a : Word) : Prop :=
  ¬ w.heap a ∧ (∀ x, ¬ w.InCell x a) ∧ ∀ i, w.low ≤ i → P i → a ≠ w.at_ i

theorem Beyond.mono {P Q : Int → Prop} (h : w.Beyond P a) (hP : ∀ i, Q i → P i) : w.Beyond Q a :=
  ⟨h.1, h.2.1, fun i hlow hi => h.2.2 i hlow (hP i hi)⟩

theorem beyond_at {P : Int → Prop} (hlow : w.low ≤ k) (hhigh : k < w.high)
    (hP : ∀ i, P i → i < w.high ∧ i ≠ k) : w.Beyond P (w.at_ k) := by
  have hstack : w.OnStack (w.at_ k) := onStack_at hlow hhigh
  refine ⟨w.stack_heap _ hstack, w.stack_cell _ hstack, fun i hi hPi => ?_⟩
  obtain ⟨hlt, hne⟩ := hP i hPi
  exact at_ne hlow hhigh hi hlt hne.symm

/-- The blocks of the program are as they were, and none of them is the collector's. No others are
left behind. -/
structure Spares (w : Process) (s t : State) : Prop where
  kept : ∀ q, q ≠ w.data s.memory → s.blocks q ≠ none → Kept s t q ∧ q ≠ w.data t.memory
  gone : ∀ q, q ≠ w.data t.memory → (q = w.data s.memory ∨ s.blocks q = none) → t.blocks q = none

theorem Spares.refl (w : Process) (s : State) : w.Spares s s where
  kept _ hq _ := ⟨⟨rfl, fun _ _ _ _ => rfl⟩, hq⟩
  gone _ hq hnone := hnone.resolve_left hq

theorem Spares.trans (h : w.Spares s t) (h' : w.Spares t u) : w.Spares s u where
  kept q hq hlive := by
    obtain ⟨hkept, hdata⟩ := h.kept q hq hlive
    obtain ⟨hkept', hdata'⟩ := h'.kept q hdata (by rwa [hkept.1])
    exact ⟨hkept.trans hkept', hdata'⟩
  gone q hq hnone := by
    refine h'.gone q hq ?_
    by_cases hdata : q = w.data t.memory
    · exact .inl hdata
    · exact .inr (h.gone q hdata hnone)

theorem Spares.congr (h : w.Spares s t) (hmemory : u.memory = t.memory)
    (hblocks : u.blocks = t.blocks) : w.Spares s u := by
  obtain ⟨hkept, hgone⟩ := h
  constructor
  · simpa only [Kept, hmemory, hblocks] using hkept
  · simpa only [hmemory, hblocks] using hgone

/-- Memory outside of the heap and of the collector's words does not matter. -/
theorem Spares.of_heap (hsound : w.Sound s.blocks)
    (hmemory : ∀ a, (w.heap a ∨ ∃ x, w.InCell x a) → t.memory a = s.memory a)
    (hblocks : t.blocks = s.blocks) : w.Spares s t := by
  have hdata : w.data t.memory = w.data s.memory := by
    rw [data, data]
    exact Memory.word_congr fun n hn => hmemory _ (.inr ⟨.entries, w.inCell_add .entries hn⟩)
  constructor
  case kept =>
    refine fun q hq _ => ⟨⟨by rw [hblocks], fun n hn j hj => ?_⟩, by rwa [hdata]⟩
    exact hmemory _ (.inl (hsound.inside hn j hj))
  case gone =>
    rw [hdata, hblocks]
    exact (Spares.refl w s).gone

/-- A routine of the collector has just been called, and it finds no room for another entry: its
request for a larger stack is turned down, and the program ends out of memory. -/
structure Denied (w : Process) (r : Collector.Routine) (c : Regions) (s : State) (j : Nat)
    (t : State) : Prop where
  start : positionOf w.image.code (.symbol r.symbol) = some j
  holds : w.Holds t.memory t.blocks c
  spares : w.Spares s t
  refused : w.image.Arrives j t (w.Refused r t c)

/-- There is no room for another frame of the collector, though fewer than so many have been
opened. -/
def Exhausted (w : Process) (frames : Nat) (c : Regions) (s : State) (j : Nat) (t : State) : Prop :=
  ∃ n < frames, w.Denied .enter (c.enters n) s j t

theorem Exhausted.mono {frames frames' : Nat} (h : w.Exhausted frames c s j t)
    (hle : frames ≤ frames') : w.Exhausted frames' c s j t :=
  h.imp fun _ => And.imp_left fun hn => hn.trans_le hle

theorem Exhausted.after {frames : Nat} (h : w.Exhausted frames c t j u) (hspares : w.Spares s t) :
    w.Exhausted frames c s j u :=
  h.imp fun _ => And.imp_right fun hdenied =>
    { hdenied with spares := hspares.trans hdenied.spares }

theorem Exhausted.outside {frames : Nat} (h : w.Exhausted frames (c.enters n) s j t) :
    w.Exhausted (n + frames) c s j t := by
  obtain ⟨m, hm, hdenied⟩ := h
  rw [Regions.enters_enters] at hdenied
  exact ⟨n + m, by omega, hdenied⟩

/-- What was done by routines that free nothing: the collector has this stack, and all memory that
is not its own is as it was, from a place of the stack on. -/
structure Tended (w : Process) (k : Int) (c : Regions) (s t : State) : Prop where
  rsp : t.registers .rsp = s.registers .rsp
  rbp : t.registers .rbp = s.registers .rbp
  holds : w.Holds t.memory t.blocks c
  beyond : ∀ a, w.Beyond (· < k) a → t.memory a = s.memory a
  spares : w.Spares s t

theorem Tended.refl (hc : w.Holds s.memory s.blocks c) : w.Tended k c s s :=
  ⟨rfl, rfl, hc, fun _ _ => rfl, .refl w s⟩

theorem Tended.trans (h : w.Tended k c s t) (h' : w.Tended k c' t u) : w.Tended k c' s u where
  rsp := h'.rsp.trans h.rsp
  rbp := h'.rbp.trans h.rbp
  holds := h'.holds
  beyond a ha := (h'.beyond a ha).trans (h.beyond a ha)
  spares := h.spares.trans h'.spares

theorem push_tended (hc : w.Holds s.memory s.blocks c) (hrsp : s.registers .rsp = w.at_ k)
    (hlow : w.low + 8 ≤ k) (hhigh : k ≤ w.high) (v : Word) :
    (s.push v).memory = s.memory.put (w.at_ (k - 8)) v ∧
      w.Holds (s.push v).memory (s.push v).blocks c ∧
      (∀ a, w.Beyond (· < k) a → (s.push v).memory a = s.memory a) ∧ w.Spares s (s.push v) := by
  generalize he : s.push v = e
  obtain ⟨hmemory, hblocks⟩ : e.memory = s.memory.put (w.at_ (k - 8)) v ∧ e.blocks = s.blocks := by
    have hplace : k + -8 = k - 8 := by omega
    simp [← he, State.push, hrsp, hplace]
  have hleaves : w.Leaves k [] s e :=
    ((Leaves.refl w k [] s).put_stack hc.sound (i := k - 8) (by omega) (by omega) hhigh v).of_eq
      hmemory hblocks
  have hdata : w.data e.memory = w.data s.memory := by
    rw [hmemory, data_put_stack _ (by omega) (by omega)]
  refine ⟨hmemory, ?_, fun a ha => hleaves.untouched a ha.1 ha.2.1 ha.2.2, ?_, ?_⟩
  · rw [hmemory, hblocks]
    exact hc.put_stack (by omega) (by omega) _
  · exact fun q hq _ => ⟨hleaves.kept q (by simp), by rwa [hdata]⟩
  · rw [hdata, hblocks]
    exact (Spares.refl w s).gone

theorem tended_arrives (hi : w.image.code[i]? = some (.call r.symbol)) (hs : w.Standing k s)
    (hc : w.Holds s.memory s.blocks c) (hfreed : ∀ p, r.freed p c = []) :
    w.image.Arrives i s fun j t => w.Denied r c s j t ∨
      j = i + 1 ∧ w.Tended k (r.apply (s.registers .rax) c) s t := by
  obtain ⟨hrsp, haligned, hlow, hhigh⟩ := hs
  generalize hback : w.image.addressOf (i + 1) = back
  obtain ⟨hmemory, hc', hpushed, hspares⟩ := push_tended hc hrsp (by omega) hhigh back
  generalize he : s.push back = e at hmemory hc' hpushed hspares
  obtain ⟨hrsp', hrbp, hrax⟩ : e.registers .rsp = w.at_ (k - 8) ∧
      e.registers .rbp = s.registers .rbp ∧ e.registers .rax = s.registers .rax := by
    have hplace : k + -8 = k - 8 := by omega
    simp [← he, State.push, hrsp, hplace]
  have hentered : w.Entered 72 (k - 8) e := ⟨hrsp', by omega, by omega, by omega⟩
  obtain ⟨start, hstart, hsits⟩ := w.routine_start r
  refine .call hi hstart ?_
  rw [hback, he]
  obtain ⟨j, t, hruns, hends⟩ := routine_arrives hentered hc' hsits
  rcases hends with ⟨hret, ht⟩ | hrefused | ⟨done, p, rest, _, hnone, -⟩
  · have hreturns : w.image.Arrives start e fun j t =>
        w.image.code[j]? = some .ret ∧ w.Performed r (k - 8) e c t := ⟨j, t, hruns, hret, ht⟩
    refine hreturns.bind ?_
    rintro j t ⟨hret, ht⟩
    have hleaves := ht.leaves
    have hpeek : t.peek = back := by
      rw [State.peek, ht.rsp, hrsp', hleaves.word_at (by omega) (by omega) (by omega), hmemory,
        Memory.word_put]
    refine .ret hret hi rfl (hpeek.trans hback.symm) (.here (.inr ⟨rfl, ?_⟩))
    have hplace : k - 8 + 8 = k := by omega
    constructor
    case rsp => simp [State.drop, ht.rsp, hrsp', hrsp, hplace]
    case rbp => simp [State.drop, ht.rbp, hrbp]
    case holds =>
      rw [← hrax]
      exact ht.holds
    case beyond =>
      intro a ha
      obtain ⟨hheap, hcell, hstack⟩ := ha.mono fun i (hi : i < k - 8) => show i < k by omega
      exact (hleaves.untouched a hheap hcell hstack).trans (hpushed a ha)
    case spares =>
      refine hspares.trans ⟨fun q hq hlive => ?_, fun q hq hnone => ?_⟩
      · have hdata : q ≠ w.data t.memory := by
          rintro rfl
          exact ht.fresh.elim hq fun hfresh => hlive hfresh.1
        exact ⟨hleaves.kept q (by simp [hfreed, hq, hdata]), hdata⟩
      · by_cases hdata : q = w.data e.memory
        · rw [hdata] at hq ⊢
          exact (ht.fresh.resolve_left hq.symm).2
        · exact (hleaves.kept q (by simpa [hfreed] using ⟨hdata, hq⟩)).1.trans
            (hnone.resolve_left hdata)
  · exact .here (.inl ⟨hstart, hc', hspares, j, t, hruns, hrefused⟩)
  · rw [hfreed] at hnone
    simp at hnone

theorem opens_arrive (hi : w.image.code[i]? = some (.call enterSymbol)) (hs : w.Standing k s)
    (hc : w.Holds s.memory s.blocks (c.enters n)) :
    w.image.Arrives i s fun j t => w.Exhausted (n + 1) c s j t ∨
      j = i + 1 ∧ w.Tended k (c.enters (n + 1)) s t := by
  rw [Regions.enters_succ]
  exact (tended_arrives (r := .enter) hi hs hc fun _ => rfl).mono fun _ _ =>
    Or.imp_left fun hdenied => ⟨n, n.lt_succ_self, hdenied⟩

theorem closes_arrive {m : Nat} (hsits : Sits w.image.code i (List.replicate m (.call exitSymbol)))
    (hs : w.Standing k s) (hc : w.Holds s.memory s.blocks (c.enters (n + m))) :
    w.image.Arrives i s fun j t => j = i + m ∧ w.Tended k (c.enters n) s t := by
  induction m generalizing i s with
  | zero => exact .here ⟨rfl, .refl hc⟩
  | succ m ih =>
    rw [List.replicate_succ] at hsits
    rw [← Nat.add_assoc] at hc
    refine (tended_arrives (r := .exit) hsits.head hs hc fun _ =>
      Regions.garbage_enters c (n + m)).bind ?_
    rintro j t (hdenied | ⟨rfl, ht⟩)
    · -- A frame is closed without a new entry.
      obtain ⟨_, _, -, hrefused⟩ := hdenied.refused
      cases hrefused.grows
    · have hholds := ht.holds
      simp only [Collector.Routine.apply, Regions.exit_enters] at hholds
      refine (ih hsits.tail { hs with rsp := ht.rsp.trans hs.rsp } hholds).mono ?_
      rintro j u ⟨rfl, hu⟩
      exact ⟨by omega, ht.trans hu⟩

end RegionCompiler.Machine.Process

namespace RegionCompiler.Machine.Loading

open Collector

/-- A small heap is large enough if nothing else is on it. -/
theorem not_exhausted {w : Process} {platform : Platform} {code : Code}
    {hcode : code.length < 2 ^ 63}
    (hw : w.toPlaces = places platform code hcode) {s t : State} {j frames : Nat}
    (hfree : ∀ q, s.blocks q = none) (hframes : frames ≤ 0x10000) :
    ¬ w.Exhausted frames .empty s j t := by
  rintro ⟨n, hn, hdenied⟩
  obtain ⟨_, _, -, hrefused⟩ := hdenied.refused
  have hlength : (Regions.empty.enters n).entries.length = n := by
    rw [Regions.length_enters]
    exact Nat.zero_add n
  have hcapacity : n = (w.capacity t.memory).toNat := by
    simpa [Process.grows, Routine.appends, hlength] using hrefused.grows
  have hbytes : (w.grownBytes t).toNat ≤ 0x100000 := by
    rw [Process.toNat_grownBytes hdenied.holds, ← hcapacity, doubled]
    split <;> omega
  have hnone (q : Word) (hq : q ≠ w.data t.memory) : t.blocks q = none :=
    hdenied.spares.gone q hq (.inr (hfree q))
  have hscarce := hrefused.scarce
  rw [hw] at hscarce
  refine hscarce ⟨0x1000000#64, fun j hj => ?_, fun q n hq hne => ?_, ?_⟩
  · simp only [OnHeap, BitVec.toNat_add, BitVec.toNat_ofNat]
    omega
  · rw [hnone q hne] at hq
    cases hq
  · by_cases hdata : 0x1000000#64 = w.data t.memory
    · exact .inl hdata
    · exact .inr (hnone _ hdata)

end RegionCompiler.Machine.Loading
