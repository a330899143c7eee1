import RegionCompiler.Proofs.Collector.Push

/-! The routines of the collector that take entries away or free what they point to. -/
namespace RegionCompiler.Collector

open Machine Machine.Instr

/-- The loop of `exit`, which frees the entries from the newest one on. -/
def sweeping (platform : Platform) : Code :=
  [.label ⟨2⟩, mov Register.rcx length, .binary .test Register.rcx Register.rcx] ++
    (jumpIf .equal ⟨3⟩ ::
      ([.unary .dec Register.rcx, mov length Register.rcx, mov Register.rdx entries,
          mov Register.rax (Address.entry .rdx .rcx 0),
          .binary .cmp Register.rax (.immediate marker)] ++
        (jumpIf .equal ⟨3⟩ :: .binary .test Register.rax Register.rax :: jumpIf .equal ⟨2⟩ ::
          mov Register.r10 Register.rax :: (callC platform "free" [Register.r10] ++
            (jump ⟨2⟩ :: .label ⟨3⟩ :: epilogue)))))

theorem exit_eq (platform : Platform) :
    exit platform ⟨2⟩ ⟨3⟩ = .symbol exitSymbol :: (prologue ++ sweeping platform) := by
  simp [exit, sweeping]

/-- The part of `collect` that frees the pointer. -/
def freeing (platform : Platform) : Code :=
  [.label ⟨7⟩, mov Register.r10 Register.rax] ++ (callC platform "free" [Register.r10] ++ epilogue)

/-- The loop of `collect`, which looks for an entry from the newest one on. -/
def searching (platform : Platform) : Code :=
  [.label ⟨6⟩, .binary .test Register.rcx Register.rcx] ++
    (jumpIf .equal ⟨7⟩ ::
      ([.unary .dec Register.rcx, .binary .cmp Register.rax (Address.entry .rdx .rcx 0)] ++
        (jumpIf .notEqual ⟨6⟩ :: movImm (Address.entry .rdx .rcx 0) 0 :: freeing platform)))

theorem collect_eq (platform : Platform) :
    collect platform ⟨6⟩ ⟨7⟩ = .symbol collectSymbol :: (prologue ++
      ([mov Register.rcx length, mov Register.rdx entries] ++ searching platform)) := by
  simp [collect, searching, freeing]

end RegionCompiler.Collector

namespace RegionCompiler.Machine.Process

open Collector Instr

variable {w : Process} {k : Int} {j : Nat} {own : List Word} {e s : State} {c : Regions}

theorem ofNat_succ_sub_one (n : Nat) : BitVec.ofNat 64 (n + 1) - 1#64 = BitVec.ofNat 64 n := by
  rw [BitVec.ofNat_add]
  exact BitVec.add_sub_cancel _ _

theorem Holds.ofNat_ne_zero {m : Memory} {blocks : Word → Option Nat} (hc : w.Holds m blocks c)
    {n : Nat} (hn : n < c.entries.length) : BitVec.ofNat 64 (n + 1) ≠ 0#64 := by
  intro h
  have hzero := congrArg BitVec.toNat h
  have hbounded := hc.toNat_length
  simp only [BitVec.toNat_ofNat] at hzero hbounded
  omega

section Release

variable {P : Nat → State → Prop}

/-- Inside `release` nothing has happened but that `moved` is cleared. -/
structure Releasing (w : Process) (k : Int) (e : State) (c : Regions) (s : State) : Prop where
  rsp : s.registers .rsp = e.registers .rsp
  rbp : s.registers .rbp = e.registers .rbp
  rax : s.registers .rax = e.registers .rax
  holds : w.Holds s.memory s.blocks { c with moved := 0#64 }
  data : w.data s.memory = w.data e.memory
  capacity : w.capacity s.memory = w.capacity e.memory
  leaves : w.Leaves k [] e s
  calls : s.calls = e.calls

theorem releaseHead_arrives (hc : w.Holds e.memory e.blocks c)
    (hsits : Sits w.image.code j [.symbol releaseSymbol, movImm moved 0, mov Register.rcx length,
      .binary .test Register.rcx Register.rcx])
    (hnext : ∀ s, w.Releasing k e c s → s.registers .rcx = BitVec.ofNat 64 c.entries.length →
      s.flags = .ofLogic (BitVec.ofNat 64 c.entries.length) → w.image.Arrives (j + 4) s P) :
    w.image.Arrives j e P := by
  have hlength : (e.memory.put (w.cell .moved) 0#64).word (w.cell .length) =
      BitVec.ofNat 64 c.entries.length := by
    simp [word_put_cell, hc.length]
  obtain ⟨s, hrun, hregisters, hrcx, hmemory, hblocks, hcalls, hflags⟩ : ∃ s,
      straight w.image.symbols [.symbol releaseSymbol, movImm moved 0, mov Register.rcx length,
        .binary .test Register.rcx Register.rcx] e = some s ∧
      (∀ r, r ≠ .rcx → s.registers r = e.registers r) ∧
      s.registers .rcx = BitVec.ofNat 64 c.entries.length ∧
      s.memory = e.memory.put (w.cell .moved) 0#64 ∧ s.blocks = e.blocks ∧ s.calls = e.calls ∧
      s.flags = .ofLogic (BitVec.ofNat 64 c.entries.length) := by
    simp +contextual [moved, length, hlength]
  refine .straight hsits hrun (hnext s ?_ hrcx hflags)
  exact {
    rsp := hregisters _ (by decide)
    rbp := hregisters _ (by decide)
    rax := hregisters _ (by decide)
    holds := by
      rw [hmemory, hblocks]
      exact hc.put_moved 0#64
    data := by simp [hmemory]
    capacity := by simp [hmemory]
    leaves := ((Leaves.refl w k [] e).put_cell hc.sound .moved 0#64).of_eq hmemory hblocks
    calls := hcalls }

theorem releaseCompare_arrives (hs : w.Releasing k e c s)
    (hrcx : s.registers .rcx = BitVec.ofNat 64 c.entries.length) {es : List Word} {v : Word}
    (hes : c.entries = es ++ [v])
    (hsits : Sits w.image.code j
      [mov Register.rdx entries, .binary .cmp Register.rax (Address.entry .rdx .rcx (-8))])
    (hnext : ∀ s', w.Releasing k e c s' → s'.flags = .ofSub (e.registers .rax) v →
      w.image.Arrives (j + 2) s' P) :
    w.image.Arrives j s P := by
  have hnewest : s.memory.word (slot (w.data s.memory) es.length) = v :=
    hs.holds.entry es.length v (by simp [hes])
  obtain ⟨s', hrun, hregisters, hmemory, hblocks, hcalls, hflags⟩ : ∃ s',
      straight w.image.symbols
        [mov Register.rdx entries, .binary .cmp Register.rax (Address.entry .rdx .rcx (-8))] s =
          some s' ∧
      (∀ r, r ≠ .rdx → s'.registers r = s.registers r) ∧ s'.memory = s.memory ∧
      s'.blocks = s.blocks ∧ s'.calls = s.calls ∧ s'.flags = .ofSub (e.registers .rax) v := by
    simp +contextual [entries, hrcx, hes, hnewest, hs.rax]
  refine .straight hsits hrun (hnext s' ?_ hflags)
  exact {
    rsp := (hregisters _ (by decide)).trans hs.rsp
    rbp := (hregisters _ (by decide)).trans hs.rbp
    rax := (hregisters _ (by decide)).trans hs.rax
    holds := by
      rw [hmemory, hblocks]
      exact hs.holds
    data := by rw [hmemory, hs.data]
    capacity := by rw [hmemory, hs.capacity]
    leaves := hs.leaves.of_eq hmemory hblocks
    calls := hcalls.trans hs.calls }

theorem released_arrives (hrsp : s.registers .rsp = e.registers .rsp)
    (hrbp : s.registers .rbp = e.registers .rbp)
    (hcs : w.Holds s.memory s.blocks (c.release (e.registers .rax)))
    (hdata : w.data s.memory = w.data e.memory)
    (hcapacity : w.capacity s.memory = w.capacity e.memory) (hleaves : w.Leaves k [] e s)
    (hcalls : s.calls = e.calls) (hsits : Sits w.image.code j (.label ⟨4⟩ :: [.ret])) :
    w.image.Arrives j s (w.Ends .release k e c) := by
  refine .straight (hsits.take 1) (t := s) (by simp) (.here (.inl ⟨hsits.tail.head, ?_⟩))
  exact .quiet hrsp hrbp (by decide) rfl rfl hcs hdata hcapacity hleaves hcalls

/-- The newest entry is the pointer, and leaves the collector. -/
theorem releaseTake_arrives (hs : w.Releasing k e c s) {es : List Word}
    (hes : c.entries = es ++ [e.registers .rax])
    (hsits : Sits w.image.code j ([.unary .dec length, mov moved Register.rax] ++
      (.label ⟨4⟩ :: [.ret]))) :
    w.image.Arrives j s (w.Ends .release k e c) := by
  obtain ⟨s', hrun, hregisters, hmemory, hblocks, hcalls⟩ : ∃ s',
      straight w.image.symbols [.unary .dec length, mov moved Register.rax] s = some s' ∧
      s'.registers = s.registers ∧
      s'.memory = (s.memory.put (w.cell .length) (BitVec.ofNat 64 es.length)).put
        (w.cell .moved) (e.registers .rax) ∧ s'.blocks = s.blocks ∧ s'.calls = s.calls := by
    simp [length, moved, hs.holds.length, hes, ofNat_succ_sub_one, hs.rax]
  refine .straight hsits.left hrun (released_arrives ?_ ?_ ?_ ?_ ?_ ?_ ?_ hsits.right)
  · rw [hregisters, hs.rsp]
  · rw [hregisters, hs.rbp]
  · have hreleased : c.release (e.registers .rax) = ⟨es, e.registers .rax⟩ := by
      simp [Regions.release, hes]
    have hshort := (hs.holds.put_length (n := es.length) (by simp [hes])).put_moved
      (e.registers .rax)
    rw [hmemory, hblocks, hreleased]
    simpa [hes] using hshort
  · simp [hmemory, hs.data]
  · simp [hmemory, hs.capacity]
  · exact ((hs.leaves.put_cell hs.holds.sound .length _).put_cell hs.holds.sound .moved _).of_eq
      hmemory hblocks
  · rw [hcalls, hs.calls]

theorem release_arrives (hc : w.Holds e.memory e.blocks c)
    (hsits : Sits w.image.code j (Collector.Routine.release.code w.platform)) :
    w.image.Arrives j e (w.Ends .release k e c) := by
  have hroutine : Sits w.image.code j ([.symbol releaseSymbol, movImm moved 0,
    mov Register.rcx length, .binary .test Register.rcx Register.rcx] ++ (jumpIf .equal ⟨4⟩ ::
      ([mov Register.rdx entries, .binary .cmp Register.rax (Address.entry .rdx .rcx (-8))] ++
        (jumpIf .notEqual ⟨4⟩ :: ([.unary .dec length, mov moved Register.rax] ++
          (.label ⟨4⟩ :: [.ret])))))) := hsits
  have hcompare := hroutine.right.tail
  have htake := hcompare.right.tail
  have hend := w.position_of htake.right.head rfl
  refine releaseHead_arrives hc hroutine.left fun s (hs : w.Releasing k e c s) hrcx hflags => ?_
  rcases List.eq_nil_or_concat c.entries with hnil | ⟨es, v, hes⟩
  · refine .taken hroutine.right.head (by simp [Condition.holds, hflags, hnil]) hend
      (released_arrives hs.rsp hs.rbp ?_ hs.data hs.capacity hs.leaves hs.calls htake.right)
    simpa [Regions.release, hnil] using hs.holds
  · rw [List.concat_eq_append] at hes
    have hne : BitVec.ofNat 64 c.entries.length ≠ 0#64 := by
      rw [hes, List.length_append]
      exact hc.ofNat_ne_zero (by simp [hes])
    refine .notTaken hroutine.right.head (by simp [Condition.holds, hflags, hne]) ?_
    refine releaseCompare_arrives hs hrcx hes hcompare.left fun s' hs' hflags' => ?_
    by_cases hv : e.registers .rax = v
    · exact .notTaken hcompare.right.head (by simp [Condition.holds, hflags', hv])
        (releaseTake_arrives hs' (hv ▸ hes) htake)
    · refine .taken hcompare.right.head (by simp [Condition.holds, hflags', hv]) hend
        (released_arrives hs'.rsp hs'.rbp ?_ hs'.data hs'.capacity hs'.leaves hs'.calls htake.right)
      simpa [Regions.release, hes, Ne.symm hv] using hs'.holds

end Release

/-- The frame of a routine that frees blocks: those freed so far are gone, and the others are as
they were. -/
structure Freeing (w : Process) (k : Int) (e : State) (done : List Word) (s : State) : Prop where
  inside : w.Inside k (w.data e.memory :: done) e s
  rsp : s.registers .rsp = w.at_ (k - 8)
  data : w.data s.memory = w.data e.memory
  capacity : w.capacity s.memory = w.capacity e.memory
  gone : ∀ p ∈ done, s.blocks p = none
  calls : ∃ calls, s.calls = e.calls ++ calls ∧
    calls.map (Call.request w.platform) = done.map .free ∧
    ∀ call ∈ calls, ∀ p, call.request w.platform = .free p → p = 0#64 ∨ call.blocks p ≠ none

namespace Freeing

variable {done : List Word} {s' : State}

theorem work (h : w.Freeing k e done s) (hrsp : s'.registers .rsp = s.registers .rsp)
    (hrbp : s'.registers .rbp = s.registers .rbp)
    (hleaves : w.Leaves (k - 8) (w.data e.memory :: done) s s')
    (hdata : w.data s'.memory = w.data s.memory)
    (hcapacity : w.capacity s'.memory = w.capacity s.memory) (hblocks : s'.blocks = s.blocks)
    (hcalls : s'.calls = s.calls) : w.Freeing k e done s' where
  inside := ⟨hrbp.trans h.inside.rbp, h.inside.leaves.trans hleaves⟩
  rsp := hrsp.trans h.rsp
  data := hdata.trans h.data
  capacity := hcapacity.trans h.capacity
  gone := by rw [hblocks]; exact h.gone
  calls := by rw [hcalls]; exact h.calls

/-- Registers do not count, but for the two of the frame. -/
theorem of_eq (h : w.Freeing k e done s) (hrsp : s'.registers .rsp = s.registers .rsp)
    (hrbp : s'.registers .rbp = s.registers .rbp) (hmemory : s'.memory = s.memory)
    (hblocks : s'.blocks = s.blocks) (hcalls : s'.calls = s.calls) : w.Freeing k e done s' :=
  h.work hrsp hrbp ((Leaves.refl w _ _ s).of_eq hmemory hblocks) (by rw [hmemory])
    (by rw [hmemory]) hblocks hcalls

theorem calling (h : w.Freeing k e done s) {depth : Nat} (hentered : w.Entered depth k e)
    (hdepth : 40 ≤ depth) (hsound : w.Sound s.blocks) : w.Calling (k - 8) s := by
  obtain ⟨-, haligned, hlow, hhigh⟩ := hentered
  exact ⟨h.rsp, by omega, by omega, by omega, hsound⟩

/-- A pointer that is no block of the program was none at the start, or it was freed since. -/
theorem misused (h : w.Freeing k e done s) {p : Word} (hp : s.blocks p = none) :
    p = w.data e.memory ∨ e.blocks p = none ∨ p ∈ done := by
  by_contra hno
  simp only [not_or] at hno
  have hkept := h.inside.leaves.kept p (by simp [hno.1, hno.2.2])
  exact hno.2.1 (hkept.1.symm.trans hp)

theorem free (h : w.Freeing k e done s) (hc : w.Holds s.memory s.blocks c) {p : Word}
    (hcalled : w.Called (k - 8) [p] (.free p) s s')
    (hok : p = 0#64 ∨ p ≠ w.data e.memory ∧ s.blocks p ≠ none) (hp : s'.blocks p = none) :
    w.Freeing k e (done ++ [p]) s' ∧ w.Holds s'.memory s'.blocks c := by
  refine ⟨?_, hc.transfer hcalled.sound hcalled.cells ?_⟩
  · exact {
      inside := by
        refine ⟨hcalled.rbp.trans h.inside.rbp, ?_⟩
        exact (h.inside.leaves.mono (Int.le_refl _) (by simp)).trans
          (hcalled.leaves.mono (Int.le_refl _) (by simp))
      rsp := hcalled.rsp
      data := (hcalled.cells .entries).trans h.data
      capacity := (hcalled.cells .capacity).trans h.capacity
      gone := by
        intro q hq
        by_cases hqp : q = p
        · rw [hqp, hp]
        · rw [(hcalled.leaves.kept q (by simpa using hqp)).1]
          exact h.gone q (by simpa [hqp] using hq)
      calls := by
        obtain ⟨calls, hcalls, hrequests, hallowed⟩ := h.calls
        obtain ⟨call, hcall, hrequest, hblocks⟩ := hcalled.calls
        refine ⟨calls ++ [call], by rw [hcall, hcalls, List.append_assoc],
          by simp [hrequests, hrequest], ?_⟩
        intro call' hcall' q hq
        rcases List.mem_append.1 hcall' with hold | hnew
        · exact hallowed call' hold q hq
        · obtain rfl := List.mem_singleton.1 hnew
          obtain rfl : p = q := by simpa [hrequest] using hq
          rw [hblocks]
          exact hok.imp id And.right }
  · rw [h.data]
    rcases eq_or_ne (w.data e.memory) p with hdata | hdata
    · -- The stack has no block of its own, and null is freed.
      obtain rfl : p = 0#64 := hok.resolve_right fun h => h.1 hdata.symm
      rw [hdata]
      refine ⟨by rw [hp, hc.sound.null], fun n hn => ?_⟩
      rw [hc.sound.null] at hn
      cases hn
    · exact hcalled.leaves.kept _ (by simpa using hdata)

theorem free_arrives {r : Collector.Routine} {depth : Nat} {rest : List Word} {p : Word}
    {c' : Regions}
    (h : w.Freeing k e done s) (hentered : w.Entered depth k e) (hdepth : 40 ≤ depth)
    (hfreed : r.freed (e.registers .rax) c = done ++ p :: rest)
    (hc : w.Holds s.memory s.blocks c') (hr10 : s.registers .r10 = p)
    (hsits : Sits w.image.code j (callC w.platform "free" [Register.r10]))
    (hnext : ∀ s', w.Freeing k e (done ++ [p]) s' → w.Holds s'.memory s'.blocks c' →
      w.image.Arrives (j + (callC w.platform "free" [Register.r10]).length) s' (w.Ends r k e c)) :
    w.image.Arrives j s (w.Ends r k e c) := by
  have hcalling := h.calling hentered hdepth hc.sound
  by_cases hok : p = 0#64 ∨ p ≠ w.data e.memory ∧ s.blocks p ≠ none
  · refine Process.free_arrives hsits hcalling hr10 (hok.imp id And.right) fun s' hcalled hp => ?_
    obtain ⟨hs', hc'⟩ := h.free hc hcalled hok hp
    exact hnext s' hs' hc'
  · refine (free_reaches hsits hcalling).mono fun i s₁ hreached => ?_
    obtain ⟨calls, hcalls, hrequests, -⟩ := h.calls
    simp only [not_or, not_and_or, not_not] at hok
    exact .inr (.inr ⟨done, p, rest, calls, hfreed, hok.1, hok.2.elim .inl h.misused, hreached.1,
      hreached.2.first.trans hr10, hreached.2.calls.trans hcalls, hrequests⟩)

end Freeing

section Opened

variable {depth : Nat} (h : w.Entered depth k e) (hdepth : 8 ≤ depth)

include h hdepth

theorem Entered.holds_opened (hc : w.Holds e.memory e.blocks c) :
    w.Holds (w.opened k e).memory (w.opened k e).blocks c := by
  obtain ⟨-, -, hlow, hhigh⟩ := h
  exact hc.put_stack (by omega) (by omega) _

theorem Entered.freeing : w.Freeing k e [] (w.opened k e) := by
  obtain ⟨-, -, hlow, hhigh⟩ := h
  exact {
    inside := ⟨by simp [opened], .refl w _ _ _⟩
    rsp := by simp [opened]
    data := data_put_stack _ (by omega) (by omega) _
    capacity := capacity_put_stack _ (by omega) (by omega) _
    gone := by simp
    calls := ⟨[], by simp [opened], rfl, by simp⟩ }

end Opened

theorem freed_arrives {r : Collector.Routine} {depth : Nat} (hentered : w.Entered depth k e)
    (hdepth : 8 ≤ depth) (hc : w.Holds e.memory e.blocks c) (hr : r ≠ .push)
    (happends : r.appends c = false) (hs : w.Freeing k e (r.freed (e.registers .rax) c) s)
    (hcs : w.Holds s.memory s.blocks (r.apply (e.registers .rax) c))
    (hsits : Sits w.image.code j epilogue) :
    w.image.Arrives j s (w.Ends r k e c) := by
  refine epilogue_arrives hentered hdepth hs.inside hsits fun hret => .inl ⟨hret, ?_⟩
  exact {
    rsp := by simp [closed, hentered.rsp]
    rbp := by simp [closed]
    rax := fun h => absurd h hr
    holds := hcs
    capacity := by
      change (w.capacity s.memory).toNat = _
      simp [hs.capacity, grows, happends]
    leaves := (hs.inside.closed hentered hdepth hc.sound).mono (Int.le_refl k) (by simp)
    fresh := .inl hs.data
    gone := hs.gone
    calls := by
      obtain ⟨calls, hcalls, hrequests, hallowed⟩ := hs.calls
      exact ⟨calls, hcalls, by simp [hrequests, wishes, grows, happends], hallowed⟩ }

section Sweep

variable {P : Nat → State → Prop} {es done : List Word} {v : Word}

theorem sweepTest_arrives (hs : w.Freeing k e done s) (hcs : w.Holds s.memory s.blocks c)
    (hsits : Sits w.image.code j
      [.label ⟨2⟩, mov Register.rcx length, .binary .test Register.rcx Register.rcx])
    (hnext : ∀ s', w.Freeing k e done s' → w.Holds s'.memory s'.blocks c →
      s'.registers .rcx = BitVec.ofNat 64 c.entries.length →
      s'.flags = .ofLogic (BitVec.ofNat 64 c.entries.length) → w.image.Arrives (j + 3) s' P) :
    w.image.Arrives j s P := by
  obtain ⟨s', hrun, hrcx, hrsp, hrbp, hmemory, hblocks, hcalls, hflags⟩ : ∃ s',
      straight w.image.symbols [.label ⟨2⟩, mov Register.rcx length,
        .binary .test Register.rcx Register.rcx] s = some s' ∧
      s'.registers .rcx = BitVec.ofNat 64 c.entries.length ∧
      s'.registers .rsp = s.registers .rsp ∧ s'.registers .rbp = s.registers .rbp ∧
      s'.memory = s.memory ∧ s'.blocks = s.blocks ∧ s'.calls = s.calls ∧
      s'.flags = .ofLogic (BitVec.ofNat 64 c.entries.length) := by
    simp [length, hcs.length]
  refine .straight hsits hrun (hnext s' (hs.of_eq hrsp hrbp hmemory hblocks hcalls) ?_ hrcx hflags)
  rw [hmemory, hblocks]
  exact hcs

/-- The newest entry is taken off and compared with the marker. -/
theorem sweepPop_arrives (hs : w.Freeing k e done s)
    (hcs : w.Holds s.memory s.blocks ⟨es ++ [v], c.moved⟩)
    (hrcx : s.registers .rcx = BitVec.ofNat 64 (es.length + 1))
    (hsits : Sits w.image.code j [.unary .dec Register.rcx, mov length Register.rcx,
      mov Register.rdx entries, mov Register.rax (Address.entry .rdx .rcx 0),
      .binary .cmp Register.rax (.immediate Collector.marker)])
    (hnext : ∀ s', w.Freeing k e done s' → w.Holds s'.memory s'.blocks ⟨es, c.moved⟩ →
      s'.registers .rax = v → s'.flags = .ofSub v Regions.marker →
      w.image.Arrives (j + 5) s' P) :
    w.image.Arrives j s P := by
  have hlt : es.length < (w.capacity s.memory).toNat := hcs.lt_capacity (e := v) (by simp)
  have hnewest : (s.memory.put (w.cell .length) (BitVec.ofNat 64 es.length)).word
      (slot (w.data s.memory) es.length) = v := by
    rw [Memory.word_put_apart (hcs.apart_cell hlt _).symm]
    exact hcs.entry es.length v (by simp)
  obtain ⟨s', hrun, hrax, hrsp, hrbp, hmemory, hblocks, hcalls, hflags⟩ : ∃ s',
      straight w.image.symbols [.unary .dec Register.rcx, mov length Register.rcx,
        mov Register.rdx entries, mov Register.rax (Address.entry .rdx .rcx 0),
        .binary .cmp Register.rax (.immediate Collector.marker)] s = some s' ∧
      s'.registers .rax = v ∧
      s'.registers .rsp = s.registers .rsp ∧ s'.registers .rbp = s.registers .rbp ∧
      s'.memory = s.memory.put (w.cell .length) (BitVec.ofNat 64 es.length) ∧
      s'.blocks = s.blocks ∧ s'.calls = s.calls ∧ s'.flags = .ofSub v Regions.marker := by
    simp [length, entries, hrcx, ofNat_succ_sub_one, hnewest, Regions.marker]
  refine .straight hsits hrun (hnext s' ?_ ?_ hrax hflags)
  · exact hs.work hrsp hrbp (((Leaves.refl w _ _ s).put_cell hcs.sound .length _).of_eq hmemory
      hblocks) (by simp [hmemory]) (by simp [hmemory]) hblocks hcalls
  · rw [hmemory, hblocks]
    simpa using hcs.put_length (n := es.length) (by simp)

/-- By induction on the entries that are left: what the routine frees is what it has freed and what
it would still free of them. -/
theorem sweep_arrives (hentered : w.Entered 40 k e) (hc : w.Holds e.memory e.blocks c)
    (hsits : Sits w.image.code j (sweeping w.platform)) (hs : w.Freeing k e done s)
    (hcs : w.Holds s.memory s.blocks ⟨es, c.moved⟩)
    (hexit : c.exit = (⟨es, c.moved⟩ : Regions).exit)
    (hgarbage : c.garbage = done ++ (⟨es, c.moved⟩ : Regions).garbage) :
    w.image.Arrives j s (w.Ends .exit k e c) := by
  have hpop := hsits.right.tail
  have htest := hpop.right.tail
  have hfree := htest.tail.tail.tail
  have hdone := hfree.right.tail
  have hclose {t : State} (ht : w.Freeing k e c.garbage t)
      (hct : w.Holds t.memory t.blocks c.exit) (i : Nat)
      (hi : Sits w.image.code i (.label ⟨3⟩ :: epilogue)) :
      w.image.Arrives i t (w.Ends .exit k e c) :=
    .straight (hi.take 1) (t := t) (by simp)
      (freed_arrives hentered (by decide) hc (by decide) rfl ht hct hi.tail)
  induction es using List.reverseRecOn generalizing s done with
  | nil =>
    refine sweepTest_arrives hs hcs hsits.left fun s₁ hs₁ hcs₁ _ hflags => ?_
    refine .taken hsits.right.head (by simp [Condition.holds, hflags])
      (w.position_of hdone.head rfl) (hclose ?_ (hexit ▸ hcs₁) _ hdone)
    have hall : c.garbage = done := by simpa [Regions.garbage, Regions.innermost] using hgarbage
    exact hall ▸ hs₁
  | append_singleton es p ih =>
    refine sweepTest_arrives hs hcs hsits.left fun s₁ hs₁ hcs₁ hrcx hflags => ?_
    rw [List.length_append, List.length_singleton] at hrcx hflags
    have hne : BitVec.ofNat 64 (es.length + 1) ≠ 0#64 := hcs.ofNat_ne_zero (by simp)
    refine .notTaken hsits.right.head (by simp [Condition.holds, hflags, hne]) ?_
    refine sweepPop_arrives hs₁ hcs₁ hrcx hpop.left fun s₂ hs₂ hcs₂ hrax hflags₂ => ?_
    by_cases hmarker : p = Regions.marker
    · rw [hmarker, Regions.garbage_marker, List.append_nil] at hgarbage
      rw [hmarker, Regions.exit_marker] at hexit
      exact .taken hpop.right.head (by simp [Condition.holds, hflags₂, hmarker])
        (w.position_of hdone.head rfl) (hclose (hgarbage ▸ hs₂) (hexit ▸ hcs₂) _ hdone)
    rw [Regions.exit_concat _ _ _ hmarker] at hexit
    rw [Regions.garbage_concat _ _ _ hmarker] at hgarbage
    refine .notTaken hpop.right.head (by simp [Condition.holds, hflags₂, hmarker]) ?_
    refine .straight (htest.take 1) (t := s₂.withFlags (.ofLogic p)) (by simp [hrax]) ?_
    by_cases hzero : p = 0#64
    · refine .taken htest.tail.head (by simp [Condition.holds, hzero])
        (w.position_of hsits.head rfl) (ih (hs₂.of_eq rfl rfl rfl rfl rfl) hcs₂ hexit ?_)
      simpa [hzero] using hgarbage
    rw [if_neg hzero] at hgarbage
    refine .notTaken htest.tail.head (by simp [Condition.holds, hzero]) ?_
    refine .straight (htest.tail.tail.take 1)
      (t := (s₂.withFlags (.ofLogic p)).set .r10 p) (by simp [hrax]) ?_
    refine Freeing.free_arrives (p := p) (hs₂.of_eq rfl rfl rfl rfl rfl) hentered (by decide)
      hgarbage hcs₂ (by simp) hfree.left fun s₃ hs₃ hcs₃ => ?_
    exact .jump hfree.right.head (w.position_of hsits.head rfl)
      (ih hs₃ hcs₃ hexit (by simpa using hgarbage))

end Sweep

theorem exit_arrives (hentered : w.Entered 40 k e) (hc : w.Holds e.memory e.blocks c)
    (hsits : Sits w.image.code j (Collector.Routine.exit.code w.platform)) :
    w.image.Arrives j e (w.Ends .exit k e c) := by
  rw [Collector.Routine.code, exit_eq] at hsits
  refine .straight (hsits.take 1) (t := e) rfl (prologue_arrives hentered hsits.tail.left ?_)
  exact sweep_arrives hentered hc hsits.tail.right (hentered.freeing (by decide))
    (hentered.holds_opened (by decide) hc) rfl rfl

section Search

variable {P : Nat → State → Prop}

theorem search_arrives (hsits : Sits w.image.code j (searching w.platform)) {es rest : List Word}
    (hentries : c.entries = es ++ rest) (hrest : e.registers .rax ∉ rest)
    (hs : w.Freeing k e [] s) (hcs : w.Holds s.memory s.blocks c)
    (hrax : s.registers .rax = e.registers .rax) (hrdx : s.registers .rdx = w.data s.memory)
    (hrcx : s.registers .rcx = BitVec.ofNat 64 es.length)
    (hnext : ∀ i s, Sits w.image.code i (freeing w.platform) → w.Freeing k e [] s →
      w.Holds s.memory s.blocks (c.collect (e.registers .rax)) →
      s.registers .rax = e.registers .rax → w.image.Arrives i s P) :
    w.image.Arrives j s P := by
  have hlook := hsits.right.tail
  have hclear := hlook.right.tail
  have hfree := hclear.tail
  induction es using List.reverseRecOn generalizing s rest with
  | nil =>
    refine .straight hsits.left (t := s.withFlags (.ofLogic 0#64)) (by simp [hrcx]) ?_
    refine .taken hsits.right.head (by simp [Condition.holds]) (w.position_of hfree.head rfl)
      (hnext _ _ hfree (hs.of_eq rfl rfl rfl rfl rfl) ?_ hrax)
    rw [Regions.collect_missing (by simpa [hentries] using hrest)]
    exact hcs
  | append_singleton es p ih =>
    have hp : c.entries[es.length]? = some p := by simp [hentries]
    have hlt : es.length < c.entries.length := (List.getElem?_eq_some_iff.1 hp).1
    have hne : BitVec.ofNat 64 (es.length + 1) ≠ 0#64 := hcs.ofNat_ne_zero hlt
    rw [List.length_append, List.length_singleton] at hrcx
    refine .straight hsits.left
      (t := s.withFlags (.ofLogic (BitVec.ofNat 64 (es.length + 1)))) (by simp [hrcx]) ?_
    refine .notTaken hsits.right.head (by simp [Condition.holds, hne]) ?_
    obtain ⟨s₁, hrun, hregisters, hrcx₁, hmemory, hblocks, hcalls, hflags⟩ : ∃ s₁,
        straight w.image.symbols [.unary .dec Register.rcx,
          .binary .cmp Register.rax (Address.entry .rdx .rcx 0)]
            (s.withFlags (.ofLogic (BitVec.ofNat 64 (es.length + 1)))) = some s₁ ∧
        (∀ r, r ≠ .rcx → s₁.registers r = s.registers r) ∧
        s₁.registers .rcx = BitVec.ofNat 64 es.length ∧ s₁.memory = s.memory ∧
        s₁.blocks = s.blocks ∧ s₁.calls = s.calls ∧ s₁.flags = .ofSub (e.registers .rax) p := by
      simp +contextual [hrcx, ofNat_succ_sub_one, hrdx, hrax, hcs.entry _ _ hp]
    have hs₁ : w.Freeing k e [] s₁ :=
      hs.of_eq (hregisters _ (by decide)) (hregisters _ (by decide)) hmemory hblocks hcalls
    have hrax₁ : s₁.registers .rax = e.registers .rax := by rw [hregisters _ (by decide), hrax]
    have hrdx₁ : s₁.registers .rdx = w.data s₁.memory := by
      rw [hregisters _ (by decide), hrdx, hmemory]
    have hcs₁ : w.Holds s₁.memory s₁.blocks c := by
      rw [hmemory, hblocks]
      exact hcs
    refine .straight hlook.left hrun ?_
    by_cases heq : e.registers .rax = p
    · refine .notTaken hlook.right.head (by simp [Condition.holds, hflags, heq]) ?_
      have hslot := hlt.trans_le hcs₁.fits
      refine .straight (hclear.take 1)
        (t := s₁.put (slot (w.data s₁.memory) es.length) 0#64) (by simp [hrdx₁, hrcx₁])
        (hnext _ _ hfree ?_ ?_ hrax₁)
      · refine hs₁.work rfl rfl ?_ (hcs₁.data_put_slot hslot _) (hcs₁.capacity_put_slot hslot _)
          rfl rfl
        exact (Leaves.refl w _ _ s₁).put_slot hcs₁ (by simp [hs₁.data]) hslot _
      · have hsplit : c.entries = es ++ e.registers .rax :: rest := by simp [hentries, heq]
        rw [Regions.collect_found hsplit hrest]
        exact hcs₁.put_slot hlt _
    · have hsplit : c.entries = es ++ p :: rest := by simp [hentries]
      have hother : e.registers .rax ∉ p :: rest := by simp [heq, hrest]
      exact .taken hlook.right.head (by simp [Condition.holds, hflags, heq])
        (w.position_of hsits.head rfl) (ih hsplit hother hs₁ hcs₁ hrax₁ hrdx₁ hrcx₁)

theorem collect_clears (hentered : w.Entered 40 k e) (hc : w.Holds e.memory e.blocks c)
    (hsits : Sits w.image.code j (Collector.Routine.collect.code w.platform))
    (hnext : ∀ i s, Sits w.image.code i (freeing w.platform) → w.Freeing k e [] s →
      w.Holds s.memory s.blocks (c.collect (e.registers .rax)) →
      s.registers .rax = e.registers .rax → w.image.Arrives i s P) :
    w.image.Arrives j e P := by
  rw [Collector.Routine.code, collect_eq] at hsits
  refine .straight (hsits.take 1) (t := e) rfl (prologue_arrives hentered hsits.tail.left ?_)
  have hopened := hentered.holds_opened (by decide) hc
  obtain ⟨s, hrun, hregisters, hrcx, hrdx, hmemory, hblocks, hcalls⟩ : ∃ s,
      straight w.image.symbols [mov Register.rcx length, mov Register.rdx entries]
        (w.opened k e) = some s ∧
      (∀ r, r ≠ .rcx → r ≠ .rdx → s.registers r = (w.opened k e).registers r) ∧
      s.registers .rcx = BitVec.ofNat 64 c.entries.length ∧
      s.registers .rdx = w.data (w.opened k e).memory ∧ s.memory = (w.opened k e).memory ∧
      s.blocks = (w.opened k e).blocks ∧ s.calls = (w.opened k e).calls := by
    simp +contextual [length, entries, hopened.length]
  refine .straight hsits.tail.right.left hrun ?_
  refine search_arrives hsits.tail.right.right (List.append_nil _).symm (by simp) ?_ ?_ ?_ ?_ hrcx
    hnext
  · exact (hentered.freeing (by decide)).of_eq (hregisters _ (by decide) (by decide))
      (hregisters _ (by decide) (by decide)) hmemory hblocks hcalls
  · rw [hmemory, hblocks]
    exact hopened
  · simp [hregisters, opened]
  · rw [hrdx, hmemory]

end Search

theorem collect_arrives (hentered : w.Entered 40 k e) (hc : w.Holds e.memory e.blocks c)
    (hsits : Sits w.image.code j (Collector.Routine.collect.code w.platform)) :
    w.image.Arrives j e (w.Ends .collect k e c) := by
  refine collect_clears hentered hc hsits fun i s hfree hs hcs hrax => ?_
  refine .straight hfree.left (t := s.set .r10 (e.registers .rax)) (by simp [hrax]) ?_
  refine Freeing.free_arrives (p := e.registers .rax)
    (hs.of_eq rfl rfl rfl rfl rfl) hentered (by decide) rfl hcs (by simp) hfree.right.left
    fun s' hs' hcs' => ?_
  exact freed_arrives hentered (by decide) hc (by decide) rfl hs' hcs' hfree.right.right

end RegionCompiler.Machine.Process
