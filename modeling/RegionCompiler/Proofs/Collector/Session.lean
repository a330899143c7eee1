import RegionCompiler.Proofs.Collector.Ledger
import RegionCompiler.Proofs.Collector.Refinement

/-! Programs that use the collector. Whatever they ask of it, and in whatever order, no block is
freed twice, and no entry points to a block that was freed. -/
namespace RegionCompiler.Machine

open Collector

def Request.freed? : Request → Option Word
  | .free p => some p
  | _ => none

/-- The pointers that were passed to `free`, the oldest first. -/
def State.frees (platform : Platform) (s : State) : List Word :=
  (s.requests platform).filterMap Request.freed?

theorem State.frees_append {platform : Platform} {s s' : State} {calls : List Call}
    (h : s'.calls = s.calls ++ calls) : s'.frees platform =
      s.frees platform ++ (calls.map (Call.request platform)).filterMap Request.freed? := by
  simp [frees, requests, h]

namespace Process

variable {w : Process} {o : Op} {done : List Op} {k : Int} {s e : State} {c : Regions} {p : Word}

/-- Whether memory has a pointer among the entries of the collector. -/
def Entry (w : Process) (m : Memory) (p : Word) : Prop :=
  ∃ n < (m.word (w.cell .length)).toNat, m.word (slot (w.data m) n) = p

theorem Holds.mem_of_entry {m : Memory} {blocks : Word → Option Nat} (h : w.Holds m blocks c)
    (hp : w.Entry m p) : p ∈ c.entries := by
  obtain ⟨n, hn, rfl⟩ := hp
  rw [h.length, h.toNat_length] at hn
  rw [h.entry n _ (List.getElem?_eq_getElem hn)]
  exact List.getElem_mem hn

/-- What a program may ask for. It pushes a block that it has got since the last operation, it
releases anything but a marker, and it collects an entry. -/
def Asks (w : Process) (s e : State) : Op → Prop
  | .push p => isPointer p ∧ s.blocks p = none ∧ e.blocks p ≠ none
  | .release p => p ≠ Regions.marker
  | .collect p => isPointer p ∧ w.Entry s.memory p
  | _ => True

/-- What a program does before an operation. It may allocate, but it leaves the collector alone
and frees nothing itself. -/
structure Prepares (w : Process) (o : Op) (s e : State) : Prop where
  sound : w.Sound e.blocks
  cells : ∀ x, e.memory.word (w.cell x) = s.memory.word (w.cell x)
  kept : Kept s e (w.data s.memory)
  live : ∀ q, s.blocks q ≠ none → e.blocks q ≠ none
  calls : ∃ calls, e.calls = s.calls ++ calls ∧
    ∀ call ∈ calls, (call.request w.platform).freed? = none
  takes : o.Takes (e.registers .rax)
  asks : w.Asks s e o

/-- Whatever a program does between these operations, each of them returns to it, unless it had to
enlarge the full stack of the collector and the C library had no room for that; and `Q` holds of
those that were done before and after each. -/
def Serves (w : Process) (Q : List Op → State → Prop) (done : List Op) : List Op → State → Prop
  | [], s => Q done s
  | o :: os, s => Q done s ∧ ∀ k e, w.Entered 72 k e → w.Prepares o s e →
      ∃ start, positionOf w.image.code (.symbol o.routine.symbol) = some start ∧
        w.image.Arrives start e fun j s' =>
          (w.image.code[j]? = some .ret ∧ s'.registers .rsp = e.registers .rsp ∧
            s'.registers .rbp = e.registers .rbp ∧ w.Serves Q (done ++ [o]) os s') ∨
          w.Refused o.routine e (Ledger.empty.run done).regions j s'

/-- What is true of the collector after some operations. -/
structure Owns (w : Process) (done : List Op) (s : State) : Prop where
  allowed : Ledger.empty.AllowsAll done
  holds : w.Holds s.memory s.blocks (Ledger.empty.run done).regions
  live : ∀ p ∈ (Ledger.empty.run done).owned, s.blocks p ≠ none ∧ p ≠ w.data s.memory
  frees : s.frees w.platform = Ledger.empty.freedBy done
  lawful : ∀ call ∈ s.calls, ∀ p, call.request w.platform = .free p → call.blocks p ≠ none

theorem clean_empty : Ledger.empty.Clean where
  nodup := by decide
  moved := by decide

namespace Owns

theorem clean (h : w.Owns done s) : (Ledger.empty.run done).Clean :=
  Ledger.clean_run clean_empty h.allowed

theorem allows (h : w.Owns done s) (he : w.Prepares o s e) :
    (Ledger.empty.run done).Allows o := by
  cases o with
  | push p => exact ⟨he.asks.1, fun hp => (h.live p hp).1 he.asks.2.1⟩
  | release p => exact he.asks
  | collect p => exact ⟨he.asks.1, h.holds.mem_of_entry he.asks.2⟩
  | _ => trivial

theorem prepared (h : w.Owns done s) (he : w.Prepares o s e) : w.Owns done e := by
  obtain ⟨calls, hcalls, hquiet⟩ := he.calls
  constructor
  case allowed => exact h.allowed
  case holds => exact h.holds.transfer he.sound he.cells he.kept
  case live =>
    intro p hp
    have hdata : w.data e.memory = w.data s.memory := he.cells .entries
    rw [hdata]
    exact ⟨he.live p (h.live p hp).1, (h.live p hp).2⟩
  case frees =>
    have hnone : (calls.map (Call.request w.platform)).filterMap Request.freed? = [] := by
      simpa [List.filterMap_eq_nil_iff] using hquiet
    rw [State.frees_append hcalls, hnone, List.append_nil, h.frees]
  case lawful =>
    intro call hcall p hp
    rw [hcalls] at hcall
    rcases List.mem_append.1 hcall with hold | hnew
    · exact h.lawful call hold p hp
    · have hfree := hquiet call hnew
      simp [hp, Request.freed?] at hfree

theorem performed (h : w.Owns done e) (hlive : ∀ p ∈ o.pushed, e.blocks p ≠ none)
    (hfresh : ∀ p ∈ o.pushed, p ≠ w.data e.memory) (ho : (Ledger.empty.run done).Allows o)
    (htakes : o.Takes (e.registers .rax))
    (hs : w.Performed o.routine k e (Ledger.empty.run done).regions s) :
    w.Owns (done ++ [o]) s := by
  have hrun : Ledger.empty.run (done ++ [o]) = (Ledger.empty.run done).step o :=
    Ledger.run_append
  have hfreed := htakes.freed (Ledger.empty.run done).regions
  obtain ⟨calls, hcalls, hwishes, hlawful⟩ := hs.calls
  constructor
  case allowed => exact Ledger.allowsAll_append.2 ⟨h.allowed, ho, trivial⟩
  case holds =>
    rw [hrun]
    have hholds := hs.holds
    rwa [htakes.apply] at hholds
  case live =>
    intro p hp
    rw [hrun] at hp
    -- what is owned now was owned before, or has just been pushed
    have hbefore : e.blocks p ≠ none ∧ p ≠ w.data e.memory := by
      have hmem := (Ledger.step_perm h.clean.moved ho).mem_iff.1 (List.mem_append_left _ hp)
      rcases List.mem_append.1 hmem with hpushed | howned
      · exact ⟨hlive p hpushed, hfresh p hpushed⟩
      · exact h.live p howned
    have hdata : p ≠ w.data s.memory := by
      rcases hs.fresh with hsame | ⟨hnone, -⟩
      · rw [hsame]
        exact hbefore.2
      · rintro rfl
        exact hbefore.1 hnone
    have hstill : p ∉ o.freed (Ledger.empty.run done).regions :=
      fun hgone => (Ledger.mem_freed h.clean ho hgone).2 hp
    have hkept : Kept e s p := by
      refine hs.leaves.kept p ?_
      rw [hfreed]
      simp [hbefore.2, hdata, hstill]
    rw [hkept.1]
    exact ⟨hbefore.1, hdata⟩
  case frees =>
    rw [State.frees_append hcalls, hwishes, h.frees, Ledger.freedBy_append, wishes, hfreed]
    split <;> simp [Request.freed?, Ledger.freedBy, List.filterMap_cons, List.filterMap_map,
      Function.comp_def]
  case lawful =>
    intro call hcall p hp
    rw [hcalls] at hcall
    rcases List.mem_append.1 hcall with hold | hnew
    · exact h.lawful call hold p hp
    · have hwish : .free p ∈ w.wishes o.routine e (Ledger.empty.run done).regions := by
        rw [← hwishes, ← hp]
        exact List.mem_map_of_mem hnew
      have hmem : p ∈ o.freed (Ledger.empty.run done).regions := by
        rw [wishes, hfreed] at hwish
        split at hwish <;> simpa using hwish
      exact (hlawful call hnew p hp).resolve_left (Ledger.ne_zero_of_freed ho hmem)

/-- The program frees no block that it does not have. -/
theorem not_misused (h : w.Owns done e) (ho : (Ledger.empty.run done).Allows o)
    {before after : List Word}
    (hfreed : o.freed (Ledger.empty.run done).regions = before ++ p :: after)
    (hp : p = w.data e.memory ∨ e.blocks p = none ∨ p ∈ before) : False := by
  have hmem : p ∈ o.freed (Ledger.empty.run done).regions := by simp [hfreed]
  obtain ⟨hlive, hdata⟩ := h.live p (Ledger.mem_freed h.clean ho hmem).1
  have hnodup := Ledger.nodup_freed h.clean ho
  rcases hp with hp | hp | hp
  · exact hdata hp
  · exact hlive hp
  · rw [hfreed] at hnodup
    exact (List.nodup_append.1 hnodup).2.2 p hp p List.mem_cons_self rfl

theorem serves {Q : List Op → State → Prop} (hQ : ∀ done s, w.Owns done s → Q done s)
    (os : List Op) (h : w.Owns done s) : w.Serves Q done os s := by
  induction os generalizing done s with
  | nil => exact hQ done s h
  | cons o os ih =>
    refine ⟨hQ done s h, fun k e hentered he => ?_⟩
    have hallows := h.allows he
    have hbefore := h.prepared he
    obtain ⟨start, hstart, hsits⟩ := w.routine_start o.routine
    refine ⟨start, hstart, (routine_arrives hentered hbefore.holds hsits).mono ?_⟩
    rintro j s' (⟨hret, hs'⟩ | hrefused | ⟨before, p, after, calls, hfreed, -, hp, -⟩)
    · refine .inl ⟨hret, hs'.rsp, hs'.rbp, ih ?_⟩
      have hpushed (p : Word) (hp : p ∈ o.pushed) : e.blocks p ≠ none ∧ p ≠ w.data e.memory := by
        cases o with
        | push q =>
          obtain rfl : p = q := by simpa [Op.pushed] using hp
          obtain ⟨hpointer, hnew, hlive⟩ := he.asks
          refine ⟨hlive, ?_⟩
          have hdata : w.data e.memory = w.data s.memory := he.cells .entries
          rw [hdata]
          rintro rfl
          rcases h.holds.block with ⟨hzero, -⟩ | hblock
          · rw [hzero, Ledger.isPointer_zero] at hpointer
            exact Bool.false_ne_true hpointer
          · rw [hnew] at hblock
            cases hblock
        | _ => simp [Op.pushed] at hp
      exact hbefore.performed (fun p hp => (hpushed p hp).1) (fun p hp => (hpushed p hp).2) hallows
        he.takes hs'
    · exact .inr hrefused
    · rw [he.takes.freed] at hfreed
      exact (hbefore.not_misused hallows hfreed hp).elim

end Owns

/-- What a program can rely on after some operations. -/
structure Orderly (w : Process) (done : List Op) (s : State) : Prop where
  holds : w.Holds s.memory s.blocks (Ledger.empty.run done).regions
  /-- Entries, and the pointer that waits to be adopted, are different blocks. -/
  distinct : ((Ledger.empty.run done).held ++ (Ledger.empty.run done).waiting).Nodup
  allocated : ∀ p ∈ (Ledger.empty.run done).held ++ (Ledger.empty.run done).waiting,
    s.blocks p ≠ none
  frees : s.frees w.platform = Ledger.empty.freedBy done
  lawful : ∀ call ∈ s.calls, ∀ p, call.request w.platform = .free p → call.blocks p ≠ none
  /-- A frame leaves the entries below it, but for those that were collected. -/
  below : ∀ before window : List Op, done = before ++ Op.enter :: (window ++ [Op.exit]) →
    Op.depth 0 window = some 0 → (Ledger.empty.run done).regions.entries =
      (Ledger.empty.run before).regions.entries.map (Ledger.wipe window)
  /-- A pointer that is pushed again was freed once. -/
  reused : ∀ (before between : List Op) (p : Word),
    done = before ++ Op.push p :: (between ++ [Op.push p]) → Op.push p ∉ between →
      ((Ledger.empty.run (before ++ [Op.push p])).freedBy between).count p = 1
  /-- A pointer that was pushed in a frame was freed once, or a release has detached it. -/
  settled : ∀ (before inner after : List Op) (p : Word),
    done = before ++ Op.enter :: (inner ++ Op.push p :: (after ++ [Op.exit])) →
    Op.depth 0 (inner ++ Op.push p :: after) = some 0 → Op.push p ∉ after →
      ((Ledger.empty.run (before ++ Op.enter :: (inner ++ [Op.push p]))).freedBy
        (after ++ [Op.exit])).count p = 1 ∨
      ((Ledger.empty.run (before ++ Op.enter :: (inner ++ [Op.push p]))).freedBy
        (after ++ [Op.exit])).count p = 0 ∧ Op.release p ∈ after

theorem Owns.orderly (h : w.Owns done s) : w.Orderly done s := by
  have hsplit : (Ledger.empty.run done).owned = (Ledger.empty.run done).held ++
      (Ledger.empty.run done).waiting ++ (Ledger.empty.run done).lost := by
    simp [Ledger.owned, Ledger.detached]
  constructor
  case holds => exact h.holds
  case distinct =>
    have hnodup := h.clean.nodup
    rw [hsplit] at hnodup
    exact (List.nodup_append.1 hnodup).1
  case allocated =>
    intro p hp
    refine (h.live p ?_).1
    rw [hsplit]
    exact List.mem_append_left _ hp
  case frees => exact h.frees
  case lawful => exact h.lawful
  case below =>
    rintro before window rfl hdepth
    obtain ⟨hbefore, hwindow⟩ := Ledger.allowsAll_append.1 h.allowed
    rw [Ledger.run_append]
    exact Ledger.window_entries (Ledger.clean_run clean_empty hbefore) hwindow hdepth
  case reused =>
    rintro before between p rfl hnew
    obtain ⟨hbefore, hpush, hagain⟩ := Ledger.allowsAll_append.1 h.allowed
    rw [Ledger.run_append]
    exact Ledger.freed_before_push (Ledger.clean_run clean_empty hbefore) hpush hagain hnew
  case settled =>
    rintro before inner after p rfl hdepth hnew
    obtain ⟨hbefore, henter, hrest⟩ := Ledger.allowsAll_append.1 h.allowed
    obtain ⟨hinner, hpush, hafter⟩ := Ledger.allowsAll_append.1 hrest
    obtain ⟨n, hfirst, hsecond⟩ : ∃ n, Op.depth 0 inner = some n ∧
        Op.depth n (.push p :: after) = some 0 := by
      rw [Op.depth, List.foldlM_append] at hdepth
      exact Option.bind_eq_some_iff.1 hdepth
    have hclean := Ledger.clean_step (Ledger.clean_run clean_empty hbefore) henter
    have hopened : Ledger.Above ((Ledger.empty.run before).step .enter).regions
        (Ledger.empty.run before).regions.entries 0 := ⟨[], rfl, rfl⟩
    rw [Ledger.run_append, Ledger.run_cons, Ledger.run_append]
    exact Ledger.freed_before_exit (Ledger.clean_run hclean hinner)
      (Ledger.above_run hclean hinner hopened hfirst) hpush hafter hsecond hnew

/-- From the empty collector, any sequence of operations keeps the collector in order. -/
theorem operations_orderly (w : Process) {s : State} (hempty : w.Holds s.memory s.blocks .empty)
    (hcalls : s.calls = []) (os : List Op) : w.Serves w.Orderly [] os s := by
  refine Owns.serves (fun done s h => h.orderly) os ⟨trivial, hempty, ?_, ?_, ?_⟩
  · simp [Ledger.empty, Ledger.owned, Ledger.held, Ledger.detached, Ledger.waiting, Regions.empty]
  · simp [State.frees, State.requests, hcalls, Ledger.freedBy]
  · simp [hcalls]

end Process

namespace Loading

open Process

/-- A block is returned from a frame to its caller, which collects it. -/
def returning : List Op :=
  [.enter, .push 0x1000000#64, .release 0x1000000#64, .exit, .adopt, .collect 0x1000000#64]

theorem bare_operations_orderly : bare.Serves bare.Orderly [] returning initial :=
  operations_orderly bare (s := initial) bare_holds rfl returning

end Loading

end RegionCompiler.Machine
