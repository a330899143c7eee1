import RegionCompiler.Proofs.Collector.Free
import RegionCompiler.Proofs.Machine.Loading

/-! The collector as a whole: each of its routines does to memory what is said of its stack. -/
namespace RegionCompiler.Machine.Process

open Collector

theorem routine_start (w : Process) (r : Collector.Routine) :
    ∃ start, positionOf w.image.code (.symbol r.symbol) = some start ∧
      Sits w.image.code start (r.code w.platform) := by
  obtain ⟨start, hsits⟩ := w.sits_routine r
  have hhead : w.image.code[start]? = some (.symbol r.symbol) := by
    cases r <;> exact hsits.head
  exact ⟨start, w.position_of hhead rfl, hsits⟩

theorem routine_arrives {w : Process} {r : Collector.Routine} {k : Int} {e : State} {c : Regions}
    {start : Nat} (hentered : w.Entered 72 k e) (hc : w.Holds e.memory e.blocks c)
    (hsits : Sits w.image.code start (r.code w.platform)) :
    w.image.Arrives start e (w.Ends r k e c) := by
  cases r with
  | push => exact push_arrives (hentered.mono (by decide)) hc hsits
  | enter => exact enter_arrives hentered hc hsits
  | exit => exact exit_arrives (hentered.mono (by decide)) hc hsits
  | release => exact release_arrives hc hsits
  | adopt => exact adopt_arrives (hentered.mono (by decide)) hc hsits
  | collect => exact collect_arrives (hentered.mono (by decide)) hc hsits

/-- From any state in which the collector has a stack, every routine returns with the stack that
is said of it, having asked the C library for just what is said; or it stops where memory has run
out, or where it would free what is no block of the program. -/
theorem routine_refines (w : Process) (r : Collector.Routine) {k : Int} {e : State} {c : Regions}
    (hentered : w.Entered 72 k e) (hc : w.Holds e.memory e.blocks c) :
    ∃ start, positionOf w.image.code (.symbol r.symbol) = some start ∧
      w.image.Arrives start e (w.Ends r k e c) := by
  obtain ⟨start, hstart, hsits⟩ := w.routine_start r
  exact ⟨start, hstart, routine_arrives hentered hc hsits⟩

end RegionCompiler.Machine.Process

namespace RegionCompiler.Machine.Loading

open Collector

/-- A program with no code of its own. -/
noncomputable def bare : Process :=
  process .linux (Collector.code .linux 0) (by decide +kernel) 0 (.inl rfl) (by decide +kernel)
    (List.infix_refl _) (by decide)

/-- No block is handed out yet, and a function has just been called. -/
def initial : State where
  registers r := if r = .rsp then displace stackBase 0x8008 else 0#64
  vectors _ := 0#64
  memory _ := 0#8
  flags := .undefined
  blocks _ := none
  calls := []

theorem bare_entered : bare.Entered 72 0x8008 initial where
  rsp := by
    simp only [initial, if_true]
    rfl
  aligned := by decide
  room := by
    change (0 : Int) + 0 + 72 ≤ 0x8008
    decide
  high := by
    change (0x8008 : Int) + 8 ≤ 0x10000
    decide

theorem word_initial (a : Word) : initial.memory.word a = 0#64 := by
  simp [Memory.word, Memory.load, initial]

/-- The collector starts without entries, whatever the program. -/
theorem holds_initial (w : Process) : w.Holds initial.memory initial.blocks .empty where
  sound := by
    constructor <;> simp [initial]
  length := word_initial _
  moved := word_initial _
  fits := by simp [Regions.empty]
  block := .inl ⟨word_initial _, word_initial _⟩
  entry := by simp [Regions.empty]

theorem bare_holds : bare.Holds initial.memory initial.blocks .empty := holds_initial bare

theorem bare_push_refines : ∃ start,
    positionOf bare.image.code (.symbol Collector.Routine.push.symbol) = some start ∧
      bare.image.Arrives start initial (bare.Ends .push 0x8008 initial .empty) :=
  bare.routine_refines .push bare_entered bare_holds

end RegionCompiler.Machine.Loading
