import RegionCompiler.Proofs.Machine.Path

/-! Invariants of code, place by place. If every label has one state, and every instruction takes
the state at its place to the state at the next, then every path through the code meets each place
in its state. -/
namespace RegionCompiler.Machine

/-- States at the places of some code, each of them related to the next by the instruction
between. -/
inductive Chain {σ : Type} (step : Instr → σ → σ → Prop) : σ → Code → σ → Prop
  | nil {a} : Chain step a [] a
  | cons {a i b code c} : step i a b → Chain step b code c → Chain step a (i :: code) c

namespace Chain

variable {σ : Type} {step : Instr → σ → σ → Prop} {a b c : σ} {code code' : Code}

theorem append (h : Chain step a code b) (h' : Chain step b code' c) :
    Chain step a (code ++ code') c := by
  induction h with
  | nil => exact h'
  | cons hi _ ih => exact .cons hi (ih h')

theorem single {i : Instr} (h : step i a b) : Chain step a [i] b := .cons h .nil

theorem const (h : ∀ i ∈ code, step i a a) : Chain step a code a := by
  induction code with
  | nil => exact .nil
  | cons i code ih => exact .cons (h i (by simp)) (ih fun j hj => h j (by simp [hj]))

theorem mono {τ : Type} {step' : Instr → τ → τ → Prop} {f : σ → τ} (h : Chain step a code b)
    (hstep : ∀ i ∈ code, ∀ a b, step i a b → step' i (f a) (f b)) :
    Chain step' (f a) code (f b) := by
  induction h with
  | nil => exact .nil
  | cons hi _ ih => exact .cons (hstep _ (by simp) _ _ hi) (ih fun j hj => hstep j (by simp [hj]))

theorem states (h : Chain step a code b) : ∃ at_ : Nat → σ, at_ 0 = a ∧ at_ code.length = b ∧
    ∀ i instr, code[i]? = some instr → step instr (at_ i) (at_ (i + 1)) := by
  induction h with
  | @nil a => exact ⟨fun _ => a, rfl, rfl, by simp⟩
  | @cons a i b code c hi _ ih =>
    obtain ⟨at_, hfirst, hlast, hsteps⟩ := ih
    refine ⟨fun n => Nat.casesOn (motive := fun _ => σ) n a at_, rfl, hlast, ?_⟩
    intro n instr hn
    cases n with
    | zero =>
      obtain rfl : i = instr := by simpa using hn
      rw [← hfirst] at hi
      exact hi
    | succ n => exact hsteps n instr (by simpa using hn)

end Chain

def isTrap (name : String) : Prop := name = Collector.memoryTrap ∨ name = Collector.boundsTrap

/-- The stack and the number of open frames of the collector, both as at the entry of the
function. -/
structure Spot extends Stack where
  frames : Nat

namespace Spot

def entry : Spot := ⟨⟨0, none⟩, 0⟩

/-- Where the stack pointer is a multiple of sixteen if it was one before the call that entered the
function. -/
def Aligned (a : Spot) : Prop := a.rsp % 16 = 8

def lower (a : Spot) (bytes : Nat) : Spot := { a with rsp := a.rsp - bytes }

@[simp] theorem lower_zero (a : Spot) : a.lower 0 = a := by
  simp [lower]

theorem lower_lower (a : Spot) (m n : Nat) : (a.lower m).lower n = a.lower (m + n) := by
  simp only [lower, Spot.mk.injEq, Stack.mk.injEq, and_true]
  push_cast
  omega

@[simp] theorem frames_lower (a : Spot) (n : Nat) : (a.lower n).frames = a.frames := rfl

theorem Aligned.lower {a : Spot} (h : a.Aligned) {n : Nat} (hn : 16 ∣ n) : (a.lower n).Aligned := by
  unfold Aligned Spot.lower at *
  dsimp only
  omega

end Spot

/-- What a call does to the number of open frames. -/
def Calls (name : String) (frames frames' : Nat) : Prop :=
  if name = Collector.enterSymbol then frames' = frames + 1
  else if name = Collector.exitSymbol then frames = frames' + 1
  else frames' = frames

namespace Instr

/-- Rounding the stack pointer says nothing about where it was. -/
def aligns : Instr → Bool
  | .binary .and_ dst _ => dst.isFrame
  | _ => false

/-- Whether an instruction leads from one state to another, when the labels have the given ones.
Behind a jump anything goes. -/
def flows (labels : Label → Spot) (i : Instr) (a b : Spot) : Prop :=
  match i with
  | .label l => labels l = a ∧ b = a
  | .symbol name => ¬ isTrap name ∧ a = .entry ∧ b = a
  | .jmp (.label l) => labels l = a
  | .jmp (.symbol _) => a.rsp = 0
  | .jcc _ (.label l) => labels l = a ∧ b = a
  | .jcc _ (.symbol name) => isTrap name ∧ b = a
  | .ret => a.rsp = 0 ∧ a.frames = 0
  | .call name => a.Aligned ∧ b.toStack = a.toStack ∧ Calls name a.frames b.frames
  | i => i.aligns = false ∧ i.moves a.toStack = some b.toStack ∧ b.frames = a.frames

/-- Instructions that neither jump nor move the frame. -/
def isPlain : Instr → Bool
  | .binary .cmp _ _ | .binary .test _ _ => true
  | .binary _ dst _ | .unary _ dst => !dst.isFrame
  | .lea dst _ | .movsxd dst _ | .movzx dst _ _ | .cmov _ dst _ | .floatToInt _ dst _ =>
    !dst.isFrame
  | .comment _ | .cqo | .btc _ _ _ | .repMovsb | .loadFloat _ _ _ | .storeFloat _ _ _
  | .floatBinary _ _ _ _ | .compareFloat _ _ _ | .intToFloat _ _ _ | .convertFloat _ _ _ => true
  | .label _ | .symbol _ | .push _ | .pop _ | .call _ | .jmp _ | .jcc _ _ | .ret => false

theorem flows_plain {i : Instr} (h : i.isPlain) (labels : Label → Spot) (a : Spot) :
    i.flows labels a a := by
  cases i with
  | binary op dst src =>
    cases hd : dst.isFrame with
    | false => cases op <;> exact ⟨by simp [aligns, hd], by simp [moves, hd], rfl⟩
    | true => cases op <;> simp [isPlain, hd] at h <;> exact ⟨rfl, rfl, rfl⟩
  | unary op dst => exact ⟨rfl, by simp_all [isPlain, moves], rfl⟩
  | lea dst address =>
    refine ⟨rfl, ?_, rfl⟩
    have hne : dst ≠ .rsp := by rintro rfl; simp [isPlain, Register.isFrame] at h
    simp_all [isPlain, moves]
  | movsxd dst _ => exact ⟨rfl, by simp_all [isPlain, moves], rfl⟩
  | movzx dst _ _ => exact ⟨rfl, by simp_all [isPlain, moves], rfl⟩
  | cmov _ dst _ => exact ⟨rfl, by simp_all [isPlain, moves], rfl⟩
  | floatToInt _ dst _ => exact ⟨rfl, by simp_all [isPlain, moves], rfl⟩
  | comment _ | cqo | btc _ _ _ | repMovsb | loadFloat _ _ _ | storeFloat _ _ _
  | floatBinary _ _ _ _ | compareFloat _ _ _ | intToFloat _ _ _ | convertFloat _ _ _ =>
    exact ⟨rfl, rfl, rfl⟩
  | label _ | symbol _ | push _ | pop _ | call _ | jmp _ | jcc _ _ | ret => cases h

theorem frames_flows {labels : Label → Spot} {i : Instr} {a b : Spot} (h : i.flows labels a b)
    (hi : i.fallsThrough) : (b.frames : Int) = a.frames + framesOpened [i] := by
  -- Only calls can open or close a frame.
  have hsame : b.frames = a.frames → (∀ name, i ≠ .call name) →
      (b.frames : Int) = a.frames + framesOpened [i] := by
    intro hframes hcall
    rw [framesOpened_other (hcall _) (hcall _), hframes]
    omega
  cases i with
  | label l => exact hsame (by rw [h.2]) (by simp)
  | symbol name => exact hsame (by rw [h.2.2]) (by simp)
  | jcc _ target => cases target <;> exact hsame (by rw [h.2]) (by simp)
  | call name =>
    have hcalls := h.2.2
    unfold Calls at hcalls
    split at hcalls
    · rename_i hname
      rw [hname, framesOpened_enter, hcalls]
      omega
    · rename_i henter
      split at hcalls
      · rename_i hname
        rw [hname, framesOpened_exit, hcalls]
        omega
      · rename_i hexit
        rw [framesOpened_other (by simpa using henter) (by simpa using hexit), hcalls]
        omega
  | jmp _ | ret => cases hi
  | _ => exact hsame h.2.2 (by simp)

theorem target_flows {labels : Label → Spot} {i : Instr} {a b : Spot} (h : i.flows labels a b)
    {l : Label} (hi : i.target? = some (.label l)) :
    labels l = a ∧ (∀ s, i.moves s = some s) ∧ framesOpened [i] = 0 := by
  cases i with
  | jmp target =>
    cases hi
    exact ⟨h, fun _ => rfl, framesOpened_other (by simp) (by simp)⟩
  | jcc _ target =>
    cases hi
    exact ⟨h.1, fun _ => rfl, framesOpened_other (by simp) (by simp)⟩
  | _ => cases hi

end Instr

/-- A stack that is another one seen from a base. -/
def Stack.Shifted (a : Stack) (base : Int) (s : Stack) : Prop :=
  s.rsp = base + a.rsp ∧ ∀ b, a.rbp = some b → s.rbp = some (base + b)

namespace Instr

theorem frameMoves_shifted {op : BinaryInstr} {dst src : Operand} (hop : op ≠ .and_)
    {a b s : Stack} {base : Int} (h : frameMoves op dst src a = some b) (hs : a.Shifted base s) :
    ∃ s', frameMoves op dst src s = some s' ∧ b.Shifted base s' := by
  obtain ⟨hrsp, hrbp⟩ := hs
  unfold frameMoves at h
  split at h
  · cases h
    exact ⟨_, rfl, by dsimp only; omega, hrbp⟩
  · cases h
    exact ⟨_, rfl, by dsimp only; omega, hrbp⟩
  · exact absurd rfl hop
  · cases h
    refine ⟨_, rfl, hrsp, ?_⟩
    rintro b ⟨⟩
    exact congrArg some hrsp
  · obtain ⟨frame, hframe, rfl⟩ := Option.map_eq_some_iff.1 h
    exact ⟨{ s with rsp := base + frame }, by simp [frameMoves, hrbp frame hframe],
      rfl, hrbp⟩
  · cases h

theorem moves_shifted {i : Instr} (hi : i.aligns = false) {a b s : Stack} {base : Int}
    (h : i.moves a = some b) (hs : a.Shifted base s) :
    ∃ s', i.moves s = some s' ∧ b.Shifted base s' := by
  have hguard : ∀ {c : Prop} [Decidable c], (if c then none else some a) = some b →
      ∃ s', (if c then none else some s) = some s' ∧ b.Shifted base s' := by
    intro c _ hc
    split at hc
    · cases hc
    · rename_i hfalse
      cases hc
      exact ⟨s, if_neg hfalse, hs⟩
  cases i with
  | binary op dst src =>
    cases hd : dst.isFrame with
    | false =>
      have hsame : ∀ t : Stack, (Instr.binary op dst src).moves t = some t := by
        intro t
        cases op <;> simp [moves, hd]
      rw [hsame] at h ⊢
      cases h
      exact ⟨s, rfl, hs⟩
    | true =>
      cases op with
      | and_ => simp [aligns, hd] at hi
      | cmp | test =>
        cases h
        exact ⟨s, rfl, hs⟩
      | _ =>
        simp only [moves, hd, if_true] at h ⊢
        exact frameMoves_shifted (by simp) h hs
  | unary _ dst => exact hguard h
  | movsxd dst _ => exact hguard h
  | movzx dst _ _ => exact hguard h
  | cmov _ dst _ => exact hguard h
  | floatToInt _ dst _ => exact hguard h
  | lea dst address =>
    unfold moves at h ⊢
    dsimp only at h ⊢
    split at h
    · rename_i hc
      obtain ⟨hrsp, hrbp⟩ := hs
      obtain ⟨frame, hframe, rfl⟩ := Option.map_eq_some_iff.1 h
      refine ⟨{ s with rsp := base + frame + address.displacement }, ?_,
        Int.add_assoc _ _ _, hrbp⟩
      rw [if_pos hc, hrbp frame hframe]
      rfl
    · rename_i hc
      rw [if_neg hc]
      exact hguard h
  | push r =>
    cases h
    obtain ⟨hrsp, hrbp⟩ := hs
    exact ⟨_, rfl, by dsimp only; omega, hrbp⟩
  | pop r =>
    obtain ⟨hrsp, hrbp⟩ := hs
    unfold moves at h ⊢
    dsimp only at h ⊢
    split at h
    · rename_i hr
      cases h
      refine ⟨_, if_pos hr, by dsimp only; omega, ?_⟩
      rintro b ⟨⟩
    · rename_i hr
      split at h
      · cases h
      · rename_i hr'
        cases h
        refine ⟨{ s with rsp := s.rsp + 8 }, ?_, by dsimp only; omega, hrbp⟩
        rw [if_neg hr, if_neg hr']
  | _ =>
    cases h
    exact ⟨s, rfl, hs⟩

end Instr

theorem Instr.flows_shifted {labels : Label → Spot} {i : Instr} {a b : Spot}
    (h : i.flows labels a b) (hfalls : i.fallsThrough) {s : Stack} {base : Int}
    (hs : a.Shifted base s) :
    ∃ s', i.moves s = some s' ∧ b.Shifted base s' := by
  cases i with
  | label l => exact ⟨s, rfl, by rwa [h.2]⟩
  | symbol name => exact ⟨s, rfl, by rwa [h.2.2]⟩
  | jcc _ target =>
    cases target with
    | label l => exact ⟨s, rfl, by rwa [h.2]⟩
    | symbol name => exact ⟨s, rfl, by rwa [h.2]⟩
  | call name => exact ⟨s, rfl, by rwa [h.2.1]⟩
  | jmp _ | ret => cases hfalls
  | _ => exact moves_shifted h.1 h.2.1 hs

/-- How a place is reached: not at all, in any state, when the program is about to end, or in one
state relative to the entry of its function. -/
inductive Arrival
  | nowhere
  | anywhere
  | ending (a : Stack)
  | relative (a : Spot)

/-- Stacks that a place is reached with. Functions are entered by calls from an aligned stack. -/
def Arrival.Fits : Arrival → Stack → Prop
  | .nowhere, _ => False
  | .anywhere, _ => True
  | .ending a, s => ∃ base : Int, base % 16 = 8 ∧ a.Shifted base s
  | .relative a, s => ∃ base : Int, base % 16 = 8 ∧ a.Shifted base s

namespace Instr

/-- Like `flows`, but for code that is entered from anywhere as well. `exit` does not return. -/
def informs (labels : Label → Spot) (i : Instr) : Arrival → Arrival → Prop
  | .nowhere, _ => (∀ l, i ≠ .label l) ∧ ∀ name, i ≠ .symbol name
  | .anywhere, k =>
    (∃ name, i = .symbol name ∧ isTrap name ∧ k = .anywhere) ∨
      i = .binary .and_ Register.rsp (.immediate (-16)) ∧ k = .ending ⟨8, none⟩
  | .ending a, k =>
    i = .call "exit" ∧ a.rsp % 16 = 8 ∨
      ∃ op dst src b, i = .binary op dst src ∧ i.aligns = false ∧ i.moves a = some b ∧ k = .ending b
  | .relative a, k => ∃ b, i.flows labels a b ∧ (i.fallsThrough → k = .relative b)

theorem informs_of_flows {labels : Label → Spot} {i : Instr} {a b : Spot}
    (h : i.flows labels a b) : i.informs labels (.relative a) (.relative b) :=
  ⟨b, h, fun _ => rfl⟩

/-- Only known code has labels in it. -/
theorem informs_label {labels : Label → Spot} {l : Label} {k k' : Arrival}
    (h : (Instr.label l).informs labels k k') : k = .relative (labels l) := by
  cases k with
  | nowhere => exact absurd rfl (h.1 l)
  | anywhere => rcases h with ⟨_, h, -⟩ | ⟨h, -⟩ <;> cases h
  | ending a => rcases h with ⟨h, -⟩ | ⟨_, _, _, _, h, -⟩ <;> cases h
  | relative a =>
    obtain ⟨b, h, -⟩ := h
    rw [h.1]

end Instr

theorem Path.spot {labels : Label → Spot} {code : Code} {at_ : Nat → Arrival}
    (hsteps : ∀ i (instr : Instr), code[i]? = some instr →
      instr.informs labels (at_ i) (at_ (i + 1)))
    {start : Nat} {a : Spot} (hstart : at_ start = .relative a) {trace : List Instr} {i : Nat}
    (h : Path code start trace i) :
    ∃ b, at_ i = .relative b ∧ (b.frames : Int) = a.frames + framesOpened trace ∧
      ∀ {base : Int} {s : Stack}, a.Shifted base s →
        ∃ s', stackAfter trace s = some s' ∧ b.Shifted base s' := by
  induction h with
  | start => exact ⟨a, hstart, by simp [framesOpened], fun hs => ⟨_, rfl, hs⟩⟩
  | @falls trace i instr _ hi hfalls ih =>
    obtain ⟨b, hb, hframes, hstack⟩ := ih
    have hinforms := hsteps i instr hi
    rw [hb] at hinforms
    obtain ⟨c, hflow, hnext⟩ := hinforms
    refine ⟨c, hnext hfalls, ?_, fun hs => ?_⟩
    · rw [Instr.frames_flows hflow hfalls, hframes, framesOpened_concat]
      omega
    · obtain ⟨s', hs', hshifted⟩ := hstack hs
      rw [stackAfter_concat, hs']
      exact Instr.flows_shifted hflow hfalls hshifted
  | @jumps trace i instr l j _ hi htarget hj ih =>
    obtain ⟨b, hb, hframes, hstack⟩ := ih
    have hinforms := hsteps i instr hi
    rw [hb] at hinforms
    obtain ⟨c, hflow, -⟩ := hinforms
    obtain ⟨hlabel, hmoves, hopened⟩ := Instr.target_flows hflow htarget
    refine ⟨b, by rw [Instr.informs_label (hsteps j _ hj), hlabel], ?_, fun hs => ?_⟩
    · rw [framesOpened_concat, hopened]
      omega
    · obtain ⟨s', hs', hshifted⟩ := hstack hs
      rw [stackAfter_concat, hs']
      exact ⟨s', hmoves s', hshifted⟩

theorem Instr.informs_next {labels : Label → Spot} {i : Instr} {k k' : Arrival} {s s' : Stack}
    (h : i.informs labels k k') (hs : k.Fits s) (hfalls : i.fallsThrough)
    (hexit : i ≠ .call "exit") (hmoves : i.moves s = some s') : k'.Fits s' := by
  cases k with
  | nowhere => exact hs.elim
  | anywhere =>
    rcases h with ⟨name, rfl, -, rfl⟩ | ⟨rfl, rfl⟩
    · trivial
    · cases hmoves
      refine ⟨s.rsp - s.rsp % 16 - 8, by omega, ?_, by rintro b ⟨⟩⟩
      dsimp only
      omega
  | ending a =>
    rcases h with ⟨h, -⟩ | ⟨_, _, _, b, rfl, haligns, hb, rfl⟩
    · exact absurd h hexit
    · obtain ⟨base, hbase, hs⟩ := hs
      obtain ⟨t, ht, hfits⟩ := moves_shifted haligns hb hs
      rw [hmoves] at ht
      cases ht
      exact ⟨base, hbase, hfits⟩
  | relative a =>
    obtain ⟨b, hflow, hnext⟩ := h
    rw [hnext hfalls]
    obtain ⟨base, hbase, hs⟩ := hs
    obtain ⟨t, ht, hfits⟩ := Instr.flows_shifted hflow hfalls hs
    rw [hmoves] at ht
    cases ht
    exact ⟨base, hbase, hfits⟩

/-- Jumps are made from known places only. -/
theorem Instr.informs_target {labels : Label → Spot} {i : Instr} {k k' : Arrival} {s : Stack}
    (h : i.informs labels k k') (hs : k.Fits s) {target : Target} (hi : i.target? = some target) :
    ∃ a b, k = .relative a ∧ i.flows labels a b := by
  cases k with
  | nowhere => exact hs.elim
  | anywhere => rcases h with ⟨name, rfl, -⟩ | ⟨rfl, -⟩ <;> cases hi
  | ending a => rcases h with ⟨rfl, -⟩ | ⟨_, _, _, _, rfl, -⟩ <;> cases hi
  | relative a =>
    obtain ⟨b, h, -⟩ := h
    exact ⟨a, b, rfl, h⟩

theorem Instr.symbol_flows {labels : Label → Spot} {i : Instr} {a b : Spot}
    (h : i.flows labels a b) {name : String} (hi : i.target? = some (.symbol name)) :
    isTrap name ∨ a.rsp = 0 := by
  cases i with
  | jmp target => cases hi; exact .inr h
  | jcc _ target => cases hi; exact .inl h.1
  | _ => cases hi

theorem Instr.informs_call {labels : Label → Spot} {name : String} {k k' : Arrival} {s : Stack}
    (h : (Instr.call name).informs labels k k') (hs : k.Fits s) : s.rsp % 16 = 0 := by
  have haligned : ∀ {a : Stack}, a.rsp % 16 = 8 →
      (∃ base : Int, base % 16 = 8 ∧ a.Shifted base s) → s.rsp % 16 = 0 := by
    rintro a ha ⟨base, hbase, hrsp, -⟩
    omega
  cases k with
  | nowhere => exact hs.elim
  | anywhere => rcases h with ⟨_, h, -⟩ | ⟨h, -⟩ <;> cases h
  | ending a =>
    rcases h with ⟨-, ha⟩ | ⟨_, _, _, _, h, -⟩
    · exact haligned ha hs
    · cases h
  | relative a =>
    obtain ⟨b, hflow, -⟩ := h
    exact haligned hflow.1 hs

/-- Symbols are places where a function is entered, unless they are traps. -/
theorem Instr.informs_symbol {labels : Label → Spot} {name : String} {k k' : Arrival} {s : Stack}
    (h : (Instr.symbol name).informs labels k k') (hs : ¬ isTrap name → s.rsp % 16 = 8) :
    k.Fits s := by
  cases k with
  | nowhere => exact absurd rfl (h.2 name)
  | anywhere => trivial
  | ending a => rcases h with ⟨h, -⟩ | ⟨_, _, _, _, h, -⟩ <;> cases h
  | relative a =>
    obtain ⟨b, ⟨htrap, rfl, -⟩, -⟩ := h
    exact ⟨s.rsp, hs htrap, by simp [Spot.entry], by rintro b ⟨⟩⟩

theorem Reached.fits {labels : Label → Spot} {code : Code} {at_ : Nat → Arrival}
    (hsteps : ∀ i (instr : Instr), code[i]? = some instr →
      instr.informs labels (at_ i) (at_ (i + 1)))
    {start : Int} (hstart : start % 16 = 8) {i : Nat} {s : Stack} (h : Reached code start i s) :
    (at_ i).Fits s := by
  induction h with
  | entry hi => exact Instr.informs_symbol (hsteps _ _ hi) fun _ => hstart
  | @falls i s instr s' _ hi hfalls hexit hmoves ih =>
    exact Instr.informs_next (hsteps i instr hi) ih hfalls hexit hmoves
  | @jumps i s instr l j _ hi htarget hj ih =>
    obtain ⟨a, b, hk, hflow⟩ := Instr.informs_target (hsteps i instr hi) ih htarget
    rw [Instr.informs_label (hsteps j _ hj), (Instr.target_flows hflow htarget).1, ← hk]
    exact ih
  | @leaves i s instr name j _ hi htarget hj ih =>
    refine Instr.informs_symbol (hsteps j _ hj) fun htrap => ?_
    obtain ⟨a, b, hk, hflow⟩ := Instr.informs_target (hsteps i instr hi) ih htarget
    have hzero := (Instr.symbol_flows hflow htarget).resolve_left htrap
    rw [hk] at ih
    obtain ⟨base, hbase, hrsp, -⟩ := ih
    omega
  | @calls i s name j _ hi hj ih =>
    refine Instr.informs_symbol (hsteps j _ hj) fun _ => ?_
    have haligned := Instr.informs_call (hsteps i _ hi) ih
    dsimp only
    omega

end RegionCompiler.Machine
