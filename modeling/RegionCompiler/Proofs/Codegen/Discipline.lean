import RegionCompiler.Proofs.Codegen.Collector
import RegionCompiler.Proofs.Codegen.Contained

/-! What generated code does to the stack and to the frames of the collector, on every path. -/
namespace RegionCompiler

open Machine Codegen Typing

/-- On every path from its start to its end, code lowers the stack pointer by the same number of
bytes. -/
def Lowers (code : Code) (bytes : Nat) : Prop :=
  ∀ trace, Path code 0 trace code.length →
    ∀ s, ∃ s', stackAfter trace s = some s' ∧ s'.rsp = s.rsp - bytes

theorem lowers_of_chain {labels : Label → Spot} {a : Spot} {code : Code} {bytes : Nat}
    (h : Chain (Instr.flows labels) a code (a.lower bytes)) (hbase : a.rbp = none) :
    Lowers code bytes := by
  intro trace hpath s
  have hinforms : Chain (Instr.informs labels) (.relative a) code (.relative (a.lower bytes)) :=
    h.mono fun i _ a b hi => Instr.informs_of_flows hi
  obtain ⟨at_, hfirst, hlast, hsteps⟩ := hinforms.states
  obtain ⟨b, hb, -, hstack⟩ := Path.spot hsteps hfirst hpath
  rw [hlast] at hb
  cases hb
  have hshifted : a.Shifted (s.rsp - a.rsp) s := ⟨by omega, by simp [hbase]⟩
  obtain ⟨s', hs', hrsp, -⟩ := hstack hshifted
  refine ⟨s', hs', ?_⟩
  rw [hrsp, Spot.lower]
  dsimp only
  omega

/-- A place in a function, before its base pointer is known. -/
def someSpot (frames : Nat) : Spot := ⟨⟨-8, none⟩, frames⟩

theorem someSpot_aligned (frames : Nat) : (someSpot frames).Aligned := rfl

theorem lowers_of_pushes {n m : Nat} {code : Code} {bytes : Nat} (h : Pushes n m code bytes) :
    Lowers code bytes := by
  obtain ⟨-, own, hown⟩ := h (fun _ => True) _ (someSpot_aligned 0)
  exact lowers_of_chain (hown own trivial fun _ _ _ => rfl) rfl

/-- The labels around a statement were handed out before those inside it: the exit of the function
and the labels of a loop that is not deeper. -/
structure Outside (supply : Supply) (exit : Label) (depth : Nat) (loop : Option Loop) : Prop where
  exitOld : exit.number ≤ supply.labels
  loopOld : ∀ l, loop = some l → l.depth ≤ depth ∧
    l.continues.number ≤ supply.labels ∧ l.breaks.number ≤ supply.labels ∧
    l.continues ≠ exit ∧ l.breaks ≠ exit

/-- The states that a statement asks of the labels around it. -/
def aroundLabels (a : Spot) (exit : Label) (body : Nat) (loop : Option Loop) (l : Label) : Spot :=
  if l = exit then atFrames a body else atFrames a ((loop.map Loop.depth).getD 0)

theorem lowers_of_settles {supply : Supply} {m : Nat} {exit : Label} {body depth : Nat}
    {loop : Option Loop} {code : Code}
    (h : Settles supply.labels m exit body depth loop code)
    (houtside : Outside supply exit depth loop) : Lowers code 0 := by
  obtain ⟨-, own, hown⟩ := h _ (someSpot_aligned depth) rfl
  let labels : Label → Spot := fun l =>
    if l.number ≤ supply.labels then aroundLabels (someSpot depth) exit body loop l else own l
  have hold : ∀ l, l.number ≤ supply.labels →
      labels l = aroundLabels (someSpot depth) exit body loop l := fun l hl => if_pos hl
  have haround : Around exit body loop (someSpot depth) labels := by
    refine ⟨by rw [hold _ houtside.exitOld, aroundLabels, if_pos rfl], ?_⟩
    rintro l rfl
    obtain ⟨-, hcontinues, hbreaks, hcontinues', hbreaks'⟩ := houtside.loopOld l rfl
    rw [hold _ hcontinues, hold _ hbreaks, aroundLabels, aroundLabels, if_neg hcontinues',
      if_neg hbreaks']
    exact ⟨rfl, rfl⟩
  have hchain := hown labels haround fun l hl _ => if_neg (by omega)
  exact lowers_of_chain (a := someSpot depth) (by rw [Spot.lower_zero]; exact hchain) rfl

theorem Codegen.Generated.states {platform : Platform} {layouts : Registry} {p : Program}
    {out : Output} (h : Generated platform layouts p out) :
    ∃ labels, ∃ at_ : Nat → Arrival, ∀ i (instr : Instr), out.assembly.code[i]? = some instr →
      instr.informs labels (at_ i) (at_ (i + 1)) := by
  obtain ⟨code, n, hcode, -, hpiece⟩ := h.code
  obtain ⟨-, own, hown⟩ := (untrapped_piece platform (mainResultSize out.routines)).both hpiece
  obtain ⟨hcollector, hfunctions⟩ := hown own trivial fun _ _ _ => rfl
  have hchain := (collector_chain platform _ hcollector (.relative .entry)).append
    (hfunctions.mono fun i _ a b hi => Instr.informs_of_flows hi)
  rw [← hcode] at hchain
  obtain ⟨at_, -, -, hsteps⟩ := hchain.states
  exact ⟨own, at_, hsteps⟩

theorem Machine.Instr.informs_entry {labels : Label → Spot} {name : String} {k k' : Arrival}
    (h : (Instr.symbol name).informs labels k k') (hname : ¬ isTrap name) :
    k = .relative .entry := by
  cases k with
  | nowhere => exact absurd rfl (h.2 name)
  | anywhere =>
    rcases h with ⟨_, h, htrap, -⟩ | ⟨h, -⟩
    · cases h
      exact absurd htrap hname
    · cases h
  | ending a => rcases h with ⟨h, -⟩ | ⟨_, _, _, _, h, -⟩ <;> cases h
  | relative a =>
    obtain ⟨b, ⟨-, rfl, -⟩, -⟩ := h
    rfl

/-- The state at a place, where it is known. -/
def Machine.Arrival.spot : Arrival → Spot
  | .relative a => a
  | .nowhere | .anywhere | .ending _ => .entry

/-- The code of a function starts at its symbol. -/
def StartsAt (code : Code) (f : Function) (start : Nat) : Prop :=
  code[start]? = some (.symbol (functionSymbol f.name.value))

section Accepted

variable {isFile : String → Bool} {platform : Platform} {path text : String} {layouts : Registry}
  {p : Program} {out : Codegen.Output}

theorem Accepted.startsAt (h : Accepted isFile platform path text layouts p out) {f : Function}
    (hf : f ∈ p.functions) : ∃ start, StartsAt out.assembly.code f start := by
  obtain ⟨code, n, hcode, hsymbols, -⟩ := h.generates.code
  obtain ⟨r, hr, hframes⟩ := exists_of_forall₂ h.generates.frames hf
  have hmem : .symbol (functionSymbol f.name.value) ∈ out.assembly.code := by
    rw [hcode, ← hframes.name]
    exact List.mem_append_right _ (hsymbols r hr)
  exact List.mem_iff_getElem?.1 hmem

theorem Accepted.spots (h : Accepted isFile platform path text layouts p out) {f : Function}
    {start : Nat} (hstart : StartsAt out.assembly.code f start) :
    ∃ spot : Nat → Spot, ∀ trace i, Path out.assembly.code start trace i →
      (framesOpened trace = (spot i).frames ∧
        ∀ s, ∃ s', stackAfter trace s = some s' ∧ s'.rsp = s.rsp + (spot i).rsp) ∧
      (out.assembly.code[i]? = some .ret → (spot i).rsp = 0 ∧ (spot i).frames = 0) := by
  obtain ⟨labels, at_, hsteps⟩ := h.generates.states
  have hentry : at_ start = .relative .entry :=
    Instr.informs_entry (hsteps start _ hstart) (functionSymbol_not_trap _)
  refine ⟨fun i => (at_ i).spot, fun trace i hpath => ?_⟩
  obtain ⟨b, hb, hframes, hstack⟩ := Path.spot hsteps hentry hpath
  simp only [hb, Arrival.spot]
  refine ⟨⟨by simpa [Spot.entry] using hframes.symm, fun s => ?_⟩, fun hret => ?_⟩
  · have hshifted : Spot.entry.Shifted s.rsp s := ⟨by simp [Spot.entry], by simp [Spot.entry]⟩
    obtain ⟨s', hs', hrsp, -⟩ := hstack hshifted
    exact ⟨s', hs', hrsp⟩
  · have hinforms := hsteps i _ hret
    rw [hb] at hinforms
    obtain ⟨c, hflow, -⟩ := hinforms
    exact hflow

/-- Frames of the collector balance: on all paths from the symbol of a function, a place is reached
with the same number of open frames, and a return with none. -/
theorem frames_balanced (h : Accepted isFile platform path text layouts p out) {f : Function}
    (hf : f ∈ p.functions) :
    (∃ start, StartsAt out.assembly.code f start) ∧
    ∀ start, StartsAt out.assembly.code f start →
      ∃ opened : Nat → Nat, ∀ trace i, Path out.assembly.code start trace i →
        framesOpened trace = opened i ∧ (out.assembly.code[i]? = some .ret → opened i = 0) := by
  refine ⟨h.startsAt hf, fun start hstart => ?_⟩
  obtain ⟨spot, hspot⟩ := h.spots hstart
  refine ⟨fun i => (spot i).frames, fun trace i hpath => ?_⟩
  obtain ⟨⟨hframes, -⟩, hret⟩ := hspot trace i hpath
  exact ⟨hframes, fun hi => (hret hi).2⟩

theorem frames_balanced_loop : ∃ layouts p out f, f ∈ p.functions ∧
    Accepted (fun _ => false) .linux "main.bz" breakingLoop layouts p out ∧
    ∃ start, StartsAt out.assembly.code f start ∧
      ∃ opened : Nat → Nat, ∀ trace i, Path out.assembly.code start trace i →
        framesOpened trace = opened i ∧ (out.assembly.code[i]? = some .ret → opened i = 0) := by
  obtain ⟨layouts, p, out, h⟩ := accepted_loop
  obtain ⟨f, hf, -⟩ := h.programOk.main
  obtain ⟨⟨start, hstart⟩, hall⟩ := frames_balanced h hf
  exact ⟨layouts, p, out, f, hf, h, start, hstart, hall start hstart⟩

/-- The stack pointer is kept track of. On all paths from the symbol of a function, a place is
reached with the same distance from where the function was entered, and a return with none. Every
expression pushes its type, rounded up; every statement leaves nothing. Whatever is called is
called from an aligned stack. -/
theorem stack_disciplined (h : Accepted isFile platform path text layouts p out) :
    (∀ f ∈ p.functions, (∃ start, StartsAt out.assembly.code f start) ∧
      ∀ start, StartsAt out.assembly.code f start →
        ∃ offset : Nat → Int, ∀ trace i, Path out.assembly.code start trace i →
          (∀ s, ∃ s', stackAfter trace s = some s' ∧ s'.rsp = s.rsp + offset i) ∧
          (out.assembly.code[i]? = some .ret → offset i = 0)) ∧
    (∀ r ∈ out.routines, ∀ st depth inLoop,
      Stmt.Occurs st depth inLoop r.function.body.statements (bodyDepth r.function) false →
      (∀ other ∈ st.expressions, ∀ e, Expr.Occurs e other →
        ∃ t size, e.ty = some t ∧ layouts.sizeOf? t = some size ∧
          ∀ supply, ∃ code supply',
            exprCode (envOf platform layouts p out.routines r) e supply = .ok (code, supply') ∧
            Lowers code (alignUp size 16)) ∧
      ∀ supply exit loop, inLoop = loop.isSome → Outside supply exit depth loop →
        ∃ code supply', stmtCode (envOf platform layouts p out.routines r) exit depth loop st
            supply = .ok (code, supply') ∧
          Lowers code 0) ∧
    ∀ start : Int, start % 16 = 8 → ∀ i s name, Reached out.assembly.code start i s →
      out.assembly.code[i]? = some (.call name) → s.rsp % 16 = 0 := by
  refine ⟨fun f hf => ⟨h.startsAt hf, fun start hstart => ?_⟩, ?_, ?_⟩
  · obtain ⟨spot, hspot⟩ := h.spots hstart
    refine ⟨fun i => (spot i).rsp, fun trace i hpath => ?_⟩
    obtain ⟨⟨-, hstack⟩, hret⟩ := hspot trace i hpath
    exact ⟨hstack, fun hi => (hret hi).1⟩
  · intro r hr st depth inLoop hocc
    obtain ⟨f, -, -, hfits, hstatements⟩ := h.source hr
    obtain ⟨hst, hdepth⟩ := StmtsOk.occurs hocc hstatements
    refine ⟨fun other hother e he => ?_, fun supply exit loop hloop houtside => ?_⟩
    · obtain ⟨u, hu⟩ := hst.expressions other hother
      obtain ⟨t, ht⟩ := HasType.occurs he hu
      obtain ⟨l, -, hl, hsize⟩ := layoutOf_of_known (hfits.known (ht.known hfits.sound))
      refine ⟨t, l.size, ht.ty_eq, ?_, fun supply => ?_⟩
      · change (envOf platform layouts p out.routines r).layouts.sizeOf? t = _
        simp [Registry.sizeOf?, hl]
      · obtain ⟨code, supply', hcode, hpushes⟩ := (exprCode_delivers hfits e ht supply).gives
          (h.exprCode_counts hr hocc hother he supply)
        rw [← hsize] at hpushes
        exact ⟨code, supply', hcode, lowers_of_pushes hpushes⟩
    · have hwithin : Within (bodyDepth r.function) depth loop :=
        ⟨hdepth, fun l hl => (houtside.loopOld l hl).1⟩
      obtain ⟨code, supply', hcode, hsettles⟩ :=
        (stmtCode_delivers hfits st hst hwithin hloop supply).gives
          (h.stmtCode_counts hr hocc exit loop supply)
      exact ⟨code, supply', hcode, lowers_of_settles hsettles houtside⟩
  · intro start hstart i s name hreached hi
    obtain ⟨labels, at_, hsteps⟩ := h.generates.states
    exact Instr.informs_call (hsteps i _ hi) (hreached.fits hsteps hstart)

theorem stack_disciplined_loop : ∃ layouts p out,
    Accepted (fun _ => false) .linux "main.bz" breakingLoop layouts p out ∧
    (∃ f ∈ p.functions, ∃ start, StartsAt out.assembly.code f start ∧
      ∃ offset : Nat → Int, ∀ trace i, Path out.assembly.code start trace i →
        ∀ s, ∃ s', stackAfter trace s = some s' ∧ s'.rsp = s.rsp + offset i) ∧
    ∀ i s name, Reached out.assembly.code 8 i s →
      out.assembly.code[i]? = some (.call name) → s.rsp % 16 = 0 := by
  obtain ⟨layouts, p, out, h⟩ := accepted_loop
  obtain ⟨f, hf, -⟩ := h.programOk.main
  obtain ⟨hpaths, -, hcalls⟩ := stack_disciplined h
  obtain ⟨⟨start, hstart⟩, hall⟩ := hpaths f hf
  obtain ⟨offset, hoffset⟩ := hall start hstart
  refine ⟨layouts, p, out, h, ⟨f, hf, start, hstart, offset, fun trace i hpath => ?_⟩, ?_⟩
  · exact (hoffset trace i hpath).1
  · exact hcalls 8 rfl

end Accepted

end RegionCompiler
