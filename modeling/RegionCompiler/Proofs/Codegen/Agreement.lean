import RegionCompiler.Proofs.Codegen.Discipline
import RegionCompiler.Proofs.Layout.Growth

/-! Caller and callee agree on the frame between them. The caller counts from the top of its stack,
which every argument moves while it is evaluated; the callee counts from its base pointer. Both lead
to the same bytes, and no two things in a frame share one. -/
namespace RegionCompiler

open Machine Codegen Typing

/-- Bytes in a row, seen from the base pointer. -/
structure Extent where
  start : Int
  size : Nat

namespace Extent

def stop (e : Extent) : Int := e.start + e.size

def Within (a b : Extent) : Prop := b.start ≤ a.start ∧ a.stop ≤ b.stop

def Apart (a b : Extent) : Prop := a.stop ≤ b.start ∨ b.stop ≤ a.start

end Extent

namespace Frame

/-- The areas of a frame, from the lowest to the highest. -/
inductive Area
  | locals
  /-- The base pointer of the caller and the address to return to. -/
  | linkage
  | arguments
  | result

def extent (f : Frame) : Area → Extent
  | .locals => ⟨-f.locals, f.locals⟩
  | .linkage => ⟨0, 16⟩
  | .arguments => ⟨16, f.arguments⟩
  | .result => ⟨f.resultAt, f.resultSlot⟩

theorem extent_apart (f : Frame) {a b : Area} (h : a ≠ b) : (f.extent a).Apart (f.extent b) := by
  cases a <;> cases b <;> simp [extent, Extent.Apart, Extent.stop, resultAt] at h ⊢ <;> omega

theorem dvd_extent {f : Frame} (hlocals : 16 ∣ f.locals) (harguments : 16 ∣ f.arguments)
    (a : Area) : 16 ∣ (f.extent a).size := by
  cases a with
  | locals => exact hlocals
  | linkage => exact Nat.dvd_refl 16
  | arguments => exact harguments
  | result => exact dvd_alignUp (by omega)

end Frame

namespace Placed

variable {layouts : Registry} {offset stop : Nat} {vs placed : List StackVariable}

def Lies (layouts : Registry) (v : StackVariable) (here : Nat) (l : Layout) : Prop :=
  v.offset = some here ∧ layouts.layoutOf v.ty = .ok l

theorem lies (h : Placed layouts offset vs placed stop) :
    ∀ v ∈ placed, ∃ here l, Lies layouts v here l := by
  induction h with
  | nil => simp
  | @cons offset v l rest others stop hl _ ih =>
    intro w hw
    rcases List.mem_cons.1 hw with rfl | hw
    · exact ⟨_, l, rfl, hl⟩
    · exact ih w hw

theorem within (h : Placed layouts offset vs placed stop) {v : StackVariable} (hv : v ∈ placed)
    {here : Nat} {l : Layout} (hlies : Lies layouts v here l) :
    offset ≤ here ∧ here + l.size ≤ stop := by
  induction h with
  | nil => cases hv
  | @cons offset w k rest others stop hk hrest ih =>
    have hpad := le_alignUp offset k.alignment
    have hle := hrest.le
    rcases List.mem_cons.1 hv with rfl | hv
    · obtain ⟨hhere, hl⟩ := hlies
      cases hhere
      obtain rfl : k = l := Except.ok.inj (hk.symm.trans hl)
      omega
    · have hin := ih hv
      omega

theorem aligned (h : Placed layouts offset vs placed stop) {v : StackVariable} (hv : v ∈ placed)
    {here : Nat} {l : Layout} (hlies : Lies layouts v here l) (hpositive : 0 < l.alignment) :
    l.alignment ∣ here := by
  induction h with
  | nil => cases hv
  | @cons offset w k rest others stop hk hrest ih =>
    rcases List.mem_cons.1 hv with rfl | hv
    · obtain ⟨hhere, hl⟩ := hlies
      cases hhere
      obtain rfl : k = l := Except.ok.inj (hk.symm.trans hl)
      exact dvd_alignUp hpositive
    · exact ih hv

theorem ordered (h : Placed layouts offset vs placed stop) :
    placed.Pairwise fun v w => ∀ {here l here' l'}, Lies layouts v here l →
      Lies layouts w here' l' → here + l.size ≤ here' := by
  induction h with
  | nil => exact .nil
  | @cons offset v k rest others stop hk hrest ih =>
    refine .cons (fun w hw here l here' l' hv hw' => ?_) ih
    obtain ⟨hhere, hl⟩ := hv
    cases hhere
    obtain rfl : k = l := Except.ok.inj (hk.symm.trans hl)
    exact (hrest.within hw hw').1

end Placed

namespace Codegen

/-- A variable lies at the given bytes of the frame. -/
def Env.Occupies (env : Env) (v : StackVariable) (e : Extent) : Prop :=
  env.variableAddress v.mangled = .ok (Address.frame e.start) ∧ env.sizeOf v.ty = .ok e.size

/-- Variables in an area of the frame, each of them aligned and none of them over another. -/
structure Env.Arranged (env : Env) (area : Frame.Area) (vs : List StackVariable) : Prop where
  inside : ∀ v ∈ vs, ∃ e l, env.Occupies v e ∧ env.layouts.layoutOf v.ty = .ok l ∧
    e.Within (env.current.frame.extent area) ∧ (l.alignment : Int) ∣ e.start ∧ l.alignment ∣ 16
  apart : vs.Pairwise fun v w => ∀ e e', env.Occupies v e → env.Occupies w e' → e.Apart e'

/-- A frame in order. -/
structure Env.Framed (env : Env) : Prop where
  /-- The locals lie between the two pointers. -/
  entered : ∀ s : Stack, stackAfter (Collector.prologue ++ lower env.current.frame.locals) s =
    some ⟨s.rsp - 8 + (env.current.frame.extent .locals).start, some (s.rsp - 8)⟩
  sizes : ∀ area, 16 ∣ (env.current.frame.extent area).size
  areas : ∀ a b, a ≠ b → (env.current.frame.extent a).Apart (env.current.frame.extent b)
  parameters : env.Arranged .arguments env.current.function.stack.parameters
  locals : env.Arranged .locals env.current.function.stack.locals

section Arrangement

variable {layouts : Registry} {f : Function} {env : Env}

theorem variableAddress_parameter (hnames :
      ((env.current.function.stack.parameters ++ env.current.function.stack.locals).map
        (·.mangled)).Nodup)
    {v : StackVariable} (hv : v ∈ env.current.function.stack.parameters) {here : Nat}
    (hhere : v.offset = some here) :
    env.variableAddress v.mangled = .ok (Address.frame (env.current.frame.argumentAt here)) := by
  rw [List.map_append] at hnames
  have hfind := find?_eq_of_nodup (List.nodup_append.1 hnames).1 hv
  simp [Env.variableAddress, hfind, placedAt, hhere, bind, Except.bind, pure, Except.pure]

theorem variableAddress_local (hnames :
      ((env.current.function.stack.parameters ++ env.current.function.stack.locals).map
        (·.mangled)).Nodup)
    {v : StackVariable} (hv : v ∈ env.current.function.stack.locals) {here : Nat}
    (hhere : v.offset = some here) :
    env.variableAddress v.mangled = .ok (Address.frame (env.current.frame.localAt here)) := by
  rw [List.map_append] at hnames
  obtain ⟨-, hlocals, hapart⟩ := List.nodup_append.1 hnames
  have hfind := find?_eq_of_nodup hlocals hv
  have hnone : env.current.function.stack.parameters.find? (·.mangled == v.mangled) = none := by
    refine List.find?_eq_none.2 fun w hw => ?_
    simpa using hapart _ (List.mem_map_of_mem hw) _ (List.mem_map_of_mem hv)
  simp [Env.variableAddress, hnone, hfind, placedAt, hhere, bind, Except.bind, pure, Except.pure]

theorem stackAfter_enter (bytes : Nat) (s : Stack) :
    stackAfter (Collector.prologue ++ lower bytes) s =
      some ⟨s.rsp - 8 + -(bytes : Int), some (s.rsp - 8)⟩ := by
  unfold lower
  split
  · rename_i hzero
    simp [stackAfter, Collector.prologue, Instr.mov, Instr.moves, Instr.frameMoves,
      Operand.isFrame, Register.isFrame, hzero]
  · simp [stackAfter, Collector.prologue, Instr.mov, Instr.moves, Instr.frameMoves,
      Operand.isFrame, Register.isFrame, Int.sub_eq_add_neg]

/-- Variables that lie one behind the other are arranged in any area that they fit in, wherever it
starts. -/
theorem arranged_of_placed (hgrown : env.layouts.Grown) {area : Frame.Area} {stop : Nat}
    {vs placed : List StackVariable} (h : Placed env.layouts 0 vs placed stop)
    (hstart : (16 : Int) ∣ (env.current.frame.extent area).start)
    (hsize : stop ≤ (env.current.frame.extent area).size)
    (haddress : ∀ v ∈ placed, ∀ here, v.offset = some here → env.variableAddress v.mangled =
      .ok (Address.frame ((env.current.frame.extent area).start + here))) :
    env.Arranged area placed := by
  have hoccupies : ∀ v ∈ placed, ∀ {here l}, Placed.Lies env.layouts v here l →
      env.Occupies v ⟨(env.current.frame.extent area).start + here, l.size⟩ := by
    rintro v hv here l ⟨hhere, hl⟩
    exact ⟨haddress v hv here hhere, by simp [Env.sizeOf, Env.layoutOf, hl, bind, Except.bind,
      pure, Except.pure]⟩
  have hunique : ∀ {v : StackVariable} {e e' : Extent}, env.Occupies v e → env.Occupies v e' →
      e = e' := by
    rintro v ⟨start, size⟩ ⟨start', size'⟩ ⟨hfirst, hsecond⟩ ⟨hfirst', hsecond'⟩
    rw [hfirst] at hfirst'
    rw [hsecond] at hsecond'
    cases hfirst'
    cases hsecond'
    rfl
  constructor
  · intro v hv
    obtain ⟨here, l, hlies⟩ := h.lies v hv
    obtain ⟨-, hin⟩ := h.within hv hlies
    have halignment := (hgrown.lays hlies.2).alignment
    have hdvd : l.alignment ∣ 16 := by rcases halignment with h | h | h <;> rw [h] <;> decide
    have hhere := h.aligned hv hlies (by omega)
    refine ⟨_, l, hoccupies v hv hlies, hlies.2, ⟨?_, ?_⟩, ?_, hdvd⟩
    · dsimp only
      omega
    · simp only [Extent.stop]
      omega
    · exact Int.dvd_add (Int.dvd_trans (Int.natCast_dvd_natCast.2 hdvd) hstart)
        (Int.natCast_dvd_natCast.2 hhere)
  · refine h.ordered.imp_of_mem fun {v w} hv hw hordered e e' he he' => .inl ?_
    obtain ⟨here, l, hlies⟩ := h.lies v hv
    obtain ⟨here', l', hlies'⟩ := h.lies w hw
    rw [hunique he (hoccupies v hv hlies), hunique he' (hoccupies w hw hlies')]
    have hle := hordered hlies hlies'
    simp only [Extent.stop]
    omega

theorem framed_of_frames (hgrown : env.layouts.Grown)
    (h : Routine.Frames env.layouts f env.current)
    (hnames : ((f.stack.parameters ++ f.stack.locals).map (·.mangled)).Nodup) : env.Framed := by
  obtain ⟨stop, hparameters, harguments⟩ := h.parameters
  obtain ⟨stop', hlocals, hlocalsSize⟩ := h.locals
  have hnames' : ((env.current.function.stack.parameters ++
      env.current.function.stack.locals).map (·.mangled)).Nodup := by
    rw [List.map_append, hparameters.map_mangled, hlocals.map_mangled, ← List.map_append]
    exact hnames
  have hdvd : 16 ∣ env.current.frame.locals := by
    rw [hlocalsSize]
    exact dvd_alignUp (by omega)
  have hdvd' : 16 ∣ env.current.frame.arguments := by
    rw [harguments]
    exact dvd_alignUp (by omega)
  refine ⟨stackAfter_enter _, Frame.dvd_extent hdvd hdvd', fun a b hne =>
    Frame.extent_apart _ hne, ?_, ?_⟩
  · refine arranged_of_placed hgrown hparameters (Int.dvd_refl 16) ?_ fun v hv here hhere =>
      variableAddress_parameter hnames' hv hhere
    have hpad := le_alignUp stop 16
    simp only [Frame.extent]
    omega
  · refine arranged_of_placed hgrown hlocals ?_ ?_ fun v hv here hhere => ?_
    · simp only [Frame.extent]
      omega
    · have hpad := le_alignUp stop' 16
      simp only [Frame.extent]
      omega
    · rw [variableAddress_local hnames' hv hhere, Frame.localAt, Frame.extent, Int.sub_eq_add_neg,
        Int.add_comm]

end Arrangement

end Codegen

namespace Machine

def Stack.place (s : Stack) (a : Address) : Option Int :=
  if a = Address.at_ .rsp a.displacement then some (s.rsp + a.displacement)
  else if a = Address.at_ .rbp a.displacement then s.rbp.map (· + a.displacement)
  else none

@[simp] theorem Stack.place_stack (s : Stack) (offset : Nat) :
    s.place (Address.stack offset) = some (s.rsp + offset) := if_pos rfl

@[simp] theorem Stack.place_frame (s : Stack) (displacement : Int) :
    s.place (Address.frame displacement) = s.rbp.map (· + displacement) := by
  simp [place, Address.frame, Address.at_]

/-- The stack in a function that is called, behind its prologue. -/
def Stack.called (s : Stack) : Option Stack :=
  stackAfter Collector.prologue { s with rsp := s.rsp - 8 }

@[simp] theorem Stack.called_eq (s : Stack) :
    s.called = some ⟨s.rsp - 16, some (s.rsp - 16)⟩ := by
  have hsub : s.rsp - 8 - 8 = s.rsp - 16 := by omega
  simp [called, stackAfter, Collector.prologue, Instr.mov, Instr.moves, Instr.frameMoves,
    Operand.isFrame, Register.isFrame, hsub]

theorem Chain.states_append {σ : Type} {step : Instr → σ → σ → Prop} {a b c : σ}
    {code code' : Code} (h : Chain step a code b) (h' : Chain step b code' c) :
    ∃ at_ : Nat → σ, at_ 0 = a ∧ at_ code.length = b ∧
      ∀ i instr, (code ++ code')[i]? = some instr → step instr (at_ i) (at_ (i + 1)) := by
  induction h with
  | nil =>
    obtain ⟨at_, hfirst, -, hsteps⟩ := h'.states
    exact ⟨at_, hfirst, hfirst, hsteps⟩
  | @cons a i b code c hi _ ih =>
    obtain ⟨at_, hfirst, hmiddle, hsteps⟩ := ih h'
    refine ⟨fun n => Nat.casesOn (motive := fun _ => σ) n a at_, rfl, hmiddle, ?_⟩
    intro n instr hn
    cases n with
    | zero =>
      obtain rfl : i = instr := by simpa using hn
      rw [← hfirst] at hi
      exact hi
    | succ n => exact hsteps n instr (by simpa using hn)

end Machine

/-- On every path from the start of some code to a place in it, the stack pointer is lowered by the
same number of bytes and the base pointer is kept. -/
def LowersAt (code : Code) (i bytes : Nat) : Prop :=
  ∀ trace, Path code 0 trace i → ∀ rsp rbp : Int,
    stackAfter trace ⟨rsp, some rbp⟩ = some ⟨rsp - bytes, some rbp⟩

theorem lowersAt_of_pieces {n k m bytes : Nat} {first second : Code} {next : Spot → Spot}
    (hfirst : Pushes n k first bytes)
    (hsecond : ∀ a : Spot, a.Aligned →
      Piece (fun _ => True) k m (a.lower bytes) second (next a)) :
    LowersAt (first ++ second) first.length bytes := by
  intro trace hpath rsp rbp
  let a : Spot := ⟨⟨-8, some (rbp - (rsp + 8))⟩, 0⟩
  obtain ⟨-, own, hown⟩ := (hfirst (fun _ => True) a rfl).both (hsecond a rfl)
  obtain ⟨hchain, hchain'⟩ := hown own trivial fun _ _ _ => rfl
  have hinforms : Chain (Instr.informs own) (.relative a) first (.relative (a.lower bytes)) :=
    hchain.mono fun i _ a b hi => Instr.informs_of_flows hi
  have hinforms' : Chain (Instr.informs own) (.relative (a.lower bytes)) second
      (.relative (next a)) :=
    hchain'.mono fun i _ a b hi => Instr.informs_of_flows hi
  obtain ⟨at_, hstart, hmiddle, hsteps⟩ := hinforms.states_append hinforms'
  obtain ⟨b, hb, -, hstack⟩ := Path.spot hsteps hstart hpath
  rw [hmiddle] at hb
  cases hb
  have hshifted : a.Shifted (rsp + 8) ⟨rsp, some rbp⟩ := by
    refine ⟨by simp [a], fun b hb => ?_⟩
    cases hb
    simp
  obtain ⟨⟨rsp', rbp'⟩, hs', hrsp, hrbp⟩ := hstack hshifted
  rw [hs']
  have hbase := hrbp _ rfl
  dsimp only at hrsp hbase
  simp only [Option.some.injEq, Stack.mk.injEq]
  refine ⟨?_, ?_⟩
  · rw [hrsp]
    simp only [Spot.lower, a]
    omega
  · rw [hbase]
    congr 1
    omega

theorem lowersAt_length {n m bytes : Nat} {code : Code} (h : Pushes n m code bytes) :
    LowersAt code code.length bytes := by
  have hat : LowersAt (code ++ []) code.length bytes :=
    lowersAt_of_pieces h fun a _ => (.nil : Piece _ _ _ (a.lower bytes) [] (a.lower bytes))
  rwa [List.append_nil] at hat

namespace Codegen

def callCode (env : Env) (binding : Binding) (result : Ty) (arguments : List Expr) : Gen Code :=
  callWith env binding result (fun parameters => argumentsCode env parameters arguments)
    (fun fixed => foreignArgumentsCode env fixed arguments)

/-- An argument of a call is copied from the top of the stack to where the callee has its parameter.
The stack pointer is `below` bytes lower at the call than before the code of it. -/
def Lands (caller callee : Env) (code before : Code) (below : Nat) (parameter : StackVariable)
    (argument : Expr) : Prop :=
  ∃ first value rest size destination home lowered, ∃ s s' : Supply,
    before = first ++ value ++ copy destination top size ++ rest ∧
    exprCode caller argument s = .ok (value, s') ∧
    (∃ t, argument.ty = some t ∧ caller.sizeOf t = .ok size) ∧
    callee.sizeOf parameter.ty = .ok size ∧
    callee.variableAddress parameter.mangled = .ok home ∧
    LowersAt code (first ++ value).length lowered ∧
    ∀ rsp rbp : Int, ∃ here, (⟨rsp - lowered, some rbp⟩ : Stack).place destination = some here ∧
      (⟨rsp - below, some rbp⟩ : Stack).called.bind (·.place home) = some here

/-- Both sides of a call, with the code that stands before the call itself. -/
structure Agrees (caller callee : Env) (result : Ty) (arguments : List Expr) (code before : Code)
    (below : Nat) : Prop where
  call : ∃ after, code = before ++ .call (functionSymbol callee.current.name) :: after
  lowered : LowersAt code before.length below
  /-- What is left on the stack is the slot of the result. -/
  kept : LowersAt code code.length callee.current.frame.resultSlot
  size : caller.sizeOf result = .ok callee.current.frame.result
  returned : ∀ rsp rbp : Int, (⟨rsp - below, some rbp⟩ : Stack).called.bind
    (·.place (Address.frame callee.current.frame.resultAt)) =
      some (rsp - callee.current.frame.resultSlot)
  arguments : List.Forall₂ (Lands caller callee code before below)
    callee.current.function.stack.parameters arguments

section Stores

variable {env : Env} {D : Decls}

theorem Delivers.run {α : Type} {g : Gen α} {s : Supply} {Q : α → Supply → Prop}
    (h : Delivers g s Q) : Delivers g s fun a s' => g s = .ok (a, s') ∧ Q a s' :=
  h.imp_left fun ⟨a, s', hrun, hQ⟩ => ⟨a, s', hrun, hrun, hQ⟩

/-- Code in which an argument is stored at the offset of its parameter. -/
def Stores (env : Env) (n m : Nat) (code : Code) (v : StackVariable) (argument : Expr) : Prop :=
  ∃ first value rest size offset, ∃ s s' : Supply,
    code = first ++ value ++ copy (Address.stack (slot size + offset)) top size ++ rest ∧
    exprCode env argument s = .ok (value, s') ∧
    (∃ t, argument.ty = some t ∧ env.sizeOf t = .ok size) ∧ env.sizeOf v.ty = .ok size ∧
    placedAt v = .ok offset ∧ Keeps n s.labels first ∧
    Pushes s.labels s'.labels value (slot size) ∧
    ∀ C a, a.Aligned → Piece C s'.labels m (a.lower (slot size)) rest a

theorem Stores.after {n k m : Nat} {code code' : Code} {v : StackVariable} {argument : Expr}
    (h : Stores env k m code' v argument) (hcode : Keeps n k code) :
    Stores env n m (code ++ code') v argument := by
  obtain ⟨first, value, rest, size, offset, s, s', rfl, hrun, hty, hsize, hoffset, hfirst, hvalue,
    hrest⟩ := h
  refine ⟨code ++ first, value, rest, size, offset, s, s', by simp, hrun, hty, hsize, hoffset,
    fun C a ha => ?_, hvalue, hrest⟩
  exact .append (hcode C a ha) (hfirst C a ha)

theorem placedAt_eq_ok {v : StackVariable} {offset : Nat} :
    placedAt v = .ok offset ↔ v.offset = some offset := by
  cases h : v.offset <;> simp [placedAt, h]

theorem Stores.lands {callee : Env} {n m k below kept : Nat} {reserve stored behind : Code}
    {v : StackVariable} {argument : Expr} (h : Stores env n m stored v argument)
    (hv : v ∈ callee.current.function.stack.parameters)
    (hnames : ((callee.current.function.stack.parameters ++
      callee.current.function.stack.locals).map (·.mangled)).Nodup)
    (hlayouts : callee.layouts = env.layouts) (hbelow : 16 ∣ below)
    (hreserve : Pushes n n reserve below)
    (hbehind : ∀ a : Spot, a.Aligned →
      Piece (fun _ => True) m k (a.lower below) behind (a.lower kept)) :
    Lands env callee (reserve ++ stored ++ behind) (reserve ++ stored) below v argument := by
  obtain ⟨first, value, rest, size, offset, s, s', rfl, hrun, hty, hsize, hoffset, hfirst, hvalue,
    hrest⟩ := h
  have hpushes : Pushes n s'.labels (reserve ++ first ++ value) (below + slot size) := by
    intro C a ha
    rw [← Spot.lower_lower]
    exact .append (.append (hreserve C a ha) (hfirst C _ (ha.lower hbelow)))
      (hvalue C _ (ha.lower hbelow))
  have hrest' : ∀ a : Spot, a.Aligned → Piece (fun _ => True) s'.labels k
      (a.lower (below + slot size))
      (copy (Address.stack (slot size + offset)) top size ++ rest ++ behind) (a.lower kept) := by
    intro a ha
    rw [← Spot.lower_lower]
    exact .append (.append (.plain (copy_plain _ _ _)) (hrest _ _ (ha.lower hbelow)))
      (hbehind a ha)
  refine ⟨reserve ++ first, value, rest, size, Address.stack (slot size + offset), _,
    below + slot size, s, s', by simp, hrun, hty, ?_,
    variableAddress_parameter hnames hv (placedAt_eq_ok.1 hoffset), ?_, fun rsp rbp => ?_⟩
  · rw [← hsize]
    simp only [Env.sizeOf, Env.layoutOf, hlayouts]
  · simpa using lowersAt_of_pieces hpushes hrest'
  · refine ⟨_, Stack.place_stack _ _, ?_⟩
    simp only [Stack.called_eq, Option.bind_some, Stack.place_frame, Option.map_some,
      Frame.argumentAt, Option.some.injEq]
    push_cast
    omega

theorem argumentsCode_stores (hE : env.Fits D) {arguments : List Expr} :
    ∀ {parameters : List Ty}, Takes D parameters false arguments →
    ∀ {vs : List StackVariable},
    List.Forall₂ (fun v t => v.ty = t ∧ ∃ offset, placedAt v = .ok offset) vs parameters →
    ∀ s : Supply, Delivers (argumentsCode env vs arguments) s fun code s' =>
      Keeps s.labels s'.labels code ∧
      List.Forall₂ (Stores env s.labels s'.labels code) vs arguments := by
  induction arguments with
  | nil =>
    intro parameters htakes vs hvs s
    cases htakes
    cases hvs
    rw [argumentsCode]
    exact .pure ⟨fun C a _ => .nil, .nil⟩
  | cons argument rest ih =>
    intro parameters htakes vs hvs s
    cases htakes with | @cons _ _ _ _ t _ h hagrees hrest =>
    cases hvs with | @cons v _ vs _ hfirst hvs =>
    obtain ⟨rfl, offset, hoffset⟩ := hfirst
    have hk := hE.known (h.known hE.sound)
    have hsize := sizeOf_of_agrees hagrees hk
    rw [argumentsCode]
    refine .lift hsize (.bind (exprCode_delivers hE argument h s).run fun value s₁ hvalue =>
      .lift hoffset (.bind (ih hrest hvs s₁) fun stores s₂ hstores => .pure ⟨?_, .cons ?_ ?_⟩))
    · exact keeps_store hvalue.2 hstores.1
    · refine ⟨[], value, raise (slot (sizeIn env.layouts t)) ++ stores, _, offset, s, s₁, ?_,
        hvalue.1, ⟨t, h.ty_eq, sizeOf_of_known hk⟩, hsize, hoffset, fun C a _ => .nil, hvalue.2,
        fun C a ha => .append (.raise _ _) (hstores.1 C a ha)⟩
      simp [storeBelow]
    · refine hstores.2.imp fun w e hw => hw.after fun C a ha => ?_
      exact .append (hvalue.2 C a ha) (storeBelow_piece _ _ a)

end Stores

section Calls

variable {layouts : Registry} {env : Env} {D : Decls} {f : Function} {callee : Routine}

theorem callCode_function (hE : env.Fits D) {mangled : String} {result : Ty} {parameters : List Ty}
    (hroutine : env.routine mangled = .ok callee)
    (hfits : RoutineFits env.layouts callee result parameters) {arguments : List Expr}
    (htakes : Takes D parameters false arguments) (s : Supply) :
    Delivers (callCode env ⟨mangled, .function⟩ result arguments) s fun code s' =>
      ∃ stored after, code = lower callee.frame.resultSlot ++ lower callee.frame.arguments ++ stored
          ++ .call (functionSymbol mangled) :: after ∧
        Keeps s.labels s'.labels stored ∧
        List.Forall₂ (Stores env s.labels s'.labels stored) callee.function.stack.parameters
          arguments ∧
        ∀ C a, a.Aligned → Piece C s'.labels s'.labels (a.lower callee.frame.arguments)
          (.call (functionSymbol mangled) :: after) a := by
  unfold callCode callWith
  refine .lift hroutine (.bind (argumentsCode_stores hE htakes hfits.parameters s)
    fun stored s' hstored => .pure ⟨stored, raise callee.frame.arguments ++
      if result.isPointer || result.isArray then [.call Collector.adoptSymbol] else [],
      by simp, hstored.1, hstored.2, fun C a ha => ?_⟩)
  have hcall : Piece C s'.labels s'.labels (a.lower callee.frame.arguments)
      [.call (functionSymbol mangled)] (a.lower callee.frame.arguments) :=
    .call (ha.lower hfits.arguments) (functionSymbol_ne mangled).1 (functionSymbol_ne mangled).2
  refine .append hcall (.append (.raise _ _) ?_)
  split
  · exact .call ha (by decide) (by decide)
  · exact .nil

/-- Whatever is stored for a call of a function lies where the function looks for it. -/
theorem callCode_agrees (hE : env.Fits D) (callee : Env) {mangled : String} {result : Ty}
    {parameters : List Ty} (hroutine : env.routine mangled = .ok callee.current)
    (hname : callee.current.name = mangled) (hlayouts : callee.layouts = env.layouts)
    (hfits : RoutineFits env.layouts callee.current result parameters)
    (hresult : env.sizeOf result = .ok callee.current.frame.result)
    (hnames : ((callee.current.function.stack.parameters ++
      callee.current.function.stack.locals).map (·.mangled)).Nodup)
    {arguments : List Expr} (htakes : Takes D parameters false arguments) (s : Supply) :
    Delivers (callCode env ⟨mangled, .function⟩ result arguments) s fun code _ =>
      ∃ before below, Agrees env callee result arguments code before below := by
  refine (callCode_function hE hroutine hfits htakes s).mono ?_
  rintro code s' ⟨stored, after, rfl, hkeeps, hstored, hcall⟩
  have hslot : 16 ∣ callee.current.frame.resultSlot := dvd_alignUp (by omega)
  have hbelow : 16 ∣ callee.current.frame.resultSlot + callee.current.frame.arguments :=
    Nat.dvd_add hslot hfits.arguments
  -- The areas that the caller reserves.
  have hreserve : Pushes s.labels s.labels
      (lower callee.current.frame.resultSlot ++ lower callee.current.frame.arguments)
      (callee.current.frame.resultSlot + callee.current.frame.arguments) := by
    intro C a ha
    rw [← Spot.lower_lower]
    exact .append (.lower _ _) (.lower _ _)
  have hbefore : Pushes s.labels s'.labels (lower callee.current.frame.resultSlot ++
      lower callee.current.frame.arguments ++ stored)
      (callee.current.frame.resultSlot + callee.current.frame.arguments) :=
    fun C a ha => .append (hreserve C a ha) (hkeeps C _ (ha.lower hbelow))
  have hbehind : ∀ (C : (Label → Spot) → Prop) (a : Spot), a.Aligned → Piece C s'.labels s'.labels
      (a.lower (callee.current.frame.resultSlot + callee.current.frame.arguments))
      (.call (functionSymbol mangled) :: after) (a.lower callee.current.frame.resultSlot) := by
    intro C a ha
    rw [← Spot.lower_lower]
    exact hcall C _ (ha.lower hslot)
  refine ⟨_, _, ⟨after, by rw [hname]⟩, lowersAt_of_pieces hbefore (hbehind _),
    lowersAt_length fun C a ha => .append (hbefore C a ha) (hbehind C a ha), hresult, ?_, ?_⟩
  · intro rsp rbp
    simp only [Stack.called_eq, Option.bind_some, Stack.place_frame, Option.map_some,
      Frame.resultAt, Option.some.injEq]
    push_cast
    omega
  · obtain ⟨hlength, hstored⟩ := List.forall₂_iff_zip.1 hstored
    refine List.forall₂_iff_zip.2 ⟨hlength, fun hmem => ?_⟩
    exact (hstored hmem).lands (List.of_mem_zip hmem).1 hnames hlayouts hbelow hreserve (hbehind _)

def Starts (P : Code → Prop) (code : Code) : Prop := ∃ first rest, code = first ++ rest ∧ P first

theorem Starts.append {P : Code → Prop} {code : Code} (h : Starts P code) (rest : Code) :
    Starts P (code ++ rest) := by
  obtain ⟨first, rest', rfl, hfirst⟩ := h
  exact ⟨first, rest' ++ rest, List.append_assoc _ _ _, hfirst⟩

variable {P : Code → Prop} {name : Located String} {result t : Ty} {parameters : List Ty}
  {variadic foreign : Bool} {binding : Binding} {arguments : List Expr} {rest : List Accessor}

theorem calledCode_starts (hE : env.Fits D) (hk : result.Known env.layouts)
    (hleads : Leads D result rest t)
    (hcall : ∀ s, Delivers (callCode env binding result arguments) s fun code _ => P code)
    (name : String) (span : Span) (s : Supply) :
    Delivers (calledCode env name binding (.call ⟨span, some result⟩ arguments :: rest)) s
      fun r _ => Starts P r.1 := by
  rw [calledCode]
  refine .lift rfl (.bind (hcall s) fun call s' hcall => .lift (sizeOf_of_known hk)
    (.bind (accessorsCode_delivers hE rest hleads hk name s') fun steps s'' _ => .pure ?_))
  exact ⟨call, pushAddress top ++ steps, List.append_assoc _ _ _, hcall⟩

theorem placeWith_starts (hE : env.Fits D)
    (hdecl : D.declares binding (.function result parameters variadic foreign))
    (hleads : Leads D result rest t)
    (hcall : ∀ s, Delivers (callCode env binding result arguments) s fun code _ => P code)
    (along : Ty → Gen Code) (span : Span) (s : Supply) :
    Delivers (placeWith env
      ⟨name, some (.function result parameters variadic foreign), some binding⟩ along fun binding =>
        calledCode env name.value binding (.call ⟨span, some result⟩ arguments :: rest)) s
      fun r _ => Starts P r.1 := by
  rw [placeWith_called hE hdecl]
  exact calledCode_starts hE (hE.known (hE.sound.result hdecl)) hleads hcall _ _ s

theorem exprCode_starts (hE : env.Fits D)
    (hdecl : D.declares binding (.function result parameters variadic foreign))
    (hleads : Leads D result rest t)
    (hcall : ∀ s, Delivers (callCode env binding result arguments) s fun code _ => P code)
    (span span' : Span) (s : Supply) :
    Delivers (exprCode env (.variable ⟨span, some t⟩
      ⟨name, some (.function result parameters variadic foreign), some binding⟩
      (.call ⟨span', some result⟩ arguments :: rest))) s fun code _ => Starts P code := by
  by_cases hrest : rest = []
  · subst hrest
    rw [exprCode]
    exact .lift rfl (.lift rfl (.lift rfl ((hcall s).mono fun code _ hcode =>
      ⟨code, [], (List.append_nil _).symm, hcode⟩)))
  · rw [exprCode_reference (by simp [hrest])]
    refine .lift rfl (.lift (placeTy_called hleads _ _ _) (.lift (sizeOf_of_known
      (hE.known (hleads.known hE.sound (hE.sound.result hdecl)))) ?_))
    refine .bind (placeWith_starts hE hdecl hleads hcall _ _ s) fun r _ hr => .pure ?_
    exact (((hr.append _).append _).append _).append _

end Calls

theorem resultCode_writes {env : Env} {D : Decls} (hE : env.Fits D) {value : Expr} {t : Ty}
    (h : HasType D value t) (hsize : env.sizeOf t = .ok env.current.frame.result) (s : Supply) :
    Delivers (resultCode env value) s fun code _ => ∃ first rest,
      code = first ++ copy (Address.frame env.current.frame.resultAt) top env.current.frame.result
        ++ rest ∧
      LowersAt code first.length (slot env.current.frame.result) := by
  have hresult : sizeIn env.layouts t = env.current.frame.result :=
    Except.ok.inj ((sizeOf_of_known (hE.known (h.known hE.sound))).symm.trans hsize)
  refine .lift (by rw [h.ty_eq]; rfl) (.lift hsize
    (.bind (exprCode_delivers hE value h s) fun first s' hfirst => .pure ?_))
  rw [hresult] at hfirst
  rw [List.append_assoc (first ++ _)]
  refine ⟨first, _, rfl, ?_⟩
  rw [List.append_assoc first]
  refine lowersAt_of_pieces hfirst fun a ha => (?_ : Piece _ s'.labels s'.labels _ _ a)
  refine .append (.plain (copy_plain _ _ _)) (.append (.raise a _) ?_)
  split
  · exact .append (.plain (fun i hi => by rw [List.mem_singleton.1 hi]; rfl) : Piece _ _ _ a
      [Instr.mov Register.rax (Address.frame env.current.frame.resultAt)] a)
      (.call ha (by decide) (by decide))
  · exact .nil

end Codegen

namespace Codegen

variable {env : Env} {D : Decls}

theorem refers_starts (hE : env.Fits D) {result : Ty} {inLoop : Bool} {st : Stmt}
    (hst : StmtOk D result inLoop st) {head : Head} {accessors : List Accessor}
    {g : Env → Gen Code} (hrefers : st.Refers head accessors g) {node : Node}
    {arguments : List Expr} (hcall : .call node arguments ∈ accessors) {P : Code → Prop}
    (hP : ∀ {binding result parameters variadic foreign}, head.binding = some binding →
      node.ty = some result → D.declares binding (.function result parameters variadic foreign) →
      Takes D parameters variadic arguments → ∀ s,
      Delivers (callCode env binding result arguments) s fun code _ => P code) (s : Supply) :
    Delivers (g env) s fun code _ => Starts P code := by
  cases hrefers with
  | @value _ other n hother hocc =>
    obtain ⟨u, hu⟩ := hst.expressions other hother
    obtain ⟨t, ht⟩ := HasType.occurs hocc hu
    cases ht with | reference h =>
    cases h with
    | value _ _ hleads => exact absurd hcall (Leads.call_notMem hleads _ _)
    | call hdecl htakes hleads =>
      rcases List.mem_cons.1 hcall with heq | hcall
      · cases heq
        exact exprCode_starts hE hdecl hleads (hP rfl rfl hdecl htakes) _ _ s
      · exact absurd hcall (Leads.call_notMem hleads _ _)
  | @address _ other n target hother hocc =>
    obtain ⟨u, hu⟩ := hst.expressions other hother
    obtain ⟨t, ht⟩ := HasType.occurs hocc hu
    cases ht with | addressOf _ hnone =>
    exact absurd hnone (by simpa [Place.containsCall] using ⟨_, hcall, rfl⟩)
  | @target span target value heq =>
    cases hst with | mut_ h _ _ _ =>
    rw [heq] at h
    cases h with
    | value _ _ hleads => exact absurd hcall (Leads.call_notMem hleads _ _)
    | call hdecl htakes hleads =>
      rcases List.mem_cons.1 hcall with heq | hcall
      · cases heq
        exact .bind (placeWith_starts hE hdecl hleads (hP rfl rfl hdecl htakes) _ _ s)
          fun r _ hr => .pure hr
      · exact absurd hcall (Leads.call_notMem hleads _ _)

end Codegen

section Accepted

variable {isFile : String → Bool} {platform : Platform} {path text : String} {layouts : Registry}
  {p : Program} {out : Codegen.Output}

theorem Accepted.grown (h : Accepted isFile platform path text layouts p out) : layouts.Grown := by
  rw [← h.laidOut]
  exact Registry.Grown.initial.answer (.records _)

theorem Accepted.framed (h : Accepted isFile platform path text layouts p out) {r : Routine}
    (hr : r ∈ out.routines) : (envOf platform layouts p out.routines r).Framed := by
  obtain ⟨f, hf, hfr⟩ := exists_of_forall₂ h.generates.frames.flip hr
  exact framed_of_frames h.grown hfr (h.programOk.functions f hf).distinct

theorem Accepted.called_aligned (h : Accepted isFile platform path text layouts p out)
    {start : Int} (hstart : start % 16 = 8) {i : Nat} {s : Stack}
    (hreached : Reached out.assembly.code start i s) {name : String}
    (hi : out.assembly.code[i]? = some (.symbol (functionSymbol name))) : s.rsp % 16 = 8 := by
  obtain ⟨labels, at_, hsteps⟩ := h.generates.states
  have hentry : at_ i = .relative .entry :=
    Instr.informs_entry (hsteps i _ hi) (functionSymbol_not_trap _)
  have hfits := hreached.fits hsteps hstart
  rw [hentry] at hfits
  obtain ⟨base, hbase, hrsp, -⟩ := hfits
  simp only [Spot.entry] at hrsp
  omega

theorem Accepted.calls_agree (h : Accepted isFile platform path text layouts p out) {r : Routine}
    (hr : r ∈ out.routines) {st : Stmt} {depth : Nat} {inLoop : Bool}
    (hocc : st.Occurs depth inLoop r.function.body.statements (bodyDepth r.function) false)
    {head : Head} {accessors : List Accessor} {g : Codegen.Env → Gen Code}
    (hrefers : st.Refers head accessors g) {node : Node} {arguments : List Expr}
    (hcall : .call node arguments ∈ accessors) {mangled : String}
    (hbinding : head.binding = some ⟨mangled, .function⟩) (s : Supply) :
    Gives (g (envOf platform layouts p out.routines r)) s fun code _ =>
      Starts (fun code => ∃ callee ∈ out.routines, ∃ result before below, callee.name = mangled ∧
        node.ty = some result ∧ Agrees (envOf platform layouts p out.routines r)
          (envOf platform layouts p out.routines callee) result arguments code before below)
        code := by
  have hp := h.programOk
  obtain ⟨f, -, -, hE, hbody⟩ := h.source hr
  refine (refers_starts hE (StmtsOk.occurs hocc hbody).1 hrefers hcall ?_ s).gives
    (h.refers_counts hr hocc hrefers s)
  intro binding result parameters variadic foreign hbinding' hresultTy hdecl htakes s
  rw [hbinding] at hbinding'
  cases hbinding'
  obtain ⟨g, hg, rfl, hsignature⟩ := hdecl
  have hgok := hp.functions g hg
  obtain ⟨callee, hcallee, hframes⟩ := exists_of_forall₂ h.generates.frames hg
  have hnames : (out.routines.map Routine.name).Nodup := by
    rw [map_name_of_frames h.generates.frames]
    exact hp.distinct
  have hfind := find?_eq_of_nodup hnames hcallee
  rw [hframes.name] at hfind
  have hshape : g.signature = .function g.result.value
    (g.parameters.map (·.ty.value)) false false :=
    withModifier_function hgok.result _ _ _
  rw [hshape] at hsignature
  cases hsignature
  have hroutine : (envOf platform layouts p out.routines r).routine g.name.value = .ok callee := by
    simp [envOf, Codegen.Env.routine, hfind]
  have hstack : ((callee.function.stack.parameters ++ callee.function.stack.locals).map
      (·.mangled)).Nodup := by
    obtain ⟨_, hparameters, -⟩ := hframes.parameters
    obtain ⟨_, hlocals, -⟩ := hframes.locals
    rw [List.map_append, hparameters.map_mangled, hlocals.map_mangled, ← List.map_append]
    exact hgok.distinct
  have hresult : (envOf platform layouts p out.routines r).sizeOf g.result.value =
      .ok callee.frame.result := by
    rw [sizeOf_of_known (show g.result.value.Known layouts from hgok.result)]
    simp [sizeIn, envOf, hframes.result]
  refine (callCode_agrees hE (envOf platform layouts p out.routines callee) hroutine hframes.name
    rfl (routineFits_of_frames hframes hgok) hresult hstack htakes s).mono ?_
  rintro code s' ⟨before, below, hagrees⟩
  exact ⟨callee, hcallee, _, before, below, hframes.name, hresultTy, hagrees⟩

theorem Accepted.return_writes (h : Accepted isFile platform path text layouts p out) {r : Routine}
    (hr : r ∈ out.routines) {st : Stmt} {depth : Nat} {inLoop : Bool}
    (hocc : st.Occurs depth inLoop r.function.body.statements (bodyDepth r.function) false)
    {span : Span} {value : Expr} (hst : st = .return_ span (some value)) (exit : Label)
    (loop : Option Loop) (s : Supply) :
    Gives (stmtCode (envOf platform layouts p out.routines r) exit depth loop st) s fun code _ =>
      Starts (fun code => ∃ first rest,
        code = first ++ copy (Address.frame r.frame.resultAt) top r.frame.result ++ rest ∧
        LowersAt code first.length r.frame.resultSlot) code := by
  obtain ⟨f, -, hfr, hE, hbody⟩ := h.source hr
  obtain ⟨hok, hdepth⟩ := StmtsOk.occurs hocc hbody
  subst hst
  cases hok with | @return_ _ _ _ t _ hvalue hagrees =>
  have hk : t.Known layouts := hE.known (hvalue.known hE.sound)
  have hsize : (envOf platform layouts p out.routines r).sizeOf t = .ok r.frame.result := by
    have hresult : sizeIn layouts t = r.frame.result := by
      rw [← sizeIn_of_agrees hagrees hk]
      simp [sizeIn, hfr.result]
    rw [← hresult]
    exact sizeOf_of_known hk
  obtain ⟨leave, hleave, -⟩ := leaveFrames_piece hdepth
  refine Delivers.gives ?_ (h.stmtCode_counts hr hocc exit loop s)
  rw [stmtCode, returnCode]
  exact .bind (resultCode_writes hE hvalue hsize s) fun code s' hcode => .lift hleave
    (.pure ⟨code, leave ++ [Instr.jump exit], List.append_assoc _ _ _, hcode⟩)

/-- Caller and callee agree on every frame. The areas of a frame and the variables in them share no
byte and are aligned, whatever the function is called from. A call stores each argument where the
callee has its parameter, and keeps the slot in which the callee leaves its result. -/
theorem frames_agree (h : Accepted isFile platform path text layouts p out) :
    ∀ r ∈ out.routines, (envOf platform layouts p out.routines r).Framed ∧
      (∀ start : Int, start % 16 = 8 → ∀ i s, Reached out.assembly.code start i s →
        out.assembly.code[i]? = some (.symbol (functionSymbol r.name)) →
        ∃ inside, stackAfter Collector.prologue s = some inside ∧
        ∀ v ∈ r.function.stack.parameters ++ r.function.stack.locals, ∃ l address here,
          layouts.layoutOf v.ty = .ok l ∧
          (envOf platform layouts p out.routines r).variableAddress v.mangled = .ok address ∧
          inside.place address = some here ∧ (l.alignment : Int) ∣ here) ∧
      ∀ st depth inLoop,
        st.Occurs depth inLoop r.function.body.statements (bodyDepth r.function) false →
        (∀ head accessors g, st.Refers head accessors g → ∀ node arguments,
          .call node arguments ∈ accessors → ∀ mangled,
          head.binding = some ⟨mangled, .function⟩ → ∀ s,
          Gives (g (envOf platform layouts p out.routines r)) s fun code _ =>
            Starts (fun code => ∃ callee ∈ out.routines, ∃ result before below,
              callee.name = mangled ∧ node.ty = some result ∧
              Agrees (envOf platform layouts p out.routines r)
                (envOf platform layouts p out.routines callee) result arguments code before below)
              code) ∧
        ∀ span value, st = .return_ span (some value) → ∀ exit loop s,
          Gives (stmtCode (envOf platform layouts p out.routines r) exit depth loop st) s
            fun code _ => Starts (fun code => ∃ first rest,
              code = first ++ copy (Address.frame r.frame.resultAt) top r.frame.result ++ rest ∧
              LowersAt code first.length r.frame.resultSlot) code := by
  intro r hr
  have hframed := h.framed hr
  refine ⟨hframed, fun start hstart i s hreached hi => ?_, fun st depth inLoop hocc => ⟨?_, ?_⟩⟩
  · have haligned := h.called_aligned hstart hreached hi
    obtain ⟨inside, hinside⟩ : ∃ inside, inside = (⟨s.rsp - 8, some (s.rsp - 8)⟩ : Stack) :=
      ⟨_, rfl⟩
    refine ⟨inside, by simpa [lower, hinside] using stackAfter_enter 0 s, fun v hv => ?_⟩
    obtain ⟨e, l, hoccupies, hl, -, hstart, hdvd⟩ : ∃ e l,
        (envOf platform layouts p out.routines r).Occupies v e ∧ layouts.layoutOf v.ty = .ok l ∧
        True ∧ (l.alignment : Int) ∣ e.start ∧ l.alignment ∣ 16 := by
      rcases List.mem_append.1 hv with hv | hv
      · obtain ⟨e, l, hoccupies, hl, -, hrest⟩ := hframed.parameters.inside v hv
        exact ⟨e, l, hoccupies, hl, trivial, hrest⟩
      · obtain ⟨e, l, hoccupies, hl, -, hrest⟩ := hframed.locals.inside v hv
        exact ⟨e, l, hoccupies, hl, trivial, hrest⟩
    refine ⟨l, _, s.rsp - 8 + e.start, hl, hoccupies.1, by simp [hinside], ?_⟩
    have hbase : (l.alignment : Int) ∣ s.rsp - 8 :=
      Int.dvd_trans (Int.natCast_dvd_natCast.2 hdvd) (by omega)
    exact Int.dvd_add hbase hstart
  · intro head accessors g hrefers node arguments hcall mangled hbinding s
    exact h.calls_agree hr hocc hrefers hcall hbinding s
  · intro span value hst exit loop s
    exact h.return_writes hr hocc hst exit loop s

/-- Arguments of different sizes. -/
def callingText : String :=
  "fn pick(int a, byte b) int { ret a } fn main() int { ret pick(1, 2 -> byte) }"

/-- The call that a statement returns the result of, with the number of its arguments. -/
def Stmt.returnedCall : Stmt → Option (Binding × Nat)
  | .return_ _ (some (.variable _ head [.call _ arguments])) =>
    head.binding.map (·, arguments.length)
  | _ => none

theorem callingText_passes :
    passes (fun _ => false) (Compilation.baseDirectory "main.bz") "main.bz"
      callingText (fun p _ =>
        p.functions.any fun f => f.body.statements.any fun st =>
          st.returnedCall = some (⟨"pick", .function⟩, 2)) = true := by
  have htext : callingText.toList = _ := String.toList_ofList
  rw [passes, Parse.source, Token.lex, htext]
  decide +kernel

theorem Stmt.eq_of_returnedCall {st : Stmt} {binding : Binding} {n : Nat}
    (h : st.returnedCall = some (binding, n)) : ∃ span node head call arguments,
      st = .return_ span (some (.variable node head [.call call arguments])) ∧
      head.binding = some binding ∧ arguments.length = n := by
  unfold returnedCall at h
  split at h
  · rename_i span node head call arguments
    obtain ⟨b, hb, heq⟩ := Option.map_eq_some_iff.1 h
    cases heq
    exact ⟨span, node, head, call, arguments, rfl, hb, rfl⟩
  · cases h

theorem frames_agree_pick : ∃ layouts p out,
    Accepted (fun _ => false) .linux "main.bz" callingText layouts p out ∧
    ∃ r ∈ out.routines, (envOf .linux layouts p out.routines r).Framed ∧
    ∃ e, ∀ s, Gives (exprCode (envOf .linux layouts p out.routines r) e) s fun code _ =>
      Starts (fun code => ∃ callee ∈ out.routines, ∃ result before below, callee.name = "pick" ∧
        ∃ arguments, arguments.length = 2 ∧ Agrees (envOf .linux layouts p out.routines r)
          (envOf .linux layouts p out.routines callee) result arguments code before below)
        code := by
  obtain ⟨_, _, out, h, hcall⟩ := accepted_of_passes callingText_passes (.inl rfl)
  obtain ⟨f, hf, hcall⟩ := List.any_eq_true.1 hcall
  obtain ⟨st, hst, hcall⟩ := List.any_eq_true.1 hcall
  obtain ⟨span, node, head, call, arguments, rfl, hbinding, hlength⟩ :=
    Stmt.eq_of_returnedCall (by simpa using hcall)
  obtain ⟨r, hr, hframes⟩ := exists_of_forall₂ h.generates.frames hf
  obtain ⟨hframed, -, hstatements⟩ := frames_agree h r hr
  have hmem : Stmt.return_ span (some (.variable node head [.call call arguments])) ∈
      r.function.body.statements := by
    rw [hframes.function]
    exact hst
  obtain ⟨hcalls, -⟩ := hstatements _ _ _ (.here hmem)
  refine ⟨_, _, out, h, r, hr, hframed, .variable node head [.call call arguments], fun s => ?_⟩
  refine (hcalls head _ _ (.value (by simp [Stmt.expressions]) .here) call arguments (by simp)
    "pick" hbinding s).mono ?_
  rintro code s' ⟨first, rest, rfl, callee, hcallee, result, before, below, hname, -, hagrees⟩
  exact ⟨first, rest, rfl, callee, hcallee, result, before, below, hname, arguments, hlength,
    hagrees⟩

end Accepted

end RegionCompiler
