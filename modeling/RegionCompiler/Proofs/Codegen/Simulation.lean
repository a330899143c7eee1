import RegionCompiler.Proofs.Codegen.Control
import RegionCompiler.Proofs.Codegen.Return

/-! Functions return what they mean. A call sets up a frame, runs the statements of the function in
it, closes what it has opened, and leaves the result where the caller looks for it. Calls nest as
deep as the meaning of the program needs, and the stack must have room for them. -/
namespace RegionCompiler

open Machine Codegen Typing Semantics

namespace Semantics

/-- How much of the stack a call takes, if calls nest no deeper than the given number: the arguments
and the linkage, the locals, and below them the values of the statements or the routines of the
collector. -/
def stackOfCall (routines : List Routine) (reserve : Nat) : Nat → String → Nat
  | 0, _ => 0
  | depth + 1, name =>
    (routines.find? (·.name == name)).elim 0 fun r =>
      r.frame.arguments + 16 + r.frame.locals +
        max (reserve + 80) (stackOfStmts
          (stackOfCall routines reserve depth) r.function.body.statements)

/-- How many frames of the collector are open at once, if calls nest no deeper than the given
number. -/
def framesOfCall (routines : List Routine) (depth : Nat) : Nat :=
  depth * (routines.map fun r => framesOfBlock r.function.body).foldr max 0

theorem framesOfCall_succ {routines : List Routine} {r : Routine} (hr : r ∈ routines)
    (depth : Nat) : framesOfBlock r.function.body + framesOfCall routines depth ≤
      framesOfCall routines (depth + 1) := by
  have hle : framesOfBlock r.function.body ≤
      (routines.map fun r => framesOfBlock r.function.body).foldr max 0 :=
    List.le_max_of_le' 0 (List.mem_map_of_mem hr) (Nat.le_refl _)
  rw [framesOfCall, framesOfCall, Nat.succ_mul, Nat.add_comm]
  exact Nat.add_le_add_left hle _

theorem framesOfBlock_body (f : Function) :
    framesOfBlock f.body = bodyDepth f + framesOfStmts f.body.statements := by
  rw [bodyDepth]
  cases f.body
  exact Nat.add_comm _ _

section Parameters

variable {vs us : List StackVariable} {xs : List Int} {store : Store} {name : String} {x : Int}

theorem mem_zip_of_bindParameters (h : bindParameters vs xs = some store)
    (hx : store name = some x) : ∃ v, (v, x) ∈ vs.zip xs ∧ v.mangled = name := by
  induction vs generalizing xs store with
  | nil =>
    cases xs with
    | nil =>
      cases h
      cases hx
    | cons => cases h
  | cons v vs ih =>
    cases xs with
    | nil => cases h
    | cons y ys =>
      obtain ⟨others, hothers, rfl⟩ := Option.map_eq_some_iff.1 h
      by_cases hname : name = v.mangled
      · rw [Store.set, if_pos hname] at hx
        cases hx
        exact ⟨v, List.mem_cons_self, hname.symm⟩
      · rw [Store.set, if_neg hname] at hx
        obtain ⟨u, hu, rfl⟩ := ih hothers hx
        exact ⟨u, List.mem_cons_of_mem _ hu, rfl⟩

/-- Places do not matter to the meaning of parameters. -/
theorem bindParameters_congr (h : vs.map (·.mangled) = us.map (·.mangled)) (xs : List Int) :
    bindParameters vs xs = bindParameters us xs := by
  induction vs generalizing us xs with
  | nil =>
    cases us with
    | nil => rfl
    | cons => cases h
  | cons v vs ih =>
    cases us with
    | nil => cases h
    | cons u us =>
      obtain ⟨hfirst, hrest⟩ := List.cons.inj h
      dsimp only at hfirst
      cases xs with
      | nil => rfl
      | cons x xs => rw [bindParameters, bindParameters, ih hrest, hfirst]

end Parameters

end Semantics

namespace Codegen

namespace Activation

section Frames

variable {a : Activation} {exit : Label} {store : Store} {xs : List Int} {s t : State} {i : Nat}
  {v : Int} {body : Code}

theorem start_of_parameter {u : StackVariable} {e : Extent}
    (hu : u ∈ a.env.current.function.stack.parameters) (he : a.env.Occupies u e) :
    ∃ offset, placedAt u = .ok offset ∧ e.start = 16 + offset := by
  obtain ⟨haddress, -⟩ := he
  have hnames := a.prepared.distinct
  rw [List.map_append] at hnames
  have hfind := find?_eq_of_nodup (List.nodup_append.1 hnames).1 hu
  cases hoffset : u.offset with
  | none =>
    simp [Env.variableAddress, hfind, placedAt, hoffset, bind, Except.bind] at haddress
  | some offset =>
    refine ⟨offset, by simp [placedAt, hoffset], ?_⟩
    rw [variableAddress_parameter a.prepared.distinct hu hoffset] at haddress
    simpa [Address.frame, Address.at_, Frame.argumentAt, eq_comm] using haddress

theorem argumentsFit (a : Activation) : Process.ArgumentsFit a.env.current := by
  intro v hv offset k hoffset hty
  obtain ⟨e, -, he, -, ⟨-, hstop⟩, -⟩ := a.prepared.framed.parameters.inside v hv
  have hsize := size_of_occupies he hty
  obtain ⟨offset', hoffset', hstart⟩ := start_of_parameter hv he
  obtain rfl : offset = offset' := Except.ok.inj (hoffset.symm.trans hoffset')
  simp only [Frame.extent, Extent.stop] at hstop
  omega

theorem stored_of_passes
    (hpasses : a.process.Passes (a.place + 16) a.env.current.function.stack.parameters xs s.memory)
    (hstore : bindParameters a.env.current.function.stack.parameters xs = some store) :
    a.Stored store s := by
  intro v hv e k x he hty hx
  obtain ⟨u, hzip, hname⟩ := mem_zip_of_bindParameters hstore hx
  have hparameter := (List.of_mem_zip hzip).1
  obtain rfl : u = v := List.inj_on_of_nodup_map a.prepared.distinct
    (List.mem_append_left a.env.current.function.stack.locals hparameter) hv hname
  obtain ⟨offset, hoffset, hstart⟩ := start_of_parameter hparameter he
  rw [hstart, ← Int.add_assoc]
  exact (List.forall₂_iff_zip.1 hpasses).2 hzip offset k hoffset hty

theorem word_of_stays (h : a.Stays s t) :
    t.memory.word (a.process.at_ a.place) = s.memory.word (a.process.at_ a.place) := by
  refine Memory.word_congr fun n hn => h _ ?_
  have hhigh := a.place_lt
  have hlow := a.low_le
  have hbottom := a.bottom_le
  rw [Process.at_add]
  refine Process.beyond_at (by omega) (by omega) fun q hq => ?_
  have hresult := a.high
  unfold Own at hq
  omega

theorem entry_arrives
    (hinvoked : a.process.Invoked a.env.current (a.place + 8) a.regions xs a.origin)
    (hstore : bindParameters a.env.current.function.stack.parameters xs = some store)
    (hsits : Sits a.process.image.code i (arrival a.env.current)) :
    a.process.image.Arrives i a.origin fun j t =>
      j = i + (arrival a.env.current).length ∧ a.Here 0 store t ∧
        t.memory.word (a.process.at_ a.place) = a.origin.registers .rbp ∧
        ∀ x, a.process.Beyond (· < a.place + 8) x → t.memory x = a.origin.memory x := by
  obtain ⟨hrsp, -, hhigh, hholds, hpasses⟩ := hinvoked
  have hlow := a.low_le
  have hbottom := a.bottom_le
  have hplace : a.place + 8 - 8 = a.place := by omega
  obtain ⟨hmemory, hholds, hbeyond, hspares⟩ :=
    Process.push_tended hholds hrsp (by omega) (by omega) (a.origin.registers .rbp)
  rw [hplace] at hmemory
  generalize he : a.origin.push (a.origin.registers .rbp) = e at *
  have htop : e.registers .rsp = a.process.at_ a.place := by
    have hback : a.place + 8 + -8 = a.place := by omega
    simp [← he, State.push, hrsp, hback]
  have hlinked : straight a.process.image.symbols
      (.symbol (functionSymbol a.env.current.name) :: Collector.prologue) a.origin =
      some (e.set .rbp (a.process.at_ a.place)) := by
    simp [Collector.prologue, he, htop]
  obtain ⟨f, hlowered⟩ := straight_lower a.process.image.symbols
    (e.set .rbp (a.process.at_ a.place))
    a.env.current.frame.locals
  refine .straight hsits (by rw [arrival, straight_append, hlinked]; exact hlowered) (.here ?_)
  refine ⟨rfl, ⟨⟨?_, rfl, ?_, hspares.congr rfl rfl, Nat.zero_le _⟩, ?_⟩, ?_, hbeyond⟩
  · have hbase : (a.area 0).base = a.process.at_ (a.place + -a.env.current.frame.locals) := by
      rw [← Int.sub_eq_add_neg]
      rfl
    simpa [htop] using hbase.symm
  · simpa using hholds
  · have hargument : a.place + 8 + 8 = a.place + 16 := by omega
    rw [hargument] at hpasses
    refine stored_of_passes (hpasses.congr a.argumentsFit fun q hq hq' => hbeyond _ ?_) hstore
    exact Process.beyond_at (by omega) (by omega) fun j hj => ⟨by omega, by omega⟩
  · change e.memory.word (a.process.at_ a.place) = _
    rw [hmemory, Memory.word_put]

theorem departure_reaches
    (hsits : Sits a.process.image.code i (departure a.env.current exit))
    (hat : (a.area (bodyDepth a.env.current.function)).At 0 s) (hreturned : a.Returned v s) :
    a.Reaches i s fun j t => a.process.image.code[j]? = some .ret ∧
      t.registers .rsp = a.process.at_ (a.place + 8) ∧
      t.registers .rbp = s.memory.word (a.process.at_ a.place) ∧ a.Returned v t ∧
      a.process.Holds t.memory t.blocks a.regions ∧ a.process.Spares a.origin t := by
  refine .pass (label_arrives hsits.left.left.head s) ?_
  refine (leaves_reach (n := 0) hsits.left.right (by rwa [Nat.zero_add])).bind ?_
  rintro _ t ⟨rfl, hat, hbeyond⟩
  have hlinked : t.memory.word (a.process.at_ a.place) = s.memory.word (a.process.at_ a.place) :=
    word_of_stays (stays_of_beyond hbeyond)
  have hbase : t.registers .rbp = a.process.at_ a.place := hat.rbp
  obtain ⟨u, hrun, hrsp, hrbp, hmemory, hblocks⟩ : ∃ u,
      straight a.process.image.symbols (Collector.epilogue.take 2) t = some u ∧
      u.registers .rsp = a.process.at_ (a.place + 8) ∧
      u.registers .rbp = s.memory.word (a.process.at_ a.place) ∧ u.memory = t.memory ∧
      u.blocks = t.blocks := by
    simp [Collector.epilogue, State.drop, State.peek, hbase, hlinked]
  have hepilogue : Sits a.process.image.code (i + 1 + bodyDepth a.env.current.function)
      Collector.epilogue := hsits.right.cast (by simp; omega)
  refine .of_arrives (.straight (hepilogue.take 2) hrun (.here ⟨stays_of_memory hmemory, ?_⟩))
  obtain ⟨hholds, hspares, -⟩ := hat.good
  refine ⟨hepilogue.tail.tail.head, hrsp, hrbp, ?_, ?_, ?_⟩
  · refine (hreturned.congr hbeyond).congr fun x _ => by rw [hmemory]
  · rw [hmemory, hblocks]
    simpa using hholds
  · exact hspares.congr hmemory hblocks

theorem inner_reaches {bytes : Nat} {meaning : Store → Option (Semantics.Outcome × Store)}
    {store' : Store}
    (hbody : a.Performs exit (bodyDepth a.env.current.function) none meaning bytes body)
    (hsits : Sits a.process.image.code i (inner a.env.current exit body)) (hhere : a.Here 0 store s)
    (hresult : meaning store = some (.returned v, store'))
    (hroom : a.process.low + bytes ≤ a.bottom)
    (hnesting : bodyDepth a.env.current.function ≤ a.nesting) :
    a.Reaches i s fun j t => a.process.image.code[j]? = some .ret ∧
      t.registers .rsp = a.process.at_ (a.place + 8) ∧
      t.registers .rbp = s.memory.word (a.process.at_ a.place) ∧ a.Returned v t ∧
      a.process.Holds t.memory t.blocks a.regions ∧ a.process.Spares a.origin t := by
  have hexit := positionOf_eq a.process.distinct hsits.right.left.left.head rfl
  refine Image.Arrives.bind (enters_reach hsits.left.left hhere (by omega)) ?_
  rintro _ t (hquits | ⟨hstays, rfl, hhere⟩)
  · exact .here (.inl hquits)
  rw [Nat.zero_add] at hhere
  refine Image.Arrives.bind (hbody ⟨⟨_, hexit⟩, nofun, nofun⟩
    (hsits.left.right.cast (by simp)) hhere
    hresult hroom) ?_
  rintro j u (hquits | ⟨hstays', hj, hat, hreturned⟩)
  · exact .here (.inl hquits)
  obtain rfl := Option.some.inj (hj.symm.trans hexit)
  refine Image.Arrives.mono (departure_reaches hsits.right hat hreturned) fun j x => Or.imp_right ?_
  rintro ⟨hstays'', hret, hrsp, hrbp, hx⟩
  have hall := hstays.trans hstays'
  rw [word_of_stays hall] at hrbp
  exact ⟨hall.trans hstays'', hret, hrsp, hrbp, hx⟩

theorem completes {bytes : Nat} {meaning : Store → Option (Semantics.Outcome × Store)}
    {store' : Store}
    (hbody : a.Performs exit (bodyDepth a.env.current.function) none meaning bytes body)
    (hsits : Sits a.process.image.code i (arrival a.env.current ++ inner a.env.current exit body))
    (hinvoked : a.process.Invoked a.env.current (a.place + 8) a.regions xs a.origin)
    (hstore : bindParameters a.env.current.function.stack.parameters xs = some store)
    (hresult : meaning store = some (.returned v, store'))
    (hroom : a.process.low + bytes ≤ a.bottom)
    (hnesting : bodyDepth a.env.current.function ≤ a.nesting) :
    a.process.image.Arrives i a.origin fun j t => a.Exhausted j t ∨
      a.process.Completed a.env.current (a.place + 8) a.regions v a.origin j t := by
  refine (entry_arrives hinvoked hstore hsits.left).bind ?_
  rintro _ s ⟨rfl, hhere, hlinked, hbeyond⟩
  refine Image.Arrives.mono (inner_reaches hbody hsits.right hhere hresult hroom hnesting)
    fun j t => Or.imp_right ?_
  rintro ⟨hstays, hret, hrsp, hrbp, ⟨k, hty, hholds⟩, hregions, hspares⟩
  refine ⟨hret, hrsp.trans hinvoked.rsp.symm, hrbp.trans hlinked, ⟨k, hty, ?_⟩, fun x hx => ?_,
    hregions, hspares⟩
  · have hplace : a.place + a.env.current.frame.resultAt =
        a.place + 8 + 8 + a.env.current.frame.arguments := by
      rw [Frame.resultAt]
      omega
    rwa [hplace] at hholds
  · refine (hstays x (hx.mono fun q hq => ?_)).trans (hbeyond x (hx.mono fun q hq => .inl hq))
    simp only [Own, Frame.resultAt] at hq
    unfold Process.Writable
    omega

end Frames

end Activation

end Codegen

section Accepted

variable {isFile : String → Bool} {platform : Platform} {path text : String} {layouts : Registry}
  {p : Program} {out : Codegen.Output} {r : Routine}

theorem Accepted.prepared (h : Accepted isFile platform path text layouts p out)
    (hr : r ∈ out.routines) :
    (envOf platform layouts p out.routines r).Prepared (declsOf layouts p r.function.stack) := by
  obtain ⟨f, hf, hframes, -, -⟩ := h.source hr
  constructor
  case fits => exact h.fitsFrame hr
  case framed => exact h.framed hr
  case result =>
    change r.frame.result = sizeIn layouts r.function.result.value
    rw [hframes.function, sizeIn, hframes.result]
    rfl
  case distinct => exact h.distinctVariables hr
  case onStack =>
    intro mangled kind t hkind
    cases kind <;> first | exact Iff.rfl | cases hkind
  case callee =>
    rintro mangled t ⟨g, hg, rfl, rfl⟩
    have hgok := h.programOk.functions g hg
    obtain ⟨r', hr', hframes'⟩ := exists_of_forall₂ h.generates.frames hg
    have hnames : (out.routines.map Routine.name).Nodup := by
      rw [map_name_of_frames h.generates.frames]
      exact h.programOk.distinct
    have hresult : r'.function.result = g.result := by rw [hframes'.function]
    obtain ⟨stop, hplaced, harguments⟩ := hframes'.parameters
    refine ⟨r', hr', hframes'.name, ?_, _, ?_, hresult ▸ routineFits_of_frames hframes' hgok, _,
      stop, hplaced, harguments ▸ le_alignUp stop 16⟩
    · have hfind := find?_eq_of_nodup hnames hr'
      rw [hframes'.name] at hfind
      simp [Env.routine, envOf, hfind]
    · rw [hresult]
      exact withModifier_function hgok.result _ _ _

/-- A function of the program that was called. -/
def Accepted.activation (h : Accepted isFile platform path text layouts p out)
    (hr : r ∈ out.routines) {w : Process} {place : Int} {c : Collector.Regions} {xs : List Int}
    {s : State} (hinvoked : w.Invoked r (place + 8) c xs s) (call : String → List Int → Option Int)
    (room : String → Nat) (frames : Nat) (hlow : w.low + w.reserve + 80 ≤ place - r.frame.locals) :
    Activation where
  process := w
  env := envOf platform layouts p out.routines r
  decls := declsOf layouts p r.function.stack
  prepared := h.prepared hr
  origin := s
  place := place
  regions := c
  call := call
  room := room
  nesting := framesOfBlock r.function.body
  frames := frames
  aligned := by
    have haligned := hinvoked.aligned
    omega
  low := hlow
  high := by
    have hhigh := hinvoked.high
    change place + (16 + r.frame.arguments) + r.frame.resultSlot ≤ w.high
    omega

theorem Accepted.stackOfCall_succ (h : Accepted isFile platform path text layouts p out)
    (hr : r ∈ out.routines) (reserve depth : Nat) :
    stackOfCall out.routines reserve (depth + 1) r.name =
      r.frame.arguments + 16 + r.frame.locals + max (reserve + 80)
        (stackOfStmts (stackOfCall out.routines reserve depth) r.function.body.statements) := by
  have hnames : (out.routines.map Routine.name).Nodup := by
    rw [map_name_of_frames h.generates.frames]
    exact h.programOk.distinct
  rw [stackOfCall, find?_eq_of_nodup hnames hr]
  rfl

theorem Accepted.callFunction_succ (h : Accepted isFile platform path text layouts p out)
    (hr : r ∈ out.routines) (fuel depth : Nat) (arguments : List Int) :
    callFunction p fuel (depth + 1) r.name arguments =
      (bindParameters r.function.stack.parameters arguments).bind fun store =>
        (execAll (callFunction p fuel depth) fuel r.function.body.statements store).bind fun
          | (.returned value, _) => some value
          | _ => none := by
  obtain ⟨f, hf, hframes, -, -⟩ := h.source hr
  obtain ⟨_, hplaced, -⟩ := hframes.parameters
  have hbody : r.function.body = f.body := by rw [hframes.function]
  rw [callFunction, hframes.name, find?_eq_of_nodup h.programOk.distinct hf, hbody,
    bindParameters_congr hplaced.map_mangled]
  rfl

/-- Functions of a program return what they mean. The induction is on how deep calls nest. -/
theorem Accepted.answers (h : Accepted isFile platform path text layouts p out) {w : Process}
    (hcode : w.image.code = out.assembly.code) (fuel depth : Nat) :
    w.Answers out.routines (callFunction p fuel depth) (stackOfCall out.routines w.reserve depth)
      (framesOfCall out.routines depth) := by
  induction depth with
  | zero =>
    intro r hr arguments v hv
    cases hv
  | succ depth ih =>
    intro r hr arguments v hv
    obtain ⟨f, hf, hframes, -, hbody⟩ := h.source hr
    rw [← hframes.declsOf] at hbody
    have hresult : f.result.value = r.function.result.value := by rw [hframes.function]
    rw [hresult] at hbody
    have hneed := h.stackOfCall_succ hr w.reserve depth
    rw [h.callFunction_succ hr fuel depth] at hv
    simp only [Option.bind_eq_some_iff] at hv
    obtain ⟨store, hstore, ⟨outcome, store'⟩, hexec, hv⟩ := hv
    cases outcome with
    | normal | broke | continued => cases hv
    | returned =>
    cases hv
    refine ⟨by omega, fun {k c s} hinvoked hroom => ?_⟩
    obtain ⟨place, rfl⟩ : ∃ place, k = place + 8 := ⟨k - 8, by omega⟩
    obtain ⟨exit, body, s₁, s₂, hrun, hinfix⟩ := h.surrounds hr
    obtain ⟨i, hsits⟩ := Sits.of_infix (hcode ▸ hinfix)
    let a := h.activation hr hinvoked (callFunction p fuel depth)
      (stackOfCall out.routines w.reserve depth) (framesOfCall out.routines depth) (by omega)
    have hnesting : a.nesting = bodyDepth r.function + framesOfStmts r.function.body.statements :=
      framesOfBlock_body r.function
    have hperforms := a.stmtsCode_performs ih fuel _ hbody s₁ hnesting.ge body s₂ hrun
    refine ⟨i, positionOf_eq w.distinct hsits.left.head rfl,
      (a.completes hperforms hsits hinvoked hstore hexec ?_
        (hnesting.symm ▸ Nat.le_add_right _ _)).mono
      fun j t => Or.imp_left fun hquits => Process.Exhausted.mono hquits
        (framesOfCall_succ hr depth)⟩
    change w.low + (stackOfStmts (stackOfCall out.routines w.reserve depth)
      r.function.body.statements : Nat) ≤ place - r.frame.locals
    omega

/-- Every function of an accepted program returns what it means, whenever its meaning is a value.
When it is called with its arguments in their places, it comes to its return with the registers of
the stack restored, the value in the place for its result, and all memory that is not its own as it
was; unless the collector runs out of memory, with no more frames open than such calls open. -/
theorem functions_simulate (h : Accepted isFile platform path text layouts p out) :
    ∀ r ∈ out.routines, ∀ w : Process, w.image.code = out.assembly.code →
      ∀ fuel depth arguments v, callFunction p fuel depth r.name arguments = some v →
      ∀ k c s, w.Invoked r k c arguments s →
        w.low + stackOfCall out.routines w.reserve depth r.name ≤ k + 8 + r.frame.arguments →
        ∃ start, positionOf w.image.code (.symbol (functionSymbol r.name)) = some start ∧
          w.image.Arrives start s fun j t =>
            w.Exhausted (framesOfCall out.routines depth) c s j t ∨ w.Completed r k c v s j t :=
  fun _ hr _ hcode fuel depth _ _ hv _ _ _ hinvoked hroom =>
    (h.answers hcode fuel depth _ hr hv).2 hinvoked hroom

open Loading

/-- The numbers of Fibonacci, by a loop that is left at once. -/
def fibonacciText : String :=
  "fn f(int n) int { while true { if n < 2 { break } ret f(n-1) + f(n-2) } ret n } fn main() { }"

/-- Whether a function takes one number in a small frame. -/
def Routine.takesNumber (r : Routine) : Bool :=
  decide (r.frame.arguments = 16) && decide (r.frame.resultSlot = 16) &&
    match r.function.stack.parameters with
    | [v] => decide (v.offset = some 0) && decide (Scalar.ofTy? v.ty = some .int)
    | _ => false

/-- A function has just been called with a number. No block is handed out yet. -/
def calledWith (x : Int) : State :=
  { initial with memory := initial.memory.put (displace stackBase 0x8010) (BitVec.ofInt 64 x) }

theorem calledWith_invoked {w : Process} {code : Code} {hcode : code.length < 2 ^ 63}
    (hw : w.toPlaces = places .linux code hcode) {r : Routine} (hr : r.takesNumber) {x : Int}
    (hx : Scalar.int.Range x) : w.Invoked r 0x8008 .empty [x] (calledWith x) := by
  obtain ⟨⟨harguments, hslot⟩, hparameters⟩ := by
    simpa only [Routine.takesNumber, Bool.and_eq_true, decide_eq_true_eq] using hr
  have hat (i : Int) : w.at_ i = displace stackBase i := by
    rw [Places.at_, hw]
    rfl
  obtain ⟨hlow, hhigh⟩ : w.low = 0 ∧ w.high = 0x10000 := by
    rw [hw]
    exact ⟨rfl, rfl⟩
  constructor
  case rsp =>
    rw [hat]
    rfl
  case aligned => decide
  case high => omega
  case holds =>
    have hholds := (holds_initial w).put_stack (i := 0x8010) (by omega) (by omega)
      (BitVec.ofInt 64 x)
    rwa [hat] at hholds
  case passes =>
    split at hparameters
    case h_2 => cases hparameters
    case h_1 v hv =>
    obtain ⟨hfirst, hty⟩ := by simpa only [Bool.and_eq_true, decide_eq_true_eq] using hparameters
    rw [hv]
    refine .cons (fun offset kind hoffset hkind => ?_) .nil
    obtain rfl : 0 = offset := Option.some.inj (hfirst.symm.trans (placedAt_eq_ok.1 hoffset))
    rw [hkind, Scalar.ofTy?_ty] at hty
    cases hty
    have hword : (calledWith x).memory.word (displace stackBase 0x8010) = BitVec.ofInt 64 x :=
      Memory.word_put _ _ _
    rw [hat]
    exact Scalar.holds_iff.2 (hword ▸ Scalar.fills_ofInt hx rfl)

theorem fibonacciText_passes :
    passes (fun _ => false) (Compilation.baseDirectory "main.bz") "main.bz" fibonacciText
      (fun p layouts => decide (callFunction p 1 4 "f" [4] = some 3) &&
        (generate .linux layouts p).toOption.any fun out => out.loads && out.routines.any fun r =>
          decide (r.name = "f") && r.takesNumber &&
            decide (stackOfCall out.routines 0 4 "f" ≤ 0x8000) &&
            decide (framesOfCall out.routines 4 ≤ 0x10000)) = true := by
  have htext : fibonacciText.toList = _ := String.toList_ofList
  rw [passes, Parse.source, Token.lex, htext]
  decide +kernel

theorem functions_simulate_fibonacci : ∃ layouts p out,
    Accepted (fun _ => false) .linux "main.bz" fibonacciText layouts p out ∧
    ∃ r ∈ out.routines, ∃ w : Process, w.image.code = out.assembly.code ∧
      callFunction p 1 4 r.name [4] = some 3 ∧ w.Invoked r 0x8008 .empty [4] (calledWith 4) ∧
      ∃ start, positionOf w.image.code (.symbol (functionSymbol r.name)) = some start ∧
        w.image.Arrives start (calledWith 4) (w.Completed r 0x8008 .empty 3 (calledWith 4)) := by
  obtain ⟨layouts, p, out, h, hcheck⟩ := accepted_of_passes fibonacciText_passes (.inl rfl)
  rw [h.generated] at hcheck
  simp only [Except.toOption, Option.any_some, Bool.and_eq_true, decide_eq_true_eq,
    List.any_eq_true] at hcheck
  obtain ⟨hmeaning, hloads, r, hr, ⟨⟨hname, hnumber⟩, hroom⟩, hframes⟩ := hcheck
  rw [← hname] at hmeaning hroom
  obtain ⟨w, hcode, _, hw⟩ := h.loaded hloads
  have hinvoked := calledWith_invoked hw hnumber (x := 4) (by decide)
  refine ⟨layouts, p, out, h, r, hr, w, hcode, hmeaning, hinvoked, ?_⟩
  have hroom' : w.low + stackOfCall out.routines w.reserve 4 r.name ≤ 0x8008 + 8 +
    r.frame.arguments := by
    rw [hw]
    change (0 : Int) + (stackOfCall out.routines 0 4 r.name : Nat) ≤ 0x8008 + 8 + r.frame.arguments
    omega
  obtain ⟨start, hstart, harrives⟩ :=
    functions_simulate h r hr w hcode 1 4 [4] 3 hmeaning 0x8008 .empty _ hinvoked hroom'
  exact ⟨start, hstart, harrives.mono fun _ _ hends => hends.resolve_left
    (not_exhausted hw (fun _ => rfl) hframes)⟩

end Accepted

end RegionCompiler
