import RegionCompiler.Proofs.Codegen.Contents
import RegionCompiler.Proofs.Collector.Tending

/-! A function that runs. Its frame lies on the stack above what it works on, and everything else
belongs to others: the collector, the C library, and the functions that it was called from. -/
namespace RegionCompiler

namespace Machine.Process

variable {w : Process} {i b : Int}

theorem eq_at_of_depth (w : Process) (b : Int) (x : Word) :
    x = w.at_ (b - 1 - depth (w.at_ b) x) := by
  have hback : x = w.at_ b - BitVec.ofNat 64 1 - BitVec.ofNat 64 (depth (w.at_ b) x) := by
    rw [depth, BitVec.ofNat_toNat, BitVec.setWidth_eq, sub_sub_cancel]
  rw [at_sub, at_sub] at hback
  exact_mod_cast hback

theorem depth_at (hi : i < b) (hwindow : b - i ≤ 2 ^ 64) :
    (depth (w.at_ b) (w.at_ i) : Int) = b - 1 - i := by
  have hone : w.at_ b - 1#64 = w.at_ (b - 1) := by
    have hsub := w.at_sub b 1
    exact_mod_cast hsub
  rw [depth, hone, at_sub_toNat]
  omega

end Machine.Process

namespace Codegen

open Machine Machine.Instr Semantics Typing

/-- What is known of the surroundings of a function of a checked program. -/
structure Env.Prepared (env : Env) (D : Decls) : Prop where
  fits : env.Fits D
  framed : env.Framed
  result : env.current.frame.result = sizeIn env.layouts env.current.function.result.value
  distinct : ((env.current.function.stack.parameters ++ env.current.function.stack.locals).map
    (·.mangled)).Nodup
  onStack : ∀ {mangled kind t}, kind.isStack → (D.declares ⟨mangled, kind⟩ t ↔
    ∃ v ∈ env.current.function.stack.parameters ++ env.current.function.stack.locals,
      v.mangled = mangled ∧ v.ty = t)
  callee : ∀ {mangled t}, D.declares ⟨mangled, .function⟩ t → ∃ r ∈ env.routines,
    r.name = mangled ∧ env.routine mangled = .ok r ∧ ∃ parameters,
      t = .function r.function.result.value parameters false false ∧
      RoutineFits env.layouts r r.function.result.value parameters ∧
      ∃ vs stop, Placed env.layouts 0 vs r.function.stack.parameters stop ∧
        stop ≤ r.frame.arguments

/-- A function that runs in a process. -/
structure Activation where
  process : Process
  env : Env
  decls : Decls
  prepared : env.Prepared decls
  /-- The state that blocks on the heap are compared with. -/
  origin : State
  /-- Where the base pointer points. -/
  place : Int
  /-- The stack of the collector when the function was called. -/
  regions : Collector.Regions
  call : String → List Int → Option Int
  /-- How much of the stack a call takes. -/
  room : String → Nat
  /-- How many frames of the collector the function opens, and how many more its calls open. -/
  nesting : Nat
  frames : Nat
  aligned : place % 16 = 0
  low : process.low + process.reserve + 80 ≤ place - env.current.frame.locals
  high : place + env.current.frame.resultAt + env.current.frame.resultSlot ≤ process.high

namespace Activation

section Definitions

variable (a : Activation)

def bottom : Int := a.place - a.env.current.frame.locals

def stackVariables : List StackVariable :=
  a.env.current.function.stack.parameters ++ a.env.current.function.stack.locals

/-- The places of the stack that belong to the function: its frame but for the linkage, and all that
lies below. -/
def Own (i : Int) : Prop :=
  i < a.place ∨ a.place + 16 ≤ i ∧ i < a.place + a.env.current.frame.resultAt +
    a.env.current.frame.resultSlot

def Stays (s t : State) : Prop := ∀ x, a.process.Beyond a.Own x → t.memory x = s.memory x

/-- There is no room for another frame of the collector, in the function or in what it calls. -/
def Exhausted (j : Nat) (t : State) : Prop :=
  a.process.Exhausted (a.nesting + a.frames) a.regions a.origin j t

/-- The variables of the function hold what the store says. -/
def Stored (store : Store) (s : State) : Prop :=
  ∀ v ∈ a.stackVariables, ∀ {e k x}, a.env.Occupies v e → v.ty = Scalar.ty k →
    store v.mangled = some x → k.Holds s.memory (a.process.at_ (a.place + e.start)) x

theorem bottom_le : a.bottom ≤ a.place := by
  unfold bottom
  omega

theorem bottom_aligned : a.bottom % 16 = 0 := by
  have haligned := a.aligned
  have hlocals : 16 ∣ a.env.current.frame.locals := a.prepared.framed.sizes .locals
  unfold bottom
  omega

theorem low_le : a.process.low + a.process.reserve + 80 ≤ a.bottom := a.low

theorem place_lt : a.place + 16 ≤ a.process.high := by
  have hhigh := a.high
  simp only [Frame.resultAt] at hhigh
  omega

/-- The stack below the locals, when that many frames of the collector are open. -/
def area (n : Nat) : StackArea where
  base := a.process.at_ a.bottom
  frame := a.process.at_ a.place
  limit := (a.bottom - a.process.low).toNat
  limit_lt := by
    have hplace := a.place_lt
    have hbottom := a.bottom_le
    have hwindow := a.process.window
    omega
  owned x := a.process.heap x ∨ ∃ y, a.process.InCell y x
  Good s := a.process.Holds s.memory s.blocks (a.regions.enters n) ∧
    a.process.Spares a.origin s ∧ n ≤ a.nesting
  apart x hx := by
    by_contra hlt
    have hplace := a.place_lt
    have hbottom := a.bottom_le
    have hstack : a.process.OnStack x :=
      ⟨_, by omega, by omega, a.process.eq_at_of_depth a.bottom x⟩
    rcases hx with hheap | ⟨y, hcell⟩
    · exact a.process.stack_heap x hstack hheap
    · exact a.process.stack_cell x hstack y hcell
  good_congr := by
    rintro s t ⟨hholds, hspares, hnesting⟩ hmemory hblocks -
    refine ⟨?_, hspares.trans (.of_heap hholds.sound hmemory hblocks), hnesting⟩
    rw [hblocks]
    refine hholds.congr (fun x => Memory.word_congr fun n hn => ?_)
      fun n hn => Memory.word_congr fun k hk => ?_
    · exact hmemory _ (.inr ⟨x, a.process.inCell_add x hn⟩)
    · exact hmemory _ (.inl (hholds.heap hn k hk))

/-- What the code of expressions of the function runs in. All that is said of them is about those
that have a value. -/
def setting (n : Nat) : Setting where
  image := a.process.image
  work := a.area n
  env := a.env
  decls := a.decls
  Stops _ _ := True
  Quits j t := a.Exhausted j t
  kinds _ := true
  callable _ := true
  call := a.call
  room := a.room
  fits := a.prepared.fits
  distinct := a.process.distinct
  faults _ := trivial
  quits _ := trivial

/-- The function is between two statements, and that many frames of the collector are open. -/
structure Here (n : Nat) (store : Store) (s : State) : Prop where
  at_ : (a.area n).At 0 s
  stored : a.Stored store s

end Definitions

section Places

variable {a : Activation} {n d : Nat} {s t u : State} {store : Store} {x : Word}
    {v v' : StackVariable}
  {e e' : Extent} {k : Scalar}

theorem place_area (a : Activation) (n d : Nat) :
    (a.area n).place d = a.process.at_ (a.bottom - d) := by
  have hplace : displace (a.process.at_ a.bottom) (-d) = a.process.at_ (a.bottom + -d) :=
    a.process.displace_at _ _
  rw [← Int.sub_eq_add_neg] at hplace
  exact hplace

theorem safe_iff : (a.area n).Safe d x ↔ a.process.Beyond (· < a.bottom - d) x := by
  have hplace := a.place_lt
  have hbottom := a.bottom_le
  have hwindow := a.process.window
  constructor
  · rintro ⟨howned, hdepth⟩
    refine ⟨fun hheap => howned (.inl hheap), fun y hcell => howned (.inr ⟨y, hcell⟩), ?_⟩
    rintro i hlow hi rfl
    have hat := Process.depth_at (w := a.process) (show i < a.bottom by omega) (by omega)
    simp only [area] at hdepth
    omega
  · rintro ⟨hheap, hcell, hstack⟩
    refine ⟨?_, ?_⟩
    · rintro (h | ⟨y, h⟩)
      · exact hheap h
      · exact hcell y h
    · by_contra hdepth
      refine hstack _ ?_ ?_ (a.process.eq_at_of_depth a.bottom x)
      all_goals
        simp only [area] at hdepth
        omega

theorem Stays.refl (a : Activation) (s : State) : a.Stays s s := fun _ _ => rfl

theorem Stays.trans (h : a.Stays s t) (h' : a.Stays t u) : a.Stays s u :=
  fun x hx => (h' x hx).trans (h x hx)

/-- Work below the locals does not count. -/
theorem stays_of_beyond
    (h : ∀ x, a.process.Beyond (· < a.bottom) x → t.memory x = s.memory x) : a.Stays s t := by
  have hbottom := a.bottom_le
  exact fun x hx => h x (hx.mono fun i hi => .inl (by omega))

theorem beyond_of_keeps (h : (a.area n).Keeps 0 s t) :
    ∀ x, a.process.Beyond (· < a.bottom) x → t.memory x = s.memory x := by
  intro x hx
  refine h x (safe_iff.2 ?_)
  simpa using hx

theorem sizeOf_ty (a : Activation) (k : Scalar) : a.env.sizeOf k.ty = .ok k.bytes := by
  obtain ⟨name, l, hty, hl, hsize⟩ : ∃ name l, k.ty = .base name ∧
      Registry.initial.get? name = some l ∧ l.size = k.bytes := by
    cases k <;> exact ⟨_, _, rfl, rfl, rfl⟩
  simp [hty, Env.sizeOf, Env.layoutOf, Registry.layoutOf, a.prepared.fits.initial name l hl, hsize,
    bind, Except.bind, pure, Except.pure]

theorem size_of_occupies (he : a.env.Occupies v e) (hty : v.ty = k.ty) : e.size = k.bytes := by
  obtain ⟨-, hsize⟩ := he
  rw [hty, sizeOf_ty] at hsize
  exact (Except.ok.inj hsize).symm

theorem occupies_unique (he : a.env.Occupies v e) (he' : a.env.Occupies v e') : e = e' := by
  obtain ⟨start, size⟩ := e
  obtain ⟨start', size'⟩ := e'
  obtain ⟨haddress, hsize⟩ := he
  obtain ⟨haddress', hsize'⟩ := he'
  rw [haddress] at haddress'
  rw [hsize] at hsize'
  cases haddress'
  cases hsize'
  rfl

theorem occupied (hv : v ∈ a.stackVariables) : ∃ e, a.env.Occupies v e ∧
    a.bottom ≤ a.place + e.start ∧ a.place + e.stop ≤ a.process.high ∧
    ∀ i, a.place + e.start ≤ i → i < a.place + e.stop → a.Own i := by
  have hhigh := a.high
  have hframe := a.place_lt
  rcases List.mem_append.1 hv with hv | hv
  · obtain ⟨e, -, hoccupies, -, ⟨hstart, hstop⟩, -⟩ := a.prepared.framed.parameters.inside v hv
    simp only [Frame.extent, Extent.stop, Frame.resultAt] at hstart hstop hhigh
    refine ⟨e, hoccupies, ?_, ?_, fun i hi hi' => .inr ⟨?_, ?_⟩⟩
    all_goals simp only [Extent.stop, Frame.resultAt, bottom] at *; omega
  · obtain ⟨e, -, hoccupies, -, ⟨hstart, hstop⟩, -⟩ := a.prepared.framed.locals.inside v hv
    simp only [Frame.extent, Extent.stop] at hstart hstop
    refine ⟨e, hoccupies, ?_, ?_, fun i hi hi' => .inl ?_⟩
    all_goals simp only [Extent.stop, bottom] at *; omega

/-- Different variables share no byte. -/
theorem occupies_apart (hv : v ∈ a.stackVariables) (hv' : v' ∈ a.stackVariables)
    (hne : v ≠ v') (he : a.env.Occupies v e) (he' : a.env.Occupies v' e') : e.Apart e' := by
  have hframed := a.prepared.framed
  have : Std.Symm fun v v' => ∀ e e', a.env.Occupies v e → a.env.Occupies v' e' → e.Apart e' :=
    ⟨fun _ _ h e e' he he' => (h e' e he' he).symm⟩
  have hareas : ∀ {v v' : StackVariable} {e e' : Extent},
      v ∈ a.env.current.function.stack.parameters → v' ∈ a.env.current.function.stack.locals →
      a.env.Occupies v e → a.env.Occupies v' e' → e.Apart e' := by
    intro v v' e e' hv hv' he he'
    obtain ⟨f, -, hf, -, hin, -⟩ := hframed.parameters.inside v hv
    obtain ⟨f', -, hf', -, hin', -⟩ := hframed.locals.inside v' hv'
    obtain rfl := occupies_unique he hf
    obtain rfl := occupies_unique he' hf'
    have hareas := hframed.areas .arguments .locals nofun
    obtain ⟨hstart, hstop⟩ := hin
    obtain ⟨hstart', hstop'⟩ := hin'
    simp only [Extent.Apart, Frame.extent, Extent.stop] at *
    omega
  rcases List.mem_append.1 hv with hv | hv <;> rcases List.mem_append.1 hv' with hv' | hv'
  · exact hframed.parameters.apart.forall hv hv' hne e e' he he'
  · exact hareas hv hv' he he'
  · exact (hareas hv' hv he' he).symm
  · exact hframed.locals.apart.forall hv hv' hne e e' he he'

theorem Stored.congr (h : a.Stored store s)
    (hm : ∀ x, a.process.Beyond (· < a.bottom) x → t.memory x = s.memory x) : a.Stored store t := by
  intro v hv e k y he hty hy
  obtain ⟨e', he', hlow, hhigh, -⟩ := occupied hv
  obtain rfl := occupies_unique he he'
  have hsize := size_of_occupies he hty
  have hbottom := a.low_le
  refine (h v hv he hty hy).congr fun n hn => hm _ ?_
  simp only [Extent.stop] at hhigh
  rw [Process.at_add]
  exact Process.beyond_at (by omega) (by omega) fun i (hi : i < a.bottom) => ⟨by omega, by omega⟩

theorem Stored.backs (h : a.Stored store s) : (a.setting n).Backs store 0 s := by
  intro mangled kind k _ hstack hdecl
  obtain ⟨v, hv, rfl, hty⟩ := (a.prepared.onStack hstack).1 hdecl
  obtain ⟨e, he, hlow, hhigh, -⟩ := occupied hv
  have hsize := size_of_occupies he hty
  have hbottom := a.low_le
  have hplace : displace (a.process.at_ a.place) e.start = a.process.at_ (a.place + e.start) :=
    a.process.displace_at _ _
  refine ⟨e.start, he.1, fun n hn => safe_iff.2 ?_, fun y hy => ?_, fun _ _ _ => trivial⟩
  · simp only [Extent.stop] at hhigh
    change a.process.Beyond _ (displace (a.process.at_ a.place) e.start + BitVec.ofNat 64 n)
    rw [hplace, Process.at_add]
    exact Process.beyond_at (by omega) (by omega) fun i hi => ⟨by omega, by omega⟩
  · change k.Holds s.memory (displace (a.process.at_ a.place) e.start) y
    rw [hplace]
    exact h v hv he hty hy

theorem stored_of_backs (h : (a.setting n).Backs store d s) : a.Stored store s := by
  intro v hv e k y he hty hy
  have hlocal : SymbolKind.isStack .local_ := rfl
  obtain ⟨offset, haddress, -, hholds, -⟩ := @h v.mangled .local_ k rfl hlocal
    ((a.prepared.onStack hlocal).2 ⟨v, hv, rfl, hty⟩)
  have hplace : displace (a.process.at_ a.place) e.start = a.process.at_ (a.place + e.start) :=
    a.process.displace_at _ _
  have hstart : offset = e.start := by
    obtain ⟨haddress', -⟩ := he
    have heq := Except.ok.inj (haddress.symm.trans haddress')
    simpa [Address.frame, Address.at_] using heq
  subst hstart
  rw [← hplace]
  exact hholds y hy

end Places

section Collecting

variable {a : Activation} {n m i : Nat} {s t : State} {store : Store}
    {c : Collector.Regions} {b : Int}

theorem standing (h : (a.area n).At 0 s) : a.process.Standing a.bottom s := by
  have hplace := a.place_lt
  have hbottom := a.bottom_le
  have hrsp : s.registers .rsp = displace (a.process.at_ a.bottom) (-(0 : Nat)) := h.rsp
  exact ⟨by simpa using hrsp, a.bottom_aligned, a.low_le, by omega⟩

theorem at_of_tended (h : (a.area n).At 0 s) (hm : m ≤ a.nesting)
    (ht : a.process.Tended b (a.regions.enters m) s t) : (a.area m).At 0 t where
  rsp := ht.rsp.trans h.rsp
  rbp := ht.rbp.trans h.rbp
  good := ⟨ht.holds, h.good.2.1.trans ht.spares, hm⟩

theorem enter_arrives (hi : a.process.image.code[i]? = some (.call Collector.enterSymbol))
    (h : a.Here n store s) (hn : n < a.nesting) :
    a.process.image.Arrives i s fun j t => a.Exhausted j t ∨
      j = i + 1 ∧ a.Here (n + 1) store t ∧ a.Stays s t := by
  refine (Process.opens_arrive hi (standing h.at_) h.at_.good.1).mono ?_
  rintro j t (hquits | ⟨rfl, ht⟩)
  · exact .inl ((hquits.mono (by omega)).after h.at_.good.2.1)
  · exact .inr ⟨rfl, ⟨at_of_tended h.at_ hn ht, h.stored.congr ht.beyond⟩,
      stays_of_beyond ht.beyond⟩

theorem leave_arrives
    (hsits : Sits a.process.image.code i (List.replicate m (.call Collector.exitSymbol)))
    (h : (a.area (n + m)).At 0 s) :
    a.process.image.Arrives i s fun j t => j = i + m ∧ (a.area n).At 0 t ∧
      ∀ x, a.process.Beyond (· < a.bottom) x → t.memory x = s.memory x := by
  have hnesting : n + m ≤ a.nesting := h.good.2.2
  refine (Process.closes_arrive hsits (standing h) h.good.1).mono ?_
  rintro j t ⟨rfl, ht⟩
  exact ⟨rfl, at_of_tended h (by omega) ht, ht.beyond⟩

end Collecting

section Copying

variable {a : Activation} {n d i : Nat} {s : State} {k : Scalar} {v : Int} {p : Int} {dst : Address}

theorem copyTop_arrives (hsits : Sits a.process.image.code i (copy dst top k.bytes))
    (h : (a.area n).At d s) (hd : a.process.low + d ≤ a.bottom)
    (hfills : k.Fills (s.memory.word (a.process.at_ (a.bottom - d))) v) (hdst : dst.Avoids .r11)
    (haddress : s.address a.process.image.symbols dst = a.process.at_ p)
    (hlow : a.bottom - d + 8 ≤ p) (hhigh : p + k.bytes ≤ a.process.high) :
    a.process.image.Arrives i s fun j t => j = i + (copy dst top k.bytes).length ∧
      (a.area n).At d t ∧ k.Holds t.memory (a.process.at_ p) v ∧
      ∀ x, a.process.Beyond (fun q => p ≤ q ∧ q < p + k.bytes) x → t.memory x = s.memory x := by
  have hbytes := k.bytes_le
  have hwindow := a.process.window
  have htop : s.address a.process.image.symbols top = a.process.at_ (a.bottom - d) := by
    rw [address_top h, place_area]
  refine (copy_arrives hsits hdst (Address.avoids_stack (by decide) 0) (by omega)
    fun n hn => ?_).mono ?_
  · rw [haddress, htop, Process.at_add, Process.at_sub_toNat]
    omega
  rintro _ t ⟨rfl, hregisters, hload, hmemory, hblocks, hcalls⟩
  rw [haddress, htop] at hload
  rw [haddress] at hmemory
  have hothers : ∀ x, (∀ q, p ≤ q → q < p + k.bytes → x ≠ a.process.at_ q) →
      t.memory x = s.memory x := by
    refine fun x hstack => hmemory x ?_
    by_contra hlt
    have hx : x = a.process.at_ p + BitVec.ofNat 64 (x - a.process.at_ p).toNat :=
      (add_ofNat_sub _ _).symm
    rw [Process.at_add] at hx
    exact hstack _ (by omega) (by omega) hx
  have howned : ∀ x, (a.area n).owned x → t.memory x = s.memory x := by
    refine fun x hx => hothers x ?_
    rintro q hq hq' rfl
    have hstack : a.process.OnStack (a.process.at_ q) :=
      Process.onStack_at (by omega) (by omega)
    rcases hx with hheap | ⟨y, hcell⟩
    · exact a.process.stack_heap _ hstack hheap
    · exact a.process.stack_cell _ hstack y hcell
  refine ⟨rfl, ?_, ?_, fun x hx => hothers x fun q hq hq' => hx.2.2 q (by omega) ⟨hq, hq'⟩⟩
  · exact h.change ((hregisters .rsp (by decide)).trans h.rsp) (hregisters .rbp (by decide)) howned
      hblocks hcalls
  · obtain ⟨hrange, hlow⟩ := Scalar.holds_iff.2 hfills
    exact ⟨hrange, by rw [hload, hlow]⟩

end Copying

end Activation

end Codegen

end RegionCompiler
