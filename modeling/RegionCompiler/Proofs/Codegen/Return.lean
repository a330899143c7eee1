import RegionCompiler.Proofs.Codegen.Agreement
import RegionCompiler.Proofs.Codegen.Move
import RegionCompiler.Proofs.Collector.Leaving
import RegionCompiler.Proofs.Machine.Loading

/-! Pointers that functions return. The callee takes the pointer off the collector's stack, if it is
the newest entry, and closes its frames; the caller pushes it again. -/
namespace RegionCompiler.Codegen

open Machine Machine.Instr Typing

/-- The end of the code of a `ret` with a pointer: the pointer is released, and the frames of the
blocks around the statement are closed. -/
def handOver (r : Routine) (exit : Label) (depth : Nat) : Code :=
  [mov Register.rax (Address.frame r.frame.resultAt), .call Collector.releaseSymbol]
    ++ List.replicate (depth - bodyDepth r.function) (.call Collector.exitSymbol) ++ [jump exit]

/-- The end of the code of a call that gives a pointer. -/
def takeOver (r : Routine) : Code :=
  .call (functionSymbol r.name) :: (raise r.frame.arguments ++ [.call Collector.adoptSymbol])

section Parts

variable {env : Env} {exit : Label} {loop : Option Loop} {st : Stmt} {depth : Nat} {s : Supply}

theorem resultCode_releases {value : Expr} {t : Ty} (hty : value.ty = some t)
    (hpointer : t.isPointer || t.isArray) (s : Supply) :
    Yields (resultCode env value) s fun code _ => ∃ first, code = first ++
      [mov Register.rax (Address.frame env.current.frame.resultAt),
        .call Collector.releaseSymbol] := by
  rw [resultCode, hty]
  refine .lift fun u hu => .lift fun size _ => .bind fun code s₁ _ => .pure ?_
  cases hu
  rw [if_pos hpointer]
  exact ⟨_, rfl⟩

theorem handOver_of_generates {span : Span} {value : Expr} {t : Ty} {part : Code}
    (hty : value.ty = some t) (hpointer : t.isPointer || t.isArray)
    (h : Generates env exit depth (.return_ span (some value)) part) :
    bodyDepth env.current.function ≤ depth ∧
      ∃ first, part = first ++ handOver env.current exit depth := by
  obtain ⟨loop, s, s', hrun⟩ := h
  rw [stmtCode, returnCode] at hrun
  have hyields : Yields (resultCode env value >>= fun result => do
      return result ++ (← leaveFrames depth (bodyDepth env.current.function)) ++ [jump exit]) s
      fun part _ => bodyDepth env.current.function ≤ depth ∧
        ∃ first, part = first ++ handOver env.current exit depth := by
    refine .bind fun result s₁ hresult => .lift fun leave hleave => .pure ?_
    obtain ⟨first, rfl⟩ := resultCode_releases hty hpointer s result s₁ hresult
    rw [leaveFrames] at hleave
    split at hleave
    case isTrue => cases hleave
    case isFalse hle =>
      cases hleave
      exact ⟨by omega, first, by simp [handOver]⟩
  exact hyields part s' hrun

end Parts

theorem callCode_takes {env : Env} {D : Decls} (hE : env.Fits D) {mangled : String} {t : Ty}
    {parameters : List Ty} {variadic foreign : Bool}
    (hdecl : D.declares ⟨mangled, .function⟩ (.function t parameters variadic foreign))
    (hpointer : t.isPointer || t.isArray) {arguments : List Expr}
    (htakes : Takes D parameters variadic arguments) (s : Supply) :
    Delivers (callCode env ⟨mangled, .function⟩ t arguments) s fun code _ =>
      ∃ callee ∈ env.routines, callee.name = mangled ∧
        ∃ before, code = before ++ takeOver callee := by
  obtain ⟨callee, result, types, hcallee, hshape, hfits⟩ := hE.functions hdecl
  cases hshape
  have hfound : callee ∈ env.routines ∧ callee.name = mangled := by
    unfold Env.routine at hcallee
    split at hcallee
    case h_1 r hfind =>
      cases hcallee
      exact ⟨List.mem_of_find?_eq_some hfind, by simpa using List.find?_some hfind⟩
    case h_2 => cases hcallee
  unfold callCode callWith
  refine .lift hcallee (.bind (argumentsCode_stores hE htakes hfits.parameters s)
    fun stored s' _ => .pure ⟨callee, hfound.1, hfound.2, ?_⟩)
  refine ⟨lower callee.frame.resultSlot ++ lower callee.frame.arguments ++ stored, ?_⟩
  rw [if_pos hpointer, takeOver, hfound.2]
  simp

end RegionCompiler.Codegen

namespace RegionCompiler

open Machine Codegen Typing

section Accepted

variable {isFile : String → Bool} {platform : Platform} {path text : String} {layouts : Registry}
  {p : Program} {out : Codegen.Output} {r : Routine}

theorem Accepted.takes_over (h : Accepted isFile platform path text layouts p out)
    (hr : r ∈ out.routines) {st : Stmt} {depth : Nat} {inLoop : Bool}
    (hocc : st.Occurs depth inLoop r.function.body.statements (bodyDepth r.function) false)
    {head : Head} {accessors : List Accessor} {g : Codegen.Env → Gen Code}
    (hrefers : st.Refers head accessors g) {node : Node} {arguments : List Expr}
    (hcall : .call node arguments ∈ accessors) {mangled : String}
    (hbinding : head.binding = some ⟨mangled, .function⟩) {t : Ty} (hty : node.ty = some t)
    (hpointer : t.isPointer || t.isArray) (s : Supply) :
    Gives (g (envOf platform layouts p out.routines r)) s fun code _ =>
      Starts (fun code => ∃ callee ∈ out.routines, callee.name = mangled ∧
        ∃ before, code = before ++ takeOver callee) code := by
  obtain ⟨f, -, -, hE, hbody⟩ := h.source hr
  refine (refers_starts hE (StmtsOk.occurs hocc hbody).1 hrefers hcall ?_ s).gives
    (h.refers_counts hr hocc hrefers s)
  intro binding result parameters variadic foreign hbinding' hty' hdecl htakes s
  rw [hbinding] at hbinding'
  rw [hty] at hty'
  cases hbinding'
  cases hty'
  exact callCode_takes hE hdecl hpointer htakes s

end Accepted

namespace Machine.Process

open Collector Machine.Instr

variable {w : Process} {r : Routine} {exit : Label} {depth i e j : Nat} {k : Int} {p : Word}
  {s : State} {c : Regions} {P : Nat → State → Prop}

/-- A function has stored the pointer that it returns. It was called at a place of the code. -/
structure Returning (w : Process) (r : Routine) (k : Int) (j : Nat) (p : Word) (s : State) :
    Prop where
  rbp : s.registers .rbp = w.at_ k
  rsp : s.registers .rsp = w.at_ (k - r.frame.locals)
  aligned : k % 16 = 0
  room : w.low + w.reserve + 80 ≤ k - r.frame.locals
  high : k + r.frame.resultAt + r.frame.resultSlot ≤ w.high
  back : s.memory.word (w.at_ (k + 8)) = w.image.addressOf (j + 1)
  result : s.memory.word (w.at_ (k + r.frame.resultAt)) = p

/-- The caller goes on behind its call. The result lies on top of its stack, and this was done to
the collector in between. -/
structure Resumed (w : Process) (r : Routine) (k : Int) (j : Nat) (c : Regions)
    (freed : List Word) (s : State) (i : Nat) (t : State) : Prop where
  position : i = j + (takeOver r).length
  rsp : t.registers .rsp = w.at_ (k + r.frame.resultAt)
  rbp : t.registers .rbp = s.memory.word (w.at_ k)
  served : w.Served (k + r.frame.resultAt) c freed s t

theorem departure_arrives {n : Nat} {t : State} {l : Label} (hlocals : 16 ∣ r.frame.locals)
    (hblocks : Sits w.image.code i (List.replicate n (.call exitSymbol) ++ [jump l]))
    (hleave : Sits w.image.code e (departure r l)) {instr : Instr}
    (hcall : w.image.code[j]? = some instr) (hexecutable : instr.isExecutable)
    (hs : w.Returning r k j p s) {freed : List Word}
    (hrsp : t.registers .rsp = s.registers .rsp) (hrbp : t.registers .rbp = s.registers .rbp)
    (hserved : w.Served (k - r.frame.locals) c freed s t)
    (hnext : ∀ u, u.registers .rsp = w.at_ (k + 16) →
      u.registers .rbp = s.memory.word (w.at_ k) →
      w.Served k (c.exits (n + bodyDepth r.function))
        (freed ++ c.discarded (n + bodyDepth r.function)) s u →
      w.image.Arrives (j + 1) u P)
    (hstop : ∀ i u, w.Misused (freed ++ c.discarded (n + bodyDepth r.function)) s i u → P i u) :
    w.image.Arrives i t P := by
  obtain ⟨hbase, htop, haligned, hroom, hhigh, hback, -⟩ := hs
  simp only [Frame.resultAt] at hhigh
  rw [Regions.discarded_add, ← List.append_assoc] at hnext hstop
  rw [Regions.exits_add] at hnext
  have hstanding : w.Standing (k - r.frame.locals) t :=
    ⟨hrsp.trans htop, by omega, hroom, by omega⟩
  refine (exits_arrive hblocks.left hstanding hserved.holds).bind fun i' u hu => ?_
  rcases hu with ⟨rfl, hrsp', hrbp', hserved'⟩ | hmisused
  case inr => exact .here (hstop _ _ ((hserved.misused hmisused).append _))
  have hjump : w.image.code[i + n]? = some (jump l) := by simpa using hblocks.right.head
  refine .jump hjump (w.position_of hleave.left.head rfl) ?_
  refine .straight hleave.left.left (t := u) (by simp) ?_
  refine (exits_arrive hleave.left.right { hstanding with rsp := hrsp'.trans hstanding.rsp }
    hserved'.holds).bind fun i' v hv => ?_
  rcases hv with ⟨rfl, hrsp'', hrbp'', hserved''⟩ | hmisused
  case inr => exact .here (hstop _ _ ((hserved.trans hserved').misused hmisused))
  have hall := (hserved.trans hserved').trans hserved''
  have hframe : v.registers .rbp = w.at_ k := by rw [hrbp'', hrbp', hrbp, hbase]
  have hlinked : v.memory.word (w.at_ k) = s.memory.word (w.at_ k) :=
    hall.above k (by omega) (by omega)
  have hreturn : v.memory.word (w.at_ (k + 8)) = w.image.addressOf (j + 1) :=
    (hall.above (k + 8) (by omega) (by omega)).trans hback
  obtain ⟨x, hrun, hrspx, hrbpx, hmemory, hblocksx, hcalls⟩ : ∃ x,
      straight w.image.symbols (epilogue.take 2) v = some x ∧
      x.registers .rsp = w.at_ (k + 8) ∧ x.registers .rbp = s.memory.word (w.at_ k) ∧
      x.memory = v.memory ∧ x.blocks = v.blocks ∧ x.calls = v.calls := by
    simp [epilogue, hframe, State.drop, State.peek, hlinked]
  have hepilogue : Sits w.image.code (e + 1 + bodyDepth r.function) epilogue := by
    have hright := hleave.right
    rwa [List.length_append, List.length_replicate, ← Nat.add_assoc] at hright
  refine .straight (hepilogue.take 2) hrun
    (.ret hepilogue.tail.tail.head hcall hexecutable (by rw [State.peek, hrspx, hmemory, hreturn])
      (hnext _ ?_ ?_ ?_))
  · have hplace : k + 8 + 8 = k + 16 := by omega
    simp [State.drop, hrspx, hplace]
  · simp [State.drop, hrbpx]
  · have hdropped := (hall.mono (by omega : k - r.frame.locals ≤ k)).trans
      (.of_eq (t := x.drop) hall.holds hmemory hblocksx hcalls)
    rwa [List.append_nil] at hdropped

/-- A function that returns a pointer goes back to its caller, which takes over what was released;
unless a frame has a pointer that must not be freed. -/
theorem return_arrives (hlocals : 16 ∣ r.frame.locals) (harguments : 16 ∣ r.frame.arguments)
    (hdepth : bodyDepth r.function ≤ depth)
    (hreturn : Sits w.image.code i (handOver r exit depth))
    (hleave : Sits w.image.code e (departure r exit))
    (hcall : Sits w.image.code j (takeOver r)) (hs : w.Returning r k j p s)
    (hc : w.Holds s.memory s.blocks c)
    (hroom : ((c.release p).exits depth).entries.length < c.entries.length) :
    w.image.Arrives i s fun i' t =>
      w.Resumed r k j ((c.release p).exits depth).adopt ((c.release p).discarded depth) s i' t ∨
      w.Misused ((c.release p).discarded depth) s i' t := by
  have hs' := hs
  obtain ⟨hbase, htop, haligned, hlow, hhigh, -, hresult⟩ := hs'
  simp only [Frame.resultAt] at hhigh
  have hcode : Sits w.image.code i ([mov Register.rax (Address.frame r.frame.resultAt)] ++
      (.call releaseSymbol :: (List.replicate (depth - bodyDepth r.function) (.call exitSymbol) ++
        [jump exit]))) := hreturn
  refine .straight hcode.left (t := s.set .rax p) (by simp [hbase, hresult]) ?_
  have hstanding : w.Standing (k - r.frame.locals) (s.set .rax p) :=
    ⟨htop, by omega, hlow, by omega⟩
  have hrelease : w.image.code[i + 1]? = some (.call Collector.Routine.release.symbol) :=
    hcode.right.head
  refine (called_arrives hrelease hstanding hc (grows_of_appends rfl)).bind fun i' t ht => ?_
  rcases ht with ⟨rfl, hrsp, hrbp, hserved⟩ | hmisused
  case inr =>
    obtain ⟨done, q, rest, hnone, -⟩ := hmisused
    simp [Collector.Routine.freed] at hnone
  have hreleased : w.Served (k - r.frame.locals) (c.release p) [] s t := by
    have hset : w.Served (k - r.frame.locals) c [] s (s.set .rax p) := .of_eq hc rfl rfl rfl
    have hboth := hset.trans hserved
    simpa [Collector.Routine.apply, Collector.Routine.freed] using hboth
  have hdeep : depth - bodyDepth r.function + bodyDepth r.function = depth := by omega
  refine departure_arrives hlocals hcode.right.tail hleave hcall.head rfl hs hrsp hrbp
    hreleased ?_ ?_
  · rw [hdeep, List.nil_append]
    intro u hrsp hrbp hclosed
    obtain ⟨f, hraise⟩ := straight_raise w.image.symbols u r.frame.arguments
    refine .straight hcall.tail.left hraise ?_
    generalize hv : (u.withFlags f).set .rsp (displace (u.registers .rsp) r.frame.arguments) = v
    obtain ⟨hrspv, hrbpv, hmemory, hblocks, hcalls⟩ : v.registers .rsp =
        w.at_ (k + r.frame.resultAt) ∧ v.registers .rbp = s.memory.word (w.at_ k) ∧
        v.memory = u.memory ∧ v.blocks = u.blocks ∧ v.calls = u.calls := by
      have hplace : k + 16 + (r.frame.arguments : Int) = k + r.frame.resultAt := by
        rw [Frame.resultAt]
        omega
      simp [← hv, hrsp, hrbp, hplace]
    have hraised : w.Served (k + r.frame.resultAt) ((c.release p).exits depth)
        ((c.release p).discarded depth) s v := by
      have hboth := (hclosed.mono (by simp only [Frame.resultAt]; omega :
        k ≤ k + r.frame.resultAt)).trans (.of_eq hclosed.holds hmemory hblocks hcalls)
      rwa [List.append_nil] at hboth
    have hgrows : w.grows .adopt v ((c.release p).exits depth) = false := by
      have hfits := hc.fits
      rw [grows, hraised.capacity, Bool.and_eq_false_iff, beq_eq_false_iff_ne]
      exact .inr (by omega)
    refine (called_arrives (r := .adopt) hcall.tail.right.head
      (k := k + r.frame.resultAt) ⟨hrspv, ?_, ?_, ?_⟩ hraised.holds hgrows).mono
      fun i' x hx => ?_
    · simp only [Frame.resultAt]
      omega
    · simp only [Frame.resultAt]
      omega
    · simp only [Frame.resultAt]
      omega
    · rcases hx with ⟨rfl, hrspx, hrbpx, hadopted⟩ | hmisused
      · refine .inl ⟨?_, hrspx.trans hrspv, hrbpx.trans hrbpv, ?_⟩
        · simp [takeOver]
          omega
        · simpa [Collector.Routine.freed, Collector.Routine.apply] using hraised.trans hadopted
      · exact .inr (by simpa [Collector.Routine.freed] using hraised.misused hmisused)
  · rw [hdeep, List.nil_append]
    exact fun i' u hmisused => .inr hmisused

end Machine.Process

section Accepted

variable {isFile : String → Bool} {platform : Platform} {path text : String} {layouts : Registry}
  {p : Program} {out : Codegen.Output}

open Collector

theorem Machine.Sits.of_infix {code part : Code} (h : part <:+: code) : ∃ i, Sits code i part := by
  obtain ⟨before, after, rfl⟩ := h
  exact ⟨_, .of_append before after⟩

/-- From a place in the code of a function, a pointer that it returns moves to the innermost frame
of the caller, if it is the newest entry. Everything else in the frames that the function has open
is freed. -/
def Machine.Process.Moves (w : Process) (r : Routine) (depth i : Nat) : Prop :=
  ∀ j, Sits w.image.code j (takeOver r) → ∀ k p s, w.Returning r k j p s →
    ∀ done, w.Owns done s → ∀ below outer inner,
    (Ledger.empty.run done).regions.entries =
      below ++ Regions.framed (outer ++ [inner ++ [p]]) →
    (∀ f ∈ outer ++ [inner], Regions.marker ∉ f) → outer.length + 1 = depth → isPointer p →
    p ∉ Regions.pointers (outer ++ [inner]) ∧
    p ∈ (⟨below ++ [p], 0#64⟩ : Regions).innermost ∧
    w.image.Arrives i s
      (w.Resumed r k j ⟨below ++ [p], 0#64⟩ (Regions.pointers (outer ++ [inner])) s)

theorem Accepted.moves (h : Accepted isFile platform path text layouts p out) {r : Routine}
    (hr : r ∈ out.routines) {w : Process} (hcode : w.image.code = out.assembly.code)
    {exit : Label} (hexit : departure r exit <:+: out.assembly.code) {depth i : Nat}
    (hdepth : bodyDepth r.function ≤ depth)
    (hreturn : Sits w.image.code i (handOver r exit depth)) : w.Moves r depth i := by
  intro j hcall k p s hs done howns below outer inner hentries hframes hlength hp
  obtain ⟨e, hleave⟩ := Sits.of_infix (hcode ▸ hexit)
  obtain ⟨hzero, hmarker⟩ : p ≠ 0#64 ∧ p ≠ Regions.marker := by simpa [isPointer] using hp
  generalize hc : (Ledger.empty.run done).regions = c at hentries
  have hreleased : c.release p = ⟨below ++ Regions.framed (outer ++ [inner]), p⟩ := by
    rw [← Regions.release_newest below outer inner c.moved p, ← hentries]
  obtain ⟨hexits, hdiscarded⟩ : (c.release p).exits depth = ⟨below, p⟩ ∧
      (c.release p).discarded depth = Regions.pointers (outer ++ [inner]) := by
    have hclosed := @Regions.exits_framed below (outer ++ [inner]) p hframes
    rwa [← hreleased, List.length_append, List.length_singleton, hlength] at hclosed
  -- The pointer and those that are freed are different blocks, so that none is misused.
  obtain ⟨hnodup, hlive⟩ : (p :: Regions.pointers (outer ++ [inner])).Nodup ∧
      ∀ q ∈ p :: Regions.pointers (outer ++ [inner]), s.blocks q ≠ none ∧
        q ≠ w.data s.memory := by
    have hpointers : Regions.pointers (outer ++ [inner ++ [p]]) =
        p :: Regions.pointers (outer ++ [inner]) := by simp [Regions.pointers, hzero]
    rw [← hpointers]
    refine howns.pointers (hc ▸ hentries) fun f hf => ?_
    rcases List.mem_append.1 hf with hf | hf
    · exact hframes f (List.mem_append_left _ hf)
    · obtain rfl := List.mem_singleton.1 hf
      have hinner := hframes inner (by simp)
      simp [hinner, hmarker.symm]
  obtain ⟨hfreed, hnodup⟩ := List.nodup_cons.1 hnodup
  obtain ⟨hadopt, hinnermost⟩ := @Regions.adopt_pointer below p hp
  have hsizes := (h.framed hr).sizes
  refine ⟨hfreed, hinnermost, (Process.return_arrives (hsizes .locals) (hsizes .arguments) hdepth
    hreturn hleave hcall hs (hc ▸ howns.holds) ?_).mono fun i' t ht => ?_⟩
  · rw [hexits, hentries, Regions.framed_concat]
    simp
  · rw [hexits, hdiscarded, hadopt] at ht
    refine ht.resolve_right fun hmisused => ?_
    obtain ⟨q, hq, hdata | hnone⟩ := hmisused.not_blocks hnodup
    · exact (hlive q (List.mem_cons_of_mem p hq)).2 hdata
    · exact (hlive q (List.mem_cons_of_mem p hq)).1 hnone

/-- A pointer that is returned from below the newest entry is not released: the frames that the
function has open are left with it, and all their pointers are freed. -/
theorem Accepted.drops (h : Accepted isFile platform path text layouts p out) {r : Routine}
    (hr : r ∈ out.routines) {w : Process} (hcode : w.image.code = out.assembly.code)
    {exit : Label} (hexit : departure r exit <:+: out.assembly.code) {depth i j : Nat}
    (hdepth : bodyDepth r.function ≤ depth) (hreturn : Sits w.image.code i (handOver r exit depth))
    (hcall : Sits w.image.code j (takeOver r)) {k : Int} {returned newest : Word} {s : State}
    (hs : w.Returning r k j returned s) {done : List Op} (howns : w.Owns done s)
    (below : List Word) (outer : List (List Word)) (inner : List Word)
    (hentries : (Ledger.empty.run done).regions.entries =
      below ++ Regions.framed (outer ++ [inner ++ [newest]]))
    (hframes : ∀ f ∈ outer ++ [inner ++ [newest]], Regions.marker ∉ f)
    (hlength : outer.length + 1 = depth) (hne : newest ≠ returned) :
    w.image.Arrives i s (w.Resumed r k j ⟨below, 0#64⟩
      (Regions.pointers (outer ++ [inner ++ [newest]])) s) := by
  obtain ⟨e, hleave⟩ := Sits.of_infix (hcode ▸ hexit)
  obtain ⟨hnodup, hlive⟩ := howns.pointers hentries hframes
  generalize hc : (Ledger.empty.run done).regions = c at hentries
  have hreleased : c.release returned =
      ⟨below ++ Regions.framed (outer ++ [inner ++ [newest]]), 0#64⟩ := by
    have hlast : c.entries = below ++ Regions.framed (outer ++ [inner]) ++ [newest] := by
      rw [hentries]
      simp [Regions.framed]
    rw [Regions.release, if_neg (by simpa [hlast] using hne), hentries]
  obtain ⟨hexits, hdiscarded⟩ : (c.release returned).exits depth = ⟨below, 0#64⟩ ∧
      (c.release returned).discarded depth = Regions.pointers (outer ++ [inner ++ [newest]]) := by
    have hclosed := @Regions.exits_framed below (outer ++ [inner ++ [newest]]) 0#64 hframes
    rwa [← hreleased, List.length_append, List.length_singleton, hlength] at hclosed
  have hsizes := (h.framed hr).sizes
  refine (Process.return_arrives (hsizes .locals) (hsizes .arguments) hdepth hreturn hleave hcall hs
    (hc ▸ howns.holds) ?_).mono fun i' t ht => ?_
  · rw [hexits, hentries, Regions.framed_concat]
    simp
  · rw [hexits, hdiscarded] at ht
    refine ht.resolve_right fun hmisused => ?_
    obtain ⟨q, hq, hdata | hnone⟩ := hmisused.not_blocks hnodup
    · exact (hlive q hq).2 hdata
    · exact (hlive q hq).1 hnone

/-- A pointer that is returned moves to the frame of the caller, if it is the newest entry. Calls
whose result is a pointer take it over, every `ret` with a pointer hands it over, and the one leads
to the other. -/
theorem returned_pointer_moves (h : Accepted isFile platform path text layouts p out) :
    ∀ r ∈ out.routines,
      (∀ (st : Stmt) depth inLoop,
        st.Occurs depth inLoop r.function.body.statements (bodyDepth r.function) false →
        ∀ head accessors g, st.Refers head accessors g → ∀ node arguments,
        .call node arguments ∈ accessors → ∀ mangled,
        head.binding = some ⟨mangled, .function⟩ → ∀ t, node.ty = some t →
        (t.isPointer || t.isArray) = true → ∀ s,
        Gives (g (envOf platform layouts p out.routines r)) s fun code _ =>
          Starts (fun code => ∃ callee ∈ out.routines, callee.name = mangled ∧
            ∃ before, code = before ++ takeOver callee) code) ∧
      ∃ exit, ∀ (st : Stmt) depth inLoop,
        st.Occurs depth inLoop r.function.body.statements (bodyDepth r.function) false →
        ∀ span value t, st = .return_ span (some value) → value.ty = some t →
        (t.isPointer || t.isArray) = true →
        (∃ part, Generates (envOf platform layouts p out.routines r) exit depth st part ∧
          part <:+: out.assembly.code) ∧
        ∀ part, Generates (envOf platform layouts p out.routines r) exit depth st part →
          ∃ first, part = first ++ handOver r exit depth ∧
          ∀ w : Process, w.image.code = out.assembly.code → ∀ i, Sits w.image.code i part →
            w.Moves r depth (i + first.length) := by
  intro r hr
  refine ⟨?_, ?_⟩
  · intro st depth inLoop hocc head accessors g hrefers node arguments hcall mangled hbinding t hty
      hpointer s
    exact h.takes_over hr hocc hrefers hcall hbinding hty hpointer s
  · obtain ⟨exit, hexit, hparts⟩ := h.departs hr
    refine ⟨exit, fun st depth inLoop hocc span value t hst hty hpointer => ⟨hparts _ _ _ hocc, ?_⟩⟩
    subst hst
    intro part hpart
    obtain ⟨hdepth, first, rfl⟩ := handOver_of_generates hty hpointer hpart
    exact ⟨first, rfl, fun w hcode i hsits => h.moves hr hcode hexit hdepth hsits.right⟩

end Accepted

namespace Machine.Loading

open Collector

def memoryOf : List (Word × Word) → Memory
  | [] => fun _ => 0#8
  | x :: rest => (memoryOf rest).put x.1 x.2

theorem word_memoryOf {words : List (Word × Word)}
    (h : (words.map Prod.fst).Pairwise Memory.Apart) {a v : Word} (hx : (a, v) ∈ words) :
    (memoryOf words).word a = v := by
  induction words with
  | nil => cases hx
  | cons x rest ih =>
    obtain ⟨hfirst, hrest⟩ := List.pairwise_cons.1 h
    rcases List.mem_cons.1 hx with rfl | hx
    · exact Memory.word_put _ _ _
    · rw [memoryOf, Memory.word_put_apart (hfirst a (List.mem_map_of_mem hx)), ih hrest hx]

/-- Two blocks of a program, the first of which is returned. -/
def firstBlock : Word := 0x1000100#64

def secondBlock : Word := 0x1000200#64

/-- The frame of a function that returns the first block. The collector's entries are the first ones
of a marker and the two blocks. -/
def handingOver (count locals : Nat) (back : Word) : State where
  registers r := if r = .rbp then displace stackBase 0x8000 else
    if r = .rsp then displace stackBase (0x8000 - locals) else 0#64
  vectors _ := 0#64
  memory := memoryOf [(0x1000#64, 0x1000000#64), (0x1008#64, BitVec.ofNat 64 count),
    (0x1010#64, 16#64), (0x1018#64, 0#64), (0x108008#64, back), (0x108010#64, firstBlock),
    (0x1000000#64, Regions.marker), (0x1000008#64, firstBlock), (0x1000010#64, secondBlock)]
  flags := .undefined
  blocks q := if q = 0x1000000#64 then some 128 else if q = firstBlock then some 8
    else if q = secondBlock then some 8 else none
  calls := []

instance {a b : Word} : Decidable (Memory.Apart a b) :=
  inferInstanceAs (Decidable (8 ≤ (a - b).toNat ∧ 8 ≤ (b - a).toNat))

section Returning

variable {code : Code} {hcode : code.length < 2 ^ 63} {count locals : Nat} {back : Word}

theorem word_handingOver {a v : Word} (h : (a, v) ∈ [(0x1000#64, 0x1000000#64),
    (0x1008#64, BitVec.ofNat 64 count), (0x1010#64, 16#64), (0x1018#64, 0#64), (0x108008#64, back),
    (0x108010#64, firstBlock), (0x1000000#64, Regions.marker), (0x1000008#64, firstBlock),
    (0x1000010#64, secondBlock)]) : (handingOver count locals back).memory.word a = v := by
  refine word_memoryOf ?_ h
  change List.Pairwise Memory.Apart [0x1000#64, 0x1008#64, 0x1010#64, 0x1018#64, 0x108008#64,
    0x108010#64, 0x1000000#64, 0x1000008#64, 0x1000010#64]
  decide

theorem sound_handingOver :
    (places .linux code hcode).Sound (handingOver count locals back).blocks := by
  have hcases {q : Word} {n : Nat} (h : (handingOver count locals back).blocks q = some n) :
      q = 0x1000000#64 ∧ n = 128 ∨ q = firstBlock ∧ n = 8 ∨ q = secondBlock ∧ n = 8 := by
    simp only [handingOver] at h
    split at h
    · exact .inl ⟨‹_›, (Option.some.inj h).symm⟩
    · split at h
      · exact .inr (.inl ⟨‹_›, (Option.some.inj h).symm⟩)
      · split at h
        · exact .inr (.inr ⟨‹_›, (Option.some.inj h).symm⟩)
        · cases h
  constructor
  case null => simp [handingOver, firstBlock, secondBlock]
  case bounded =>
    intro q n hq
    rcases hcases hq with ⟨-, rfl⟩ | ⟨-, rfl⟩ | ⟨-, rfl⟩ <;> decide
  case inside =>
    intro q n hq j hj
    change 0x1000000 ≤ (q + BitVec.ofNat 64 j).toNat ∧ (q + BitVec.ofNat 64 j).toNat < 0x1100000
    rcases hcases hq with ⟨rfl, rfl⟩ | ⟨rfl, rfl⟩ | ⟨rfl, rfl⟩ <;>
      simp only [firstBlock, secondBlock, BitVec.toNat_add, BitVec.toNat_ofNat] <;> omega
  case apart =>
    intro q q' n n' hq hq' hne j hj j' hj' heq
    have htoNat := congrArg BitVec.toNat heq
    rcases hcases hq with ⟨rfl, rfl⟩ | ⟨rfl, rfl⟩ | ⟨rfl, rfl⟩ <;>
      rcases hcases hq' with ⟨rfl, rfl⟩ | ⟨rfl, rfl⟩ | ⟨rfl, rfl⟩ <;>
      simp only [firstBlock, secondBlock, ne_eq, not_true_eq_false, BitVec.toNat_add,
        BitVec.toNat_ofNat] at hne htoNat <;> omega

/-- The frame is opened and the blocks are pushed. -/
def allocations : List Op := [.enter, .push firstBlock, .push secondBlock]

theorem run_allocations (hcount : count ≤ 3) :
    (Ledger.empty.run (allocations.take count)).regions =
      ⟨[Regions.marker, firstBlock, secondBlock].take count, 0#64⟩ := by
  obtain rfl | rfl | rfl | rfl : count = 0 ∨ count = 1 ∨ count = 2 ∨ count = 3 := by omega
  all_goals rfl

variable {w : Process} (hw : w.toPlaces = places .linux code hcode)

include hw

theorem holds_handingOver (hcount : count ≤ 3) :
    w.Holds (handingOver count locals back).memory (handingOver count locals back).blocks
      ⟨[Regions.marker, firstBlock, secondBlock].take count, 0#64⟩ := by
  have hcell (x : Cell) : w.cell x = BitVec.ofNat 64 (cellAddress x) := by
    rw [Places.cell, hw]
    cases x <;> rfl
  have hdata : w.data (handingOver count locals back).memory = 0x1000000#64 := by
    rw [Process.data, hcell]
    exact word_handingOver (by simp [cellAddress])
  have hcapacity : w.capacity (handingOver count locals back).memory = 16#64 := by
    rw [Process.capacity, hcell]
    exact word_handingOver (by simp [cellAddress])
  have hlength : ([Regions.marker, firstBlock, secondBlock].take count).length = count := by
    simpa using hcount
  constructor
  case sound =>
    rw [hw]
    exact sound_handingOver
  case length =>
    rw [hcell]
    exact word_handingOver (by simp [cellAddress, hcount])
  case moved =>
    rw [hcell]
    exact word_handingOver (by simp [cellAddress])
  case fits =>
    rw [hcapacity, hlength]
    exact hcount.trans (by decide)
  case block =>
    right
    rw [hdata, hcapacity]
    rfl
  case entry =>
    intro n e he
    rw [hdata, Process.slot]
    rw [List.getElem?_take] at he
    split at he
    case isFalse => cases he
    case isTrue hn =>
      obtain rfl | rfl | rfl : n = 0 ∨ n = 1 ∨ n = 2 := by omega
      all_goals
        cases he
        exact word_handingOver (by simp)

theorem handingOver_returns {r : Routine} (harguments : r.frame.arguments = 0)
    (hlocals : r.frame.locals ≤ 32) (hslot : r.frame.resultSlot ≤ 16) {j : Nat} :
    w.Returning r 0x8000 j firstBlock
      (handingOver count r.frame.locals (w.image.addressOf (j + 1))) := by
  have hat (i : Int) : w.at_ i = displace stackBase i := by
    rw [Places.at_, hw]
    rfl
  constructor
  case rbp =>
    rw [hat]
    rfl
  case rsp =>
    rw [hat]
    rfl
  case aligned => decide
  case room =>
    rw [hw]
    change (0 : Int) + 0 + 80 ≤ 0x8000 - r.frame.locals
    omega
  case high =>
    rw [hw, Frame.resultAt, harguments]
    change (0x8000 : Int) + (16 + 0) + r.frame.resultSlot ≤ 0x10000
    omega
  case back =>
    rw [hat]
    exact word_handingOver (by simp [stackBase, displace])
  case result =>
    rw [hat, Frame.resultAt, harguments]
    exact word_handingOver (by simp [stackBase, displace])

theorem owns_handingOver (hcount : count ≤ 3) :
    w.Owns (allocations.take count) (handingOver count locals back) := by
  have hheld : (Ledger.empty.run (allocations.take count)).owned ⊆ [firstBlock, secondBlock] := by
    obtain rfl | rfl | rfl | rfl : count = 0 ∨ count = 1 ∨ count = 2 ∨ count = 3 := by omega
    all_goals decide
  have hdata : w.data (handingOver count locals back).memory = 0x1000000#64 := by
    have hcell : w.cell .entries = 0x1000#64 := by
      rw [Places.cell, hw]
      rfl
    rw [Process.data, hcell]
    exact word_handingOver (by simp)
  constructor
  case allowed =>
    have hall : Ledger.empty.AllowsAll (allocations.take count ++ allocations.drop count) := by
      rw [List.take_append_drop]
      exact ⟨trivial, ⟨by decide, by decide⟩, ⟨by decide, by decide⟩, trivial⟩
    exact (Ledger.allowsAll_append.1 hall).1
  case holds =>
    rw [run_allocations hcount]
    exact holds_handingOver hw hcount
  case live =>
    intro q hq
    rw [hdata]
    have hblock : q = firstBlock ∨ q = secondBlock := by simpa using hheld hq
    rcases hblock with rfl | rfl
    · exact ⟨by simp [handingOver, firstBlock], by decide⟩
    · exact ⟨by simp [handingOver, firstBlock, secondBlock], by decide⟩
  case frees =>
    have hquiet : Ledger.empty.freedBy (allocations.take count) = [] := by
      obtain rfl | rfl | rfl | rfl : count = 0 ∨ count = 1 ∨ count = 2 ∨ count = 3 := by omega
      all_goals rfl
    rw [hquiet]
    rfl
  case lawful => exact fun call hcall => absurd hcall List.not_mem_nil

end Returning

end Machine.Loading

section Accepted

open Collector Loading

/-- A function with two blocks returns the older one. -/
def returningText : String :=
  "fn f() int[] { let int[] a = *1 let int[] b = *1 ret a } fn main() { call f() }"

def Stmt.returned : Stmt → Option Expr
  | .return_ _ value => value
  | _ => none

theorem Stmt.eq_of_returned {st : Stmt} {e : Expr} (h : st.returned = some e) :
    ∃ span, st = .return_ span (some e) := by
  unfold returned at h
  split at h
  · rename_i span value
    exact ⟨span, by rw [h]⟩
  · cases h

/-- Whether a function has a frame of its own and returns a pointer at its end. -/
def Function.returnsPointer (f : Function) : Bool :=
  !f.body.manual && f.body.statements.any fun st =>
    st.returned.any fun e => e.ty.any fun t => t.isPointer || t.isArray

theorem Function.returns_of_returnsPointer {f : Function} (h : f.returnsPointer) :
    f.body.manual = false ∧ ∃ span value t, Stmt.return_ span (some value) ∈ f.body.statements ∧
      value.ty = some t ∧ (t.isPointer || t.isArray) = true := by
  rw [Function.returnsPointer, Bool.and_eq_true, List.any_eq_true] at h
  obtain ⟨hmanual, st, hst, hvalue⟩ := h
  obtain ⟨value, hvalue, hty⟩ := (Option.any_eq_true ..).1 hvalue
  obtain ⟨t, ht, hpointer⟩ := (Option.any_eq_true ..).1 hty
  obtain ⟨span, rfl⟩ := Stmt.eq_of_returned hvalue
  exact ⟨by simpa using hmanual, span, value, t, hst, ht, hpointer⟩

/-- Whether a program can be loaded. -/
def Codegen.Output.loads (out : Codegen.Output) : Bool :=
  out.assembly.code.length < 1000 && decide (marks out.assembly.code).Nodup &&
    cFunctions.all fun name => (positionOf out.assembly.code (.symbol name)).isNone

theorem Accepted.loaded {isFile : String → Bool} {path text : String} {layouts : Registry}
    {p : Program} {out : Codegen.Output} (h : Accepted isFile .linux path text layouts p out)
    (hloads : out.loads = true) : ∃ w : Process, w.image.code = out.assembly.code ∧
      ∃ hcode, w.toPlaces = places .linux out.assembly.code hcode := by
  simp only [Codegen.Output.loads, Bool.and_eq_true, decide_eq_true_eq, List.all_eq_true,
    Option.isNone_iff_eq_none] at hloads
  obtain ⟨⟨hshort, hdistinct⟩, hforeign⟩ := hloads
  obtain ⟨code, -, hcode, -⟩ := h.generates.code
  have hcollector : Collector.code .linux (mainResultSize out.routines) <:+: out.assembly.code := by
    rw [hcode]
    exact (List.prefix_append _ _).isInfix
  exact ⟨process .linux out.assembly.code (by omega) (mainResultSize out.routines) (.inl rfl)
    hdistinct hcollector hforeign, rfl, by omega, rfl⟩

/-- Whether the functions that return pointers are small, and called for their pointers. -/
def Codegen.Output.hands (out : Codegen.Output) : Bool :=
  out.routines.all fun r => !r.function.returnsPointer || decide (r.frame.arguments = 0) &&
    r.frame.locals ≤ 32 && r.frame.resultSlot ≤ 16 &&
    out.assembly.code.tails.any ((takeOver r).isPrefixOf ·)

theorem returningText_passes :
    passes (fun _ => false) (Compilation.baseDirectory "main.bz") "main.bz"
      returningText (fun p layouts =>
        p.functions.any Function.returnsPointer &&
          (generate .linux layouts p).toOption.any fun out => out.loads && out.hands) = true := by
  have htext : returningText.toList = _ := String.toList_ofList
  rw [passes, Parse.source, Token.lex, htext]
  decide +kernel

/-- The program can be loaded, and its collector can hold any of its blocks when the first one is
returned. -/
theorem returningText_loaded : ∃ layouts p out,
    Accepted (fun _ => false) .linux "main.bz" returningText layouts p out ∧
    ∃ r ∈ out.routines, bodyDepth r.function = 1 ∧
    (∃ span value t, Stmt.return_ span (some value) ∈ r.function.body.statements ∧
      value.ty = some t ∧ (t.isPointer || t.isArray) = true) ∧
    ∃ w : Process, w.image.code = out.assembly.code ∧ ∃ j, Sits w.image.code j (takeOver r) ∧
      ∀ count ≤ 3,
        w.Returning r 0x8000 j firstBlock
          (handingOver count r.frame.locals (w.image.addressOf (j + 1))) ∧
        w.Owns (allocations.take count)
          (handingOver count r.frame.locals (w.image.addressOf (j + 1))) := by
  obtain ⟨layouts, p, out, h, hcheck⟩ := accepted_of_passes returningText_passes (.inl rfl)
  rw [h.generated, Bool.and_eq_true] at hcheck
  obtain ⟨hloads, hhands⟩ : out.loads = true ∧ out.hands = true := Bool.and_eq_true_iff.1 hcheck.2
  obtain ⟨f, hf, hreturns⟩ := List.any_eq_true.1 hcheck.1
  obtain ⟨r, hr, hframes⟩ := exists_of_forall₂ h.generates.frames hf
  have hreturns : r.function.returnsPointer = true := by
    rw [hframes.function]
    exact hreturns
  obtain ⟨harguments, hlocals, hslot, hcalled⟩ : r.frame.arguments = 0 ∧ r.frame.locals ≤ 32 ∧
      r.frame.resultSlot ≤ 16 ∧ takeOver r <:+: out.assembly.code := by
    have hhands := List.all_eq_true.1 hhands r hr
    rw [hreturns] at hhands
    simp only [Bool.not_true, Bool.false_or, Bool.and_eq_true, decide_eq_true_eq, List.any_eq_true,
      List.mem_tails, List.isPrefixOf_iff_prefix] at hhands
    obtain ⟨⟨⟨harguments, hlocals⟩, hslot⟩, rest, hsuffix, hprefix⟩ := hhands
    exact ⟨harguments, hlocals, hslot, hprefix.isInfix.trans hsuffix.isInfix⟩
  obtain ⟨hmanual, hreturned⟩ := Function.returns_of_returnsPointer hreturns
  obtain ⟨w, hcode, _, hw⟩ := h.loaded hloads
  obtain ⟨j, hj⟩ := Sits.of_infix (hcode ▸ hcalled)
  exact ⟨_, _, out, h, r, hr, by simp [bodyDepth, hmanual], hreturned, w, hcode, j, hj,
    fun count hcount => ⟨handingOver_returns hw harguments hlocals hslot,
      owns_handingOver hw hcount⟩⟩

/-- The first block is returned while it is the newest entry. -/
theorem returned_pointer_moves_newest : ∃ layouts p out,
    Accepted (fun _ => false) .linux "main.bz" returningText layouts p out ∧
    ∃ r ∈ out.routines, ∃ w : Process, w.image.code = out.assembly.code ∧ ∃ i j s,
      Sits w.image.code j (takeOver r) ∧ w.Returning r 0x8000 j firstBlock s ∧
      w.Owns [.enter, .push firstBlock] s ∧
      w.image.Arrives i s (w.Resumed r 0x8000 j ⟨[firstBlock], 0#64⟩ [] s) := by
  obtain ⟨layouts, p, out, h, r, hr, hdepth, ⟨span, value, t, hst, hty, hpointer⟩, w, hcode, j, hj,
    hready⟩ := returningText_loaded
  obtain ⟨hreturning, howns⟩ := hready 2 (by decide)
  obtain ⟨exit, hreturns⟩ := (returned_pointer_moves h r hr).2
  obtain ⟨⟨part, hpart, hinfix⟩, hmoves⟩ :=
    hreturns _ _ _ (.here hst) span value t rfl hty hpointer
  obtain ⟨first, -, hmoves⟩ := hmoves part hpart
  obtain ⟨i, hi⟩ := Sits.of_infix (hcode ▸ hinfix)
  refine ⟨layouts, p, out, h, r, hr, w, hcode, i + first.length, j, _, hj, hreturning, howns, ?_⟩
  exact (hmoves w hcode i hi j hj _ _ _ hreturning _ howns [] [] [] rfl (by simp) hdepth.symm
    (by decide)).2.2

/-- The first block is returned while the second one is the newest entry, and is freed. -/
theorem returned_pointer_freed : ∃ layouts p out,
    Accepted (fun _ => false) .linux "main.bz" returningText layouts p out ∧
    ∃ r ∈ out.routines, ∃ exit span value t part,
      .return_ span (some value) ∈ r.function.body.statements ∧ value.ty = some t ∧
      (t.isPointer || t.isArray) = true ∧
      Generates (envOf .linux layouts p out.routines r) exit 1 (.return_ span (some value)) part ∧
      ∃ first, part = first ++ handOver r exit 1 ∧
      ∃ w : Process, w.image.code = out.assembly.code ∧ ∃ i j s, Sits w.image.code i part ∧
        Sits w.image.code j (takeOver r) ∧ w.Returning r 0x8000 j firstBlock s ∧
        w.Owns allocations s ∧ (Ledger.empty.run allocations).regions.entries =
          Regions.framed [[firstBlock, secondBlock]] ∧
        w.image.Arrives (i + first.length) s
          (w.Resumed r 0x8000 j ⟨[], 0#64⟩ [secondBlock, firstBlock] s) := by
  obtain ⟨layouts, p, out, h, r, hr, hdepth, ⟨span, value, t, hst, hty, hpointer⟩, w, hcode, j, hj,
    hready⟩ := returningText_loaded
  obtain ⟨hreturning, howns⟩ := hready 3 (by decide)
  obtain ⟨exit, hexit, hparts⟩ := h.departs hr
  obtain ⟨part, hpart, hinfix⟩ := hparts _ _ _ (.here hst)
  rw [hdepth] at hpart
  obtain ⟨hle, first, rfl⟩ := handOver_of_generates hty hpointer hpart
  obtain ⟨i, hi⟩ := Sits.of_infix (hcode ▸ hinfix)
  refine ⟨layouts, p, out, h, r, hr, exit, span, value, t, _, hst, hty, hpointer, hpart, first, rfl,
    w, hcode, i, j, _, hi, hj, hreturning, howns, rfl, ?_⟩
  exact h.drops hr hcode hexit hle hi.right hj hreturning howns [] [] [firstBlock] rfl (by decide)
    rfl (by decide)

end Accepted

end RegionCompiler
