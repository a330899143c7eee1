import RegionCompiler.Proofs.Codegen.Activation

/-! Calls of functions within expressions. The caller stores the arguments in the area that it has
reserved, and finds the result above them when the function returns. -/
namespace RegionCompiler

namespace Semantics

section Evaluation

variable {call : String → List Int → Option Int} {store : Store} {e : Expr} {v : Int}

mutual
theorem computes_of_eval : ∀ (e : Expr) {v : Int}, eval call store e = some v →
    computes (fun _ => true) (fun _ => true) e
  | .integer _ _, v, h => by
    obtain ⟨k, hkind⟩ := kindOf_of_eval h
    simp [computes, hkind]
  | .boolean _ _, v, h => by
    obtain ⟨k, hkind⟩ := kindOf_of_eval h
    simp [computes, hkind]
  | .variable _ ⟨_, _, none⟩ _, v, h => by
    unfold eval at h
    split at h <;> cases h
  | .variable _ ⟨_, _, some ⟨name, kind⟩⟩ [], v, h => by
    obtain ⟨k, hkind⟩ := kindOf_of_eval h
    rw [eval, hkind] at h
    dsimp only at h
    split at h
    · rename_i hstack
      simp [computes, hkind, hstack]
    · cases h
  | .variable _ ⟨_, _, some ⟨name, kind⟩⟩ [.call _ arguments], v, h => by
    obtain ⟨k, hkind⟩ := kindOf_of_eval h
    cases kind with
    | function =>
      rw [eval, hkind] at h
      obtain ⟨vs, harguments, -⟩ := Option.bind_eq_some_iff.1 h
      simp [computes, hkind, computesAll_of_evalAll arguments harguments]
    | _ =>
      rw [eval, hkind] at h
      cases h
  | .parenthesized _ inner, v, h => by
    obtain ⟨k, hkind⟩ := kindOf_of_eval h
    rw [eval, hkind] at h
    simp [computes, hkind, computes_of_eval inner h]
  | .unary _ op operand, v, h => by
    obtain ⟨k, hkind⟩ := kindOf_of_eval h
    rw [eval, hkind] at h
    obtain ⟨u, hoperand, -⟩ := Option.bind_eq_some_iff.1 h
    simp [computes, hkind, computes_of_eval operand hoperand]
  | .binary _ op lhs rhs, v, h => by
    obtain ⟨k, hkind⟩ := kindOf_of_eval h
    rw [eval, hkind] at h
    simp only [Option.bind_eq_some_iff] at h
    obtain ⟨-, -, x, hlhs, y, hrhs, -⟩ := h
    simp [computes, hkind, computes_of_eval lhs hlhs, computes_of_eval rhs hrhs]
  | .conversion _ inner _, v, h => by
    obtain ⟨k, hkind⟩ := kindOf_of_eval h
    rw [eval, hkind] at h
    obtain ⟨u, hinner, -⟩ := Option.map_eq_some_iff.1 h
    simp [computes, hkind, computes_of_eval inner hinner]
  | .variable _ ⟨_, _, some _⟩ (.call _ _ :: _ :: _), v, h
  | .variable _ ⟨_, _, some _⟩ (.index _ _ :: _), v, h
  | .variable _ ⟨_, _, some _⟩ (.dereference _ :: _), v, h
  | .variable _ ⟨_, _, some _⟩ (.member _ _ :: _), v, h
  | .float _ _, v, h | .string _ _, v, h | .null _, v, h | .array _ _, v, h
  | .allocation _ _, v, h | .addressOf _ _ _ _, v, h | .construct _ _ _, v, h => by
    unfold eval at h
    split at h <;> cases h

theorem computesAll_of_evalAll : ∀ (es : List Expr) {vs : List Int},
    evalAll call store es = some vs →
    computesAll (fun _ => true) (fun _ => true) es
  | [], vs, h => rfl
  | e :: rest, vs, h => by
    simp only [evalAll, Option.bind_eq_some_iff, Option.map_eq_some_iff] at h
    obtain ⟨v, hfirst, us, hrest, -⟩ := h
    simp [computesAll, computes_of_eval e hfirst, computesAll_of_evalAll rest hrest]
end

end Evaluation

end Semantics

namespace Machine.Process

open Codegen Semantics

/-- The values of parameters lie in the area for arguments, which starts at a place of the stack. -/
def Passes (w : Process) (k : Int) (parameters : List StackVariable) (arguments : List Int)
    (m : Memory) : Prop :=
  List.Forall₂ (fun v x => ∀ offset kind, placedAt v = .ok offset → v.ty = Scalar.ty kind →
    kind.Holds m (w.at_ (k + offset)) x) parameters arguments

/-- The area for arguments of a function has room for its parameters. -/
def ArgumentsFit (r : Routine) : Prop :=
  ∀ v ∈ r.function.stack.parameters, ∀ {offset kind}, placedAt v = .ok offset →
    v.ty = Scalar.ty kind → offset + kind.bytes ≤ r.frame.arguments

theorem Passes.congr {w : Process} {k : Int} {vs : List StackVariable} {xs : List Int}
    {m m' : Memory} {size : Nat} (h : w.Passes k vs xs m)
    (hfit : ∀ v ∈ vs, ∀ {offset kind}, placedAt v = .ok offset → v.ty = Scalar.ty kind →
      offset + kind.bytes ≤ size)
    (hm : ∀ i, k ≤ i → i < k + size → m' (w.at_ i) = m (w.at_ i)) : w.Passes k vs xs m' := by
  induction h with
  | nil => exact .nil
  | @cons v x vs xs hfirst _ ih =>
    refine .cons (fun offset kind hoffset hkind => ?_)
      (ih fun u hu => hfit u (List.mem_cons_of_mem _ hu))
    have hin := hfit v List.mem_cons_self hoffset hkind
    refine (hfirst offset kind hoffset hkind).congr fun n hn => ?_
    rw [at_add]
    exact hm _ (by omega) (by omega)

/-- A function is called: the address to return to is on top of the stack, and its arguments lie
above it. -/
structure Invoked (w : Process) (r : Routine) (k : Int) (c : Collector.Regions)
    (arguments : List Int) (s : State) : Prop where
  rsp : s.registers .rsp = w.at_ k
  aligned : k % 16 = 8
  high : k + 8 + r.frame.arguments + r.frame.resultSlot ≤ w.high
  holds : w.Holds s.memory s.blocks c
  passes : w.Passes (k + 8) r.function.stack.parameters arguments s.memory

/-- What a function may write to: all that lies below the address to return to, its arguments and
its result. -/
def Writable (r : Routine) (k i : Int) : Prop :=
  i < k ∨ k + 8 ≤ i ∧ i < k + 8 + r.frame.arguments + r.frame.resultSlot

/-- A function is about to return a value. -/
structure Completed (w : Process) (r : Routine) (k : Int) (c : Collector.Regions) (v : Int)
    (s : State) (j : Nat) (t : State) : Prop where
  ret : w.image.code[j]? = some .ret
  rsp : t.registers .rsp = s.registers .rsp
  rbp : t.registers .rbp = s.registers .rbp
  result : ∃ kind, r.function.result.value = Scalar.ty kind ∧
    kind.Holds t.memory (w.at_ (k + 8 + r.frame.arguments)) v
  memory : ∀ x, w.Beyond (Writable r k) x → t.memory x = s.memory x
  holds : w.Holds t.memory t.blocks c
  spares : w.Spares s t

/-- Functions return what their calls mean, if the stack has room for them. At most so many frames
of the collector are open meanwhile. -/
def Answers (w : Process) (routines : List Routine) (call : String → List Int → Option Int)
    (room : String → Nat) (frames : Nat) : Prop :=
  ∀ r ∈ routines, ∀ {arguments v}, call r.name arguments = some v →
    r.frame.arguments + 8 ≤ room r.name ∧ ∀ {k c s}, w.Invoked r k c arguments s →
      w.low + room r.name ≤ k + 8 + r.frame.arguments →
      ∃ start, positionOf w.image.code (.symbol (functionSymbol r.name)) = some start ∧
        w.image.Arrives start s fun j t => w.Exhausted frames c s j t ∨ w.Completed r k c v s j t

end Machine.Process

namespace Codegen

open Machine Machine.Instr Semantics Typing

namespace Activation

section Arguments

variable {a : Activation} {n d size i : Nat} {store : Store} {e : Expr} {k : Scalar} {code : Code}
  {s : State} {v : Int}

theorem attempts_arrives (h : (a.setting n).Attempts store e k code)
    (hv : eval a.call store e = some v) (hsits : Sits a.process.image.code i code)
    (hat : (a.area n).At d s) (haligned : 16 ∣ d)
    (hroom : a.process.low + d + stackOf a.room e ≤ a.bottom) (hstored : a.Stored store s) :
    a.process.image.Arrives i s fun j t => a.Exhausted j t ∨
      j = i + code.length ∧ (a.area n).Pushes d (k.Fills · v) s t := by
  have hrun := h hsits hat haligned (by simp only [setting, area]; omega)
    (Setting.Backs.mono hstored.backs (Nat.zero_le d))
  have heval : eval (a.setting n).call store e = some v := hv
  rw [heval] at hrun
  exact hrun

theorem argument_arrives {here : Nat} (h : (a.setting n).Attempts store e k code)
    (hv : eval a.call store e = some v)
    (hsits : Sits a.process.image.code i (code ++ storeBelow here k.bytes))
    (hat : (a.area n).At d s) (haligned : 16 ∣ d) (hplace : here + k.bytes ≤ d)
    (hroom : a.process.low + d + stackOf a.room e ≤ a.bottom) (hstored : a.Stored store s) :
    a.process.image.Arrives i s fun j t => a.Exhausted j t ∨
      j = i + (code ++ storeBelow here k.bytes).length ∧ (a.area n).At d t ∧ a.Stored store t ∧
        k.Holds t.memory (a.process.at_ (a.bottom - d + here)) v ∧
        ∀ x, a.process.Beyond (fun p => p < a.bottom - d ∨
          a.bottom - d + here ≤ p ∧ p < a.bottom - d + here + k.bytes) x →
          t.memory x = s.memory x := by
  have hhigh := a.place_lt
  have hbottom := a.bottom_le
  have hstack := le_stackOf a.room e
  rw [storeBelow, k.slot_bytes] at hsits ⊢
  refine (attempts_arrives h hv hsits.left hat haligned hroom hstored).bind ?_
  rintro _ t₁ (hquits | ⟨rfl, hpushes⟩)
  · exact .here (.inl hquits)
  have hfills := hpushes.word
  rw [place_area] at hfills
  have haddress : t₁.address a.process.image.symbols (Address.stack (16 + here)) =
      a.process.at_ (a.bottom - d + here) := by
    rw [address_slot hpushes.at_ (by omega), place_area]
    congr 1
    omega
  refine (copyTop_arrives hsits.right.left hpushes.at_ (by omega) hfills
    (Address.avoids_stack (by decide) _) haddress (by omega) (by omega)).bind ?_
  rintro _ t₂ ⟨rfl, hat₂, hholds, hothers⟩
  refine (raise_arrives hsits.right.right hat₂).mono ?_
  rintro _ t ⟨rfl, hat, hmemory, -⟩
  have hkept : ∀ x, a.process.Beyond (fun p => p < a.bottom - d ∨
      a.bottom - d + here ≤ p ∧ p < a.bottom - d + here + k.bytes) x →
      t.memory x = s.memory x := by
    intro x hx
    rw [hmemory, hothers x (hx.mono fun p hp => .inr hp)]
    exact hpushes.kept x (safe_iff.2 (hx.mono fun p hp => .inl hp))
  rw [← hmemory] at hholds
  refine .inr ⟨by simp [Nat.add_assoc], hat, hstored.congr fun x hx => hkept x (hx.mono ?_), hholds,
    hkept⟩
  intro p hp
  show p < a.bottom
  omega

theorem argumentsCode_arrives (haligned : 16 ∣ d) (hsize : size ≤ d) : ∀ (es : List Expr)
    {types : List Ty} {vs placed : List StackVariable} {offset stop : Nat} {xs : List Int},
    (∀ e ∈ es, ∀ {r : Scalar}, computes (fun _ => true) (fun _ => true) e →
      HasType a.decls e r.ty → ∀ sup, Gives (exprCode a.env e) sup fun code _ =>
        (a.setting n).Attempts store e r code) →
    Takes a.decls types false es → Placed a.env.layouts offset vs placed stop → stop ≤ size →
    List.Forall₂ (fun v t => v.ty = t ∧ ∃ offset, placedAt v = .ok offset) placed types →
    evalAll a.call store es = some xs → ∀ sup, Yields (argumentsCode a.env placed es) sup
      fun code _ => ∀ {i s}, Sits a.process.image.code i code → (a.area n).At d s →
        a.Stored store s → a.process.low + d + stackOfAll a.room es ≤ a.bottom →
        a.process.image.Arrives i s fun j t => a.Exhausted j t ∨ j = i + code.length ∧
          (a.area n).At d t ∧ a.process.Passes (a.bottom - d) placed xs t.memory ∧
          ∀ x, a.process.Beyond (fun p => p < a.bottom - d ∨
            a.bottom - d + offset ≤ p ∧ p < a.bottom - d + size) x → t.memory x = s.memory x
  | [], types, vs, placed, offset, stop, xs, hes, htakes, hplaced, hstop, htypes, heval, sup => by
    cases htakes
    cases htypes
    cases heval
    rw [argumentsCode]
    exact .pure fun {i s} _ hat _ _ => .here (.inr ⟨rfl, hat, .nil, fun _ _ => rfl⟩)
  | e :: es, types, vs, placed, offset, stop, xs, hes, htakes, hplaced, hstop, htypes, heval,
      sup => by
    cases htakes with | @cons _ _ _ _ t _ hty hagrees hrest =>
    cases htypes with | @cons w _ others _ hw hothers =>
    obtain ⟨rfl, -⟩ := hw
    simp only [evalAll, Option.bind_eq_some_iff, Option.map_eq_some_iff] at heval
    obtain ⟨v, hv, us, hus, rfl⟩ := heval
    obtain ⟨k, hkind⟩ := kindOf_of_eval hv
    obtain rfl : t = k.ty := by
      rw [kindOf, hty.ty_eq] at hkind
      exact Scalar.ty_of_ofTy? hkind
    have hwty := Scalar.eq_of_agrees hagrees
    cases hplaced with | @cons _ w₀ l _ _ _ hl hplaced =>
    have hbytes : a.env.sizeOf w₀.ty = .ok k.bytes := by
      rw [show w₀.ty = k.ty from hwty, sizeOf_ty]
    obtain ⟨here, hhere⟩ : ∃ here, here = alignUp offset l.alignment := ⟨_, rfl⟩
    have hoffset : offset ≤ here := by
      rw [hhere]
      exact le_alignUp offset l.alignment
    have hl : l.size = k.bytes := by
      simpa [Env.sizeOf, Env.layoutOf, hl, bind, Except.bind, pure, Except.pure] using hbytes
    rw [← hhere, hl] at hplaced
    have hend := hplaced.le
    rw [← hhere, argumentsCode]
    refine .known hbytes (.bind fun value s₁ hvalue => .known rfl (.seq
      (argumentsCode_arrives haligned hsize es (fun e he => hes e (List.mem_cons_of_mem _ he)) hrest
        hplaced hstop hothers hus s₁) fun stores s₂ hstores => .pure ?_))
    intro i s hsits hat hstored hroom
    rw [stackOfAll] at hroom
    have hhigh := a.place_lt
    have hbottom := a.bottom_le
    have hattempts : (a.setting n).Attempts store e k value :=
      (hes e List.mem_cons_self (computes_of_eval e hv) hty sup).of_run hvalue
    refine (argument_arrives hattempts hv hsits.left hat haligned (by omega)
      (by omega) hstored).bind ?_
    rintro _ t (hquits | ⟨rfl, hat, hstored, hholds, hkept⟩)
    · exact .here (.inl hquits)
    refine (hstores hsits.right hat hstored (by omega)).mono ?_
    rintro _ u (hquits | ⟨rfl, hat, hpasses, hkept'⟩)
    · exact .inl hquits
    refine .inr ⟨by simp [Nat.add_assoc], hat, .cons ?_ hpasses, fun x hx => ?_⟩
    · rintro offset' kind hoffset' hkind'
      cases hoffset'
      obtain rfl : k = kind := Scalar.ty_inj (hwty.symm.trans hkind')
      refine hholds.congr fun n hn => hkept' _ ?_
      rw [Process.at_add]
      exact Process.beyond_at (by omega) (by omega) fun p hp => ⟨by omega, by omega⟩
    · rw [hkept' x (hx.mono fun p hp => by omega)]
      exact hkept x (hx.mono fun p hp => by omega)

end Arguments

section Calls

variable {a : Activation} {n d i : Nat} {store : Store} {k : Scalar} {s : State} {v : Int}
  {r : Routine} {xs : List Int}

theorem invoke_arrives (hanswers : a.process.Answers a.env.routines a.call a.room a.frames)
    (hr : r ∈ a.env.routines) (hv : a.call r.name xs = some v)
    (hresult : r.function.result.value = k.ty)
    (hi : a.process.image.code[i]? = some (.call (functionSymbol r.name)))
    (hat : (a.area n).At d s) (haligned : 16 ∣ d)
    (hframe : r.frame.arguments + r.frame.resultSlot ≤ d) (hfit : Process.ArgumentsFit r)
    (hpasses : a.process.Passes (a.bottom - d) r.function.stack.parameters xs s.memory)
    (hroom : a.process.low + a.room r.name + d ≤ a.bottom + r.frame.arguments) :
    a.process.image.Arrives i s fun j t => a.Exhausted j t ∨ j = i + 1 ∧ (a.area n).At d t ∧
      k.Holds t.memory (a.process.at_ (a.bottom - d + r.frame.arguments)) v ∧
      ∀ x, a.process.Beyond (fun p => p < a.bottom - d ∨ a.bottom - d ≤ p ∧
        p < a.bottom - d + r.frame.arguments + r.frame.resultSlot) x → t.memory x = s.memory x := by
  obtain ⟨hspace, hcall⟩ := hanswers r hr hv
  have hhigh := a.place_lt
  have hbottom := a.bottom_le
  have hrsp : s.registers .rsp = a.process.at_ (a.bottom - d) := by
    rw [← place_area a n]
    exact hat.rsp
  generalize hback : a.process.image.addressOf (i + 1) = back
  obtain ⟨hmemory, hholds, hpushed, hspares⟩ :=
    Process.push_tended hat.good.1 hrsp (by omega) (by omega) back
  generalize he : s.push back = e at hmemory hholds hpushed hspares
  obtain ⟨hrsp', hrbp⟩ : e.registers .rsp = a.process.at_ (a.bottom - d - 8) ∧
      e.registers .rbp = s.registers .rbp := by
    have hplace : a.bottom - d + -8 = a.bottom - d - 8 := by omega
    simp [← he, State.push, hrsp, hplace]
  have hbase : a.bottom - d - 8 + 8 = a.bottom - d := by omega
  have hinvoked : a.process.Invoked r (a.bottom - d - 8) (a.regions.enters n) xs e := by
    have haligned' := a.bottom_aligned
    refine ⟨hrsp', by omega, by omega, hholds, ?_⟩
    rw [hbase]
    exact hpasses.congr hfit fun p hp hp' => hpushed _
      (Process.beyond_at (by omega) (by omega) fun q hq => ⟨by omega, by omega⟩)
  obtain ⟨start, hstart, hruns⟩ := hcall hinvoked (by omega)
  refine .call hi hstart ?_
  rw [hback, he]
  refine hruns.bind ?_
  rintro j t (hquits | hdone)
  · exact .here (.inl (((hquits.after hspares).outside.mono (Nat.add_le_add_right hat.good.2.2
      a.frames)).after hat.good.2.1))
  have hpeek : t.peek = back := by
    have hsame : t.memory.word (a.process.at_ (a.bottom - d - 8)) =
        e.memory.word (a.process.at_ (a.bottom - d - 8)) := by
      refine Memory.word_congr fun p hp => hdone.memory _ ?_
      rw [Process.at_add]
      exact Process.beyond_at (by omega) (by omega) fun q hq => by
        unfold Process.Writable at hq
        omega
    rw [State.peek, hdone.rsp, hrsp', hsame, hmemory, Memory.word_put]
  obtain ⟨kind, hkind, hholds'⟩ := hdone.result
  obtain rfl : k = kind := Scalar.ty_inj (hresult.symm.trans hkind)
  refine .ret hdone.ret hi rfl (hpeek.trans hback.symm) (.here (.inr ⟨rfl, ⟨?_, ?_, ?_⟩, ?_, ?_⟩))
  · have hplace : a.bottom - d - 8 + 8 = a.bottom - d := by omega
    have hplace' := place_area a n d
    simp [State.drop, hdone.rsp, hrsp', hplace, ← hplace']
  · exact (hdone.rbp.trans hrbp).trans hat.rbp
  · exact ⟨hdone.holds, hat.good.2.1.trans (hspares.trans (hdone.spares.congr rfl rfl)),
      hat.good.2.2⟩
  · rwa [hbase] at hholds'
  · intro x hx
    rw [← hpushed x (hx.mono fun p hp => .inl hp)]
    refine hdone.memory x (hx.mono fun p hp => ?_)
    unfold Process.Writable at hp
    omega

theorem argumentsFit_of_placed {layouts : Registry} {vs : List StackVariable} {stop : Nat}
    (hbuiltin : Registry.initial.Le layouts)
    (h : Placed layouts 0 vs r.function.stack.parameters stop) (hstop : stop ≤ r.frame.arguments) :
    Process.ArgumentsFit r := by
  intro v hv offset kind hoffset hkind
  obtain ⟨here, l, hlies⟩ := h.lies v hv
  have hin := h.within hv hlies
  obtain rfl : offset = here := by
    have heq := placedAt_eq_ok.1 hoffset
    rw [hlies.1] at heq
    exact (Option.some.inj heq).symm
  have hsize : l.size = kind.bytes := by
    rw [← Scalar.sizeIn_ty hbuiltin kind, ← hkind]
    simp [sizeIn, Registry.sizeOf?, hlies.2]
  omega

theorem argumentsCode_gives_of_values {env : Env} : ∀ {arguments : List Expr}
    {parameters : List StackVariable},
    (∀ v ∈ parameters, (∃ size, env.sizeOf v.ty = .ok size) ∧ ∃ offset, placedAt v = .ok offset) →
    (∀ e ∈ arguments, ∀ s, Gives (exprCode env e) s fun _ _ => True) → ∀ s : Supply,
    Gives (argumentsCode env parameters arguments) s fun _ _ => True
  | [], parameters, hplaces, hvalues, s => by
    rw [argumentsCode]
    exact .pure trivial
  | e :: rest, [], hplaces, hvalues, s => by
    rw [argumentsCode]
    exact .pure trivial
  | e :: rest, v :: others, hplaces, hvalues, s => by
    obtain ⟨⟨⟨size, hsize⟩, offset, hoffset⟩, hothers⟩ := List.forall_mem_cons.1 hplaces
    obtain ⟨hvalue, hrest⟩ := List.forall_mem_cons.1 hvalues
    rw [argumentsCode]
    exact .lift hsize ((hvalue s).bind fun value s' _ => .lift hoffset
      ((argumentsCode_gives_of_values hothers hrest s').bind fun stores s'' _ => .pure trivial))

/-- Code of a call: the result and the arguments have their places before anything is evaluated. -/
def calling (r : Routine) (stored : Code) : Code :=
  lower r.frame.resultSlot ++ lower r.frame.arguments ++ stored ++
    [.call (functionSymbol r.name)] ++ raise r.frame.arguments

theorem exprCode_call {env : Env} {span span' : Span} {name : Located String}
    {ty : Option Ty} {arguments : List Expr} {sup : Supply} (hroutine : env.routine r.name = .ok r)
    (hstored : Gives (argumentsCode env r.function.stack.parameters arguments) sup
      fun _ _ => True) :
    Gives (exprCode env (.variable ⟨span, some k.ty⟩ ⟨name, ty, some ⟨r.name, .function⟩⟩
      [.call ⟨span', some k.ty⟩ arguments])) sup fun code sup' => ∃ stored,
      argumentsCode env r.function.stack.parameters arguments sup = .ok (stored, sup') ∧
      code = calling r stored := by
  have hscalar : (k.ty.isPointer || k.ty.isArray) = false := by cases k <;> rfl
  obtain ⟨stored, sup', hrun, -⟩ := hstored
  have hstored : Gives (argumentsCode env r.function.stack.parameters arguments) sup
      fun stored sup' => argumentsCode env r.function.stack.parameters arguments sup =
        .ok (stored, sup') := ⟨stored, sup', hrun, hrun⟩
  rw [exprCode]
  refine .lift rfl (.lift rfl (.lift rfl
    (.lift hroutine (hstored.bind fun stored sup' hrun => ?_))))
  rw [hscalar]
  exact .pure ⟨stored, hrun, by simp [calling]⟩

theorem calling_arrives (hanswers : a.process.Answers a.env.routines a.call a.room a.frames)
    (hr : r ∈ a.env.routines) (hv : a.call r.name xs = some v)
    (hresult : r.function.result.value = k.ty) (hslot : r.frame.resultSlot = 16)
    (hfit : Process.ArgumentsFit r) (harguments : 16 ∣ r.frame.arguments)
    {stored : Code} {bytes : Nat}
    (hstores : ∀ {i s}, Sits a.process.image.code i stored →
      (a.area n).At (d + 16 + r.frame.arguments) s → a.Stored store s →
      a.process.low + (d + 16 + r.frame.arguments : Nat) + bytes ≤ a.bottom →
      a.process.image.Arrives i s fun j t => a.Exhausted j t ∨ j = i + stored.length ∧
        (a.area n).At (d + 16 + r.frame.arguments) t ∧
        a.process.Passes (a.bottom - (d + 16 + r.frame.arguments : Nat))
          r.function.stack.parameters xs t.memory ∧
        ∀ x, a.process.Beyond (fun p => p < a.bottom - (d + 16 + r.frame.arguments : Nat) ∨
          a.bottom - (d + 16 + r.frame.arguments : Nat) + (0 : Nat) ≤ p ∧
            p < a.bottom - (d + 16 + r.frame.arguments : Nat) + r.frame.arguments) x →
          t.memory x = s.memory x)
    (hsits : Sits a.process.image.code i (calling r stored))
    (hat : (a.area n).At d s) (haligned : 16 ∣ d) (hstored : a.Stored store s)
    (hroom : a.process.low + d + 16 + a.room r.name + bytes ≤ a.bottom) :
    a.process.image.Arrives i s fun j t => a.Exhausted j t ∨
      j = i + (calling r stored).length ∧ (a.area n).Pushes d (k.Fills · v) s t := by
  obtain ⟨A, hA⟩ : ∃ A, r.frame.arguments = A := ⟨_, rfl⟩
  have hspace := (hanswers r hr hv).1
  rw [calling, hslot] at hsits ⊢
  rw [hA] at hsits hstores hspace harguments ⊢
  refine (lower_arrives hsits.left.left.left.left hat).bind ?_
  rintro _ t₁ ⟨rfl, hat₁, hkept₁, -⟩
  refine (lower_arrives (hsits.left.left.left.right.cast rfl) hat₁).bind ?_
  rintro _ t₂ ⟨rfl, hat₂, hkept₂, -⟩
  have hlowered : (a.area n).Keeps d s t₂ := hkept₁.trans (hkept₂.mono (by omega))
  have hstored₂ : a.Stored store t₂ :=
    hstored.congr (beyond_of_keeps (hlowered.mono (Nat.zero_le d)))
  refine (hstores (hsits.left.left.right.cast (by simp [Nat.add_assoc])) hat₂ hstored₂
    (by push_cast; omega)).bind ?_
  rintro _ t₃ (hquits | ⟨rfl, hat₃, hpasses, hkept₃⟩)
  · exact .here (.inl hquits)
  refine (invoke_arrives hanswers hr hv hresult
    (Sits.head (hsits.left.right.cast (by simp [Nat.add_assoc]))) hat₃ (by omega)
      (by omega) hfit hpasses
    (by push_cast; omega)).bind ?_
  rintro _ t₄ (hquits | ⟨rfl, hat₄, hholds, hkept₄⟩)
  · exact .here (.inl hquits)
  refine (raise_arrives (d := d + 16) (hsits.right.cast (by simp; omega))
    (by rwa [hA] at *)).mono ?_
  rintro _ t ⟨rfl, hat, hmemory, -⟩
  have hplace : (a.bottom - (d + 16 + A : Nat)) + A = a.bottom - (d + 16 : Nat) := by
    push_cast
    omega
  refine .inr ⟨by simp; omega, hat, fun x hx => ?_, ?_⟩
  · have hbeyond := safe_iff.1 hx
    rw [hmemory, hkept₄ x (hbeyond.mono fun p hp => ?_), hkept₃ x (hbeyond.mono fun p hp => ?_)]
    · exact hlowered x hx
    all_goals
      push_cast at hp
      omega
  · rw [hA, hplace, ← place_area a n] at hholds
    rw [hmemory]
    exact Scalar.holds_iff.1 hholds

theorem call_attempts (hanswers : a.process.Answers a.env.routines a.call a.room a.frames)
    {node node' : Node} {head : Head} {arguments : List Expr}
    (hes : ∀ e ∈ arguments, ∀ {r : Scalar}, computes (fun _ => true) (fun _ => true) e →
      HasType a.decls e r.ty → ∀ sup, Gives (exprCode a.env e) sup fun code _ =>
        (a.setting n).Attempts store e r code)
    (hcomputes : computes (fun _ => true) (fun _ => true)
      (.variable node head [.call node' arguments]))
    (h : HasType a.decls (.variable node head [.call node' arguments]) k.ty) (sup : Supply) :
    Gives (exprCode a.env (.variable node head [.call node' arguments])) sup fun code _ =>
      (a.setting n).Attempts store (.variable node head [.call node' arguments]) k code := by
  have hkind := kindOf_eq h
  obtain ⟨value, heval⟩ :
      ∃ value, eval a.call store (.variable node head [.call node' arguments]) = value := ⟨_, rfl⟩
  unfold computes at hcomputes
  simp only [Bool.and_eq_true] at hcomputes
  obtain ⟨-, hfunction, hall⟩ := hcomputes
  cases h with | reference h =>
  cases h with
  | value _ _ hleads => cases hleads
  | @call name _ _ _ _ binding span _ _ _ hdecl htakes hleads =>
  cases hleads
  obtain ⟨mangled, kind⟩ := binding
  obtain rfl : kind = .function := by simpa using hfunction
  obtain ⟨r, hr, rfl, hroutine, types, hshape, hfits, vs, stop, hplaced, hstop⟩ :=
    a.prepared.callee hdecl
  obtain ⟨hresult, rfl, rfl, rfl⟩ := Ty.function.inj hshape
  have hvalues (e : Expr) (he : e ∈ arguments) (sup : Supply) :
      Gives (exprCode a.env e) sup fun _ _ => True := by
    obtain ⟨t, hty⟩ := htakes.arguments e he
    obtain ⟨r, hr, -⟩ := computes_kind (computesAll_mem hall he)
    rw [kindOf, hty.ty_eq] at hr
    obtain rfl := Scalar.ty_of_ofTy? hr
    exact (hes e he (computesAll_mem hall he) hty sup).mono fun _ _ _ => trivial
  have hplaces (v : StackVariable) (hv : v ∈ r.function.stack.parameters) :
      (∃ size, a.env.sizeOf v.ty = .ok size) ∧ ∃ offset, placedAt v = .ok offset := by
    obtain ⟨here, l, hlies⟩ := hplaced.lies v hv
    refine ⟨⟨l.size, ?_⟩, here, placedAt_eq_ok.2 hlies.1⟩
    simp [Env.sizeOf, Env.layoutOf, hlies.2, bind, Except.bind, pure, Except.pure]
  have hstored := argumentsCode_gives_of_values hplaces hvalues sup
  refine (exprCode_call hroutine hstored).mono fun code sup' hcode {i d s} hsits hat haligned
    hroom hbacks => ?_
  obtain ⟨stored, hstored, rfl⟩ := hcode
  have hcall : (a.setting n).call = a.call := rfl
  cases value with
  | none =>
    rw [hcall, heval]
    exact .here trivial
  | some v =>
  rw [hcall, heval]
  rw [eval, hkind] at heval
  obtain ⟨xs, hxs, hv⟩ := Option.bind_eq_some_iff.1 heval
  have hslot : r.frame.resultSlot = 16 := by
    rw [Frame.resultSlot, hfits.result, ← hresult, Scalar.sizeIn_ty a.prepared.fits.initial]
    cases k <;> rfl
  simp only [setting, area, stackOf, Option.elim_some] at hroom
  have harguments := hfits.arguments
  refine calling_arrives hanswers hr hv hresult.symm hslot
    (argumentsFit_of_placed a.prepared.fits.initial hplaced hstop) harguments
    (argumentsCode_arrives (by omega) (by omega) arguments hes htakes hplaced hstop hfits.parameters
      hxs sup stored sup' hstored) hsits hat haligned (stored_of_backs hbacks) (by omega)

theorem scalar_of_eval {D : Decls} {call : String → List Int → Option Int} {e : Expr} {t : Ty}
    (h : HasType D e t) (hv : eval call store e = some v) : ∃ k : Scalar, t = k.ty := by
  obtain ⟨k, hkind⟩ := kindOf_of_eval hv
  rw [kindOf, h.ty_eq] at hkind
  exact ⟨k, Scalar.ty_of_ofTy? hkind⟩

theorem exprCode_arrives (hanswers : a.process.Answers a.env.routines a.call a.room a.frames)
    {e : Expr} (h : HasType a.decls e k.ty) (hv : eval a.call store e = some v)
    {sup sup' : Supply} {code : Code}
    (hrun : exprCode a.env e sup = .ok (code, sup')) (hsits : Sits a.process.image.code i code)
    (hat : (a.area n).At d s) (haligned : 16 ∣ d) (hstored : a.Stored store s)
    (hroom : a.process.low + d + stackOf a.room e ≤ a.bottom) :
    a.process.image.Arrives i s fun j t => a.Exhausted j t ∨
      j = i + code.length ∧ (a.area n).Pushes d (k.Fills · v) s t := by
  have hattempts : (a.setting n).Attempts store e k code :=
    (exprCode_attempts (c := a.setting n) (call_attempts hanswers) e
      (computes_of_eval e hv) h sup).of_run hrun
  exact attempts_arrives hattempts hv hsits hat haligned hroom hstored

end Calls

end Activation

end Codegen

end RegionCompiler
