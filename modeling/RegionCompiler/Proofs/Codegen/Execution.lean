import RegionCompiler.Proofs.Codegen.Assignment

/-! Simple statements do what they mean. Each of them ends at the place behind it, or at one of the
places around it that it may leave for: those of the loop and the exit of the function. -/
namespace RegionCompiler

namespace Semantics

mutual
/-- How much of the stack a statement takes for the values that it works on. -/
def stackOfStmt (call : String → Nat) : Stmt → Nat
  | .let_ _ _ _ _ value _ | .call _ value | .return_ _ (some value) => stackOf call value
  | .mut_ _ _ value => 16 + stackOf call value
  | .if_ _ condition yes => max (stackOf call condition) (stackOfBlock call yes)
  | .ifElse _ condition yes no =>
    max (stackOf call condition) (max (stackOfBlock call yes) (stackOfBlock call no))
  | .while_ _ condition body | .doWhile _ body condition =>
    max (stackOf call condition) (stackOfBlock call body)
  | .block _ body => stackOfBlock call body
  | _ => 0

def stackOfBlock (call : String → Nat) : Block → Nat
  | .mk _ _ statements => stackOfStmts call statements

def stackOfStmts (call : String → Nat) : List Stmt → Nat
  | [] => 0
  | st :: rest => max (stackOfStmt call st) (stackOfStmts call rest)
end

mutual
/-- How many frames of the collector a statement has open at once. -/
def framesOfStmt : Stmt → Nat
  | .if_ _ _ body | .while_ _ _ body | .doWhile _ body _ | .for_ _ _ _ _ body _
  | .block _ body => framesOfBlock body
  | .ifElse _ _ yes no => max (framesOfBlock yes) (framesOfBlock no)
  | _ => 0

def framesOfBlock : Block → Nat
  | .mk _ manual statements => framesOfStmts statements + if manual then 0 else 1

def framesOfStmts : List Stmt → Nat
  | [] => 0
  | st :: rest => max (framesOfStmt st) (framesOfStmts rest)
end

end Semantics

namespace Codegen

open Machine Machine.Instr Semantics Typing

theorem test_effect (symbols : String → Word) {s : State} {x : Int} (hx : Scalar.bool.Range x)
    (hrax : s.registers .rax = BitVec.ofInt 64 x) :
    ∃ f, s.effect symbols (.binary .test (.register .rax .dword) (.register .rax .dword)) =
      some (s.withFlags f) ∧ f.zero = some (decide (x = 0)) := by
  refine ⟨_, rfl, ?_⟩
  change some (decide (BitVec.setWidth 32 (BitVec.ofNat 64 ((s.registers .rax).toNat % 256 ^ 4)) &&&
    BitVec.setWidth 32 (BitVec.ofNat 64 ((s.registers .rax).toNat % 256 ^ 4)) = 0)) = _
  rw [hrax]
  rcases Scalar.range_bool.1 hx with rfl | rfl <;> rfl

namespace Activation

section Definitions

variable (a : Activation)

/-- The place for the result of the function holds it. -/
def Returned (v : Int) (t : State) : Prop :=
  ∃ k : Scalar, a.env.current.function.result.value = k.ty ∧
    k.Holds t.memory (a.process.at_ (a.place + a.env.current.frame.resultAt)) v

/-- Where a run stands when a statement has ended. -/
def Ends (exit : Label) (depth : Nat) (loop : Option Loop) (behind : Nat) :
    Semantics.Outcome × Store → Nat → State → Prop
  | (.normal, store), j, t => j = behind ∧ a.Here depth store t
  | (.broke, store), j, t => ∃ l, loop = some l ∧
      positionOf a.process.image.code (.label l.breaks) = some j ∧ a.Here l.depth store t
  | (.continued, store), j, t => ∃ l, loop = some l ∧
      positionOf a.process.image.code (.label l.continues) = some j ∧ a.Here l.depth store t
  | (.returned v, _), j, t => positionOf a.process.image.code (.label exit) = some j ∧
      (a.area (bodyDepth a.env.current.function)).At 0 t ∧ a.Returned v t

/-- The places around a statement that it may leave for. -/
structure Targets (exit : Label) (loop : Option Loop) : Prop where
  exit : ∃ j, positionOf a.process.image.code (.label exit) = some j
  breaks : ∀ l, loop = some l → ∃ j, positionOf a.process.image.code (.label l.breaks) = some j
  continues : ∀ l, loop = some l →
    ∃ j, positionOf a.process.image.code (.label l.continues) = some j

/-- Code does what a statement means, if the stack has room for its values. -/
def Performs (exit : Label) (depth : Nat) (loop : Option Loop)
    (meaning : Store → Option (Semantics.Outcome × Store)) (bytes : Nat) (code : Code) : Prop :=
  ∀ ⦃i s store o⦄, a.Targets exit loop → Sits a.process.image.code i code → a.Here depth store s →
    meaning store = some o → a.process.low + bytes ≤ a.bottom →
    a.Reaches i s (a.Ends exit depth loop (i + code.length) o)

def Checks (condition : Expr) (code : Code) : Prop :=
  ∀ ⦃n i s store x⦄, Sits a.process.image.code i code → a.Here n store s →
    eval a.call store condition = some x → a.process.low + stackOf a.room condition ≤ a.bottom →
    a.Reaches i s fun j t => j = i + code.length ∧ a.Here n store t ∧
      t.flags.zero = some (decide (x = 0))

end Definitions

section Simple

variable {a : Activation} {exit : Label} {depth : Nat} {loop : Option Loop} {i j e : Nat}
  {s t : State} {store : Store} {o : Semantics.Outcome × Store} {code : Code} {value : Expr}
  {ty u : Ty}
  {meaning : Store → Option (Semantics.Outcome × Store)} {bytes : Nat} {k : Scalar}

theorem performs_none (h : ∀ store, meaning store = none) :
    a.Performs exit depth loop meaning bytes code := by
  intro i s store o _ _ _ ho
  rw [h] at ho
  cases ho

theorem call_performs (hanswers : a.process.Answers a.env.routines a.call a.room a.frames)
    (h : HasType a.decls value u) (sup : Supply) :
    Yields (do
      let size ← a.env.sizeOf u
      return (← exprCode a.env value) ++ raise (slot size)) sup fun code _ =>
      a.Performs exit depth loop
        (fun store => (eval a.call store value).map fun _ => (.normal, store))
        (stackOf a.room value) code := by
  refine .lift fun size hsize => .bind fun code sup' hrun => .pure ?_
  intro i s store o _ hsits hhere ho hroom
  obtain ⟨x, hx, rfl⟩ := Option.map_eq_some_iff.1 ho
  obtain ⟨k, rfl⟩ := scalar_of_eval h hx
  obtain rfl : k.bytes = size := Except.ok.inj ((sizeOf_ty a k).symm.trans hsize)
  rw [k.slot_bytes] at hsits ⊢
  refine (value_reaches hanswers h hx hrun hsits.left hhere.at_ (Nat.dvd_zero 16) hhere.stored
    (by omega)).bind ?_
  rintro _ t ⟨rfl, hat, hstored, -, -⟩
  refine .of_arrives ((raise_arrives hsits.right hat).mono ?_)
  rintro _ u ⟨rfl, hat, hmemory, -⟩
  refine ⟨stays_of_memory hmemory, by simp [Nat.add_assoc], hat, hstored.congr fun x _ => ?_⟩
  rw [hmemory]

theorem letCode_performs (hanswers : a.process.Answers a.env.routines a.call a.room a.frames)
    (h : HasType a.decls value u) (hagrees : u.agrees ty) {mangled : String}
    (hdecl : a.decls.declares ⟨mangled, .local_⟩ ty) (name : String) (sup : Supply) :
    Yields (letCode a.env false ty name value (some mangled)) sup fun code _ =>
      a.Performs exit depth loop
        (fun store => (eval a.call store value).map fun v => (.normal, store.set mangled v))
        (stackOf a.room value) code := by
  refine .lift fun size hsize => .lift fun home hhome => .bind fun code sup' hrun => .pure ?_
  intro i s store o _ hsits hhere ho hroom
  obtain ⟨x, hx, rfl⟩ := Option.map_eq_some_iff.1 ho
  obtain ⟨k, rfl⟩ := scalar_of_eval h hx
  obtain rfl := Scalar.eq_of_agrees hagrees
  obtain rfl : k.bytes = size := Except.ok.inj ((sizeOf_ty a k).symm.trans hsize)
  obtain ⟨v, hv, e, rfl, hty, he⟩ := homed rfl hdecl
  obtain rfl : Address.frame e.start = home := Except.ok.inj (he.1.symm.trans hhome)
  have hleast := le_stackOf a.room value
  rw [k.slot_bytes, List.append_assoc] at hsits ⊢
  refine (value_reaches hanswers h hx hrun hsits.left hhere.at_ (Nat.dvd_zero 16) hhere.stored
    (by omega)).bind ?_
  rintro _ t ⟨rfl, hat, hstored, -, hfills⟩
  refine (assign_reaches hv he hty hsits.right hat (by decide) (by omega) hfills ?_ ?_
    hstored).mono ?_
  · exact Address.avoids_at (by decide) _
  · rw [State.address_frame, hat.rbp]
    exact a.process.displace_at _ _
  · rintro _ u ⟨rfl, hhere⟩
    exact ⟨by simp [storeVariable]; omega, hhere⟩

/-- The address waits below the value, and is loaded when the value is there. -/
theorem mut_reaches (hanswers : a.process.Answers a.env.routines a.call a.room a.frames)
    (h : HasType a.decls value k.ty) {v : StackVariable} {e : Extent} (hv : v ∈ a.stackVariables)
    (he : a.env.Occupies v e) (hty : v.ty = k.ty) {sup sup' : Supply}
    (hrun : exprCode a.env value sup = .ok (code, sup'))
    (hsits : Sits a.process.image.code i (pushAddress (Address.frame e.start) ++ (code ++
      ([mov Register.rax (Address.stack 16)] ++ (copy (Address.at_ .rax 0) top k.bytes ++
        raise 32)))))
    (hhere : a.Here depth store s) {x : Int} (hx : eval a.call store value = some x)
    (hroom : a.process.low + (16 + stackOf a.room value) ≤ a.bottom) :
    a.Reaches i s fun j t => j = i + (pushAddress (Address.frame e.start) ++ (code ++
      ([mov Register.rax (Address.stack 16)] ++ (copy (Address.at_ .rax 0) top k.bytes ++
        raise 32)))).length ∧ a.Here depth (store.set v.mangled x) t := by
  have hleast := le_stackOf a.room value
  have hlimit : 32 ≤ (a.area depth).limit := by
    simp only [area]
    omega
  refine .bind (.of_pushes (pushAddress_arrives hsits.left hhere.at_ (by omega))) ?_
  rintro _ s₁ ⟨rfl, hpushes⟩
  have haddress := hpushes.word
  rw [State.address_frame, hhere.at_.rbp] at haddress
  refine (value_reaches hanswers h hx hrun hsits.right.left hpushes.at_ (Nat.dvd_refl 16)
    (hhere.stored.congr (beyond_of_keeps hpushes.kept)) (by omega)).bind ?_
  rintro _ s₂ ⟨rfl, hat, hstored, hkept, hfills⟩
  have hloaded : s₂.read a.process.image.symbols (Address.stack 16) =
      displace (a.process.at_ a.place) e.start := by
    rw [State.read_memory, address_slot hat (by decide)]
    exact (hkept.word (by decide) (by omega)).trans haddress
  refine .step hsits.right.right.head (State.effect_mov_register ..) rfl ?_
  rw [hloaded]
  have hscratch : s₂.Scratches (s₂.set .rax (displace (a.process.at_ a.place) e.start)) :=
    .load (by decide) (by decide) s₂ _
  refine (assign_reaches hv he hty hsits.right.right.right (hat.scratch hscratch)
    (by decide) (by omega) hfills (Address.avoids_at (by decide) _) ?_
    (hstored.congr fun _ _ => rfl)).mono ?_
  · rw [State.address_at, State.registers_set, if_pos rfl, displace_displace, Int.add_zero]
    exact a.process.displace_at _ _
  · rintro _ u ⟨rfl, hhere⟩
    exact ⟨by simp; omega, hhere⟩

theorem mutCode_performs (hanswers : a.process.Answers a.env.routines a.call a.room a.frames)
    {name : Located String} {binding : Binding} (hstack : binding.kind.isStack)
    (hdecl : a.decls.declares binding ty) (h : HasType a.decls value u) (hagrees : u.agrees ty)
    (sup : Supply) :
    Yields (mutCode a.env ⟨⟨name, some ty, some binding⟩, []⟩ value) sup fun code _ =>
      a.Performs exit depth loop
        (fun store => (eval a.call store value).map fun v => (.normal, store.set binding.mangled v))
        (16 + stackOf a.room value) code := by
  obtain ⟨hfunction, home, hhome⟩ := a.prepared.fits.onStack hstack hdecl
  have hnone : Gives (accessorsCode a.env name.value ty []) sup fun steps _ => steps = [] := by
    rw [accessorsCode]
    exact .pure rfl
  obtain ⟨home', hhome', hplace⟩ := placeWith_home a.prepared.fits hdecl hfunction
    (fun t => accessorsCode a.env name.value t [])
    (fun binding => calledCode a.env name.value binding []) hnone
  rw [Env.home, if_pos hstack, hhome] at hhome'
  obtain rfl : home = home' := Except.ok.inj hhome'
  refine .known rfl (.lift fun size hsize => .bind fun place sup₁ hrun₁ => ?_)
  obtain ⟨_, rfl, rfl⟩ := hplace.of_run hrun₁
  refine .bind fun code sup₂ hrun => .pure ?_
  intro i s store o _ hsits hhere ho hroom
  obtain ⟨x, hx, rfl⟩ := Option.map_eq_some_iff.1 ho
  obtain ⟨k, rfl⟩ := scalar_of_eval h hx
  obtain rfl := Scalar.eq_of_agrees hagrees
  obtain rfl : k.bytes = size := Except.ok.inj ((sizeOf_ty a k).symm.trans hsize)
  obtain ⟨v, hv, e, hname, hty, he⟩ := homed hstack hdecl
  obtain rfl : Address.frame e.start = home := by
    have haddress := he.1
    rw [hname, hhome] at haddress
    exact (Except.ok.inj haddress).symm
  rw [k.slot_bytes, List.append_nil, List.append_assoc, List.append_assoc,
    List.append_assoc] at hsits ⊢
  refine (mut_reaches hanswers h hv he hty hrun hsits hhere hx hroom).mono ?_
  rintro _ t ⟨rfl, hhere⟩
  exact ⟨rfl, hname ▸ hhere⟩

theorem conditionCode_checks (hanswers : a.process.Answers a.env.routines a.call a.room a.frames)
    (h : HasType a.decls value Ty.bool) (sup : Supply) :
    Yields (conditionCode a.env value) sup fun code _ => a.Checks value code := by
  refine .bind fun code sup' hrun => .pure ?_
  intro n i s store x hsits hhere hx hroom
  refine (value_reaches (k := .bool) hanswers h hx hrun hsits.left.left.left hhere.at_
    (Nat.dvd_zero 16) hhere.stored (by omega)).bind ?_
  rintro _ t ⟨rfl, hat, hstored, -, hfills⟩
  have htop : t.address a.process.image.symbols top =
      a.process.at_ (a.bottom - (0 + 16 : Nat)) := by
    rw [address_top hat, place_area]
  have hholds : Scalar.bool.Holds t.memory (t.address a.process.image.symbols top) x := by
    rw [htop]
    exact Scalar.holds_iff.2 hfills
  refine .of_arrives (.step (Image.step_effect hsits.left.left.right.head
    (loadInteger_effect hholds .rax)) ?_)
  have hscratch : t.Scratches (t.set .rax (BitVec.ofInt 64 x)) :=
    .load (by decide) (by decide) t _
  refine (raise_arrives (d := 0) (hsits.left.right.cast (by simp; omega))
    (hat.scratch hscratch)).bind ?_
  rintro _ u ⟨rfl, hat, hmemory, hregisters⟩
  obtain ⟨f, htest, hzero⟩ := test_effect a.process.image.symbols hfills.range
    (show u.registers .rax = BitVec.ofInt 64 x by rw [hregisters .rax (by decide)]; simp)
  refine .step (Image.step_effect (Sits.head (hsits.right.cast (by simp; omega))) htest) (.here ?_)
  refine ⟨stays_of_memory hmemory, by simp; omega, ⟨hat.scratch (.withFlags _ _), ?_⟩, hzero⟩
  exact hstored.congr fun y _ => by rw [State.memory_withFlags, hmemory, State.memory_set]

theorem enters_reach {n m : Nat}
    (hsits : Sits a.process.image.code i (List.replicate m (.call Collector.enterSymbol)))
    (h : a.Here n store s) (hm : n + m ≤ a.nesting) :
    a.Reaches i s fun j t => j = i + m ∧ a.Here (n + m) store t := by
  induction m generalizing n i s with
  | zero => exact .here ⟨rfl, h⟩
  | succ m ih =>
    refine Image.Arrives.bind (enter_arrives hsits.head h (by omega)) ?_
    rintro _ t (hquits | ⟨rfl, hhere, hstays⟩)
    · exact .here (.inl hquits)
    refine Image.Arrives.mono (ih hsits.tail hhere (by omega)) fun j u => Or.imp_right ?_
    rintro ⟨hstays', rfl, hhere⟩
    rw [Nat.add_right_comm] at hhere
    exact ⟨hstays.trans hstays', by omega, hhere⟩

theorem leaves_reach {n m : Nat}
    (hsits : Sits a.process.image.code i (List.replicate m (.call Collector.exitSymbol)))
    (h : (a.area (n + m)).At 0 s) :
    a.Reaches i s fun j t => j = i + m ∧ (a.area n).At 0 t ∧
      ∀ x, a.process.Beyond (· < a.bottom) x → t.memory x = s.memory x :=
  .of_arrives ((leave_arrives hsits h).mono fun _ _ ht => ⟨stays_of_beyond ht.2.2, ht⟩)

theorem leave_reaches {target : Nat} {l : Label} (hcode : leaveFrames depth target = .ok code)
    (hsits : Sits a.process.image.code i (code ++ [jump l])) (hat : (a.area depth).At 0 s)
    (hl : positionOf a.process.image.code (.label l) = some e) :
    a.Reaches i s fun j t => j = e ∧ (a.area target).At 0 t ∧
      ∀ x, a.process.Beyond (· < a.bottom) x → t.memory x = s.memory x := by
  unfold leaveFrames at hcode
  split at hcode
  · cases hcode
  rename_i hle
  cases hcode
  obtain ⟨m, rfl⟩ := Nat.exists_eq_add_of_le (Nat.le_of_not_lt hle)
  rw [Nat.add_sub_cancel_left] at hsits
  refine (leaves_reach hsits.left hat).bind ?_
  rintro _ t ⟨rfl, hat, hbeyond⟩
  have hjump := hsits.right.head
  rw [List.length_replicate] at hjump
  exact .jump hjump hl (Reaches.here ⟨rfl, hat, hbeyond⟩)

theorem resultSlot_eq (h : a.env.current.function.result.value = k.ty) :
    a.env.current.frame.resultSlot = 16 := by
  rw [Frame.resultSlot, a.prepared.result, h, Scalar.sizeIn_ty a.prepared.fits.initial]
  cases k <;> rfl

theorem Returned.congr {v : Int} (h : a.Returned v s)
    (hm : ∀ x, a.process.Beyond (· < a.bottom) x → t.memory x = s.memory x) : a.Returned v t := by
  obtain ⟨k, hty, hholds⟩ := h
  have hlow := a.low_le
  have hbytes := k.bytes_le
  have hbottom := a.bottom_le
  have hhigh := a.high
  rw [resultSlot_eq hty] at hhigh
  simp only [Frame.resultAt] at hhigh hholds
  refine ⟨k, hty, hholds.congr fun n hn => hm _ ?_⟩
  rw [Process.at_add]
  exact Process.beyond_at (by omega) (by omega) fun q (hq : q < a.bottom) => ⟨by omega, by omega⟩

theorem resultCode_reaches (hanswers : a.process.Answers a.env.routines a.call a.room a.frames)
    (h : HasType a.decls value u) (hagrees : u.agrees a.env.current.function.result.value)
    (depth : Nat) (sup : Supply) :
    Yields (resultCode a.env value) sup fun code _ => ∀ {i s store x},
      Sits a.process.image.code i code → a.Here depth store s → eval a.call store value = some x →
      a.process.low + stackOf a.room value ≤ a.bottom →
      a.Reaches i s fun j t => j = i + code.length ∧ (a.area depth).At 0 t ∧ a.Returned x t := by
  refine .known (by rw [h.ty_eq]; rfl) (.lift fun size hsize => .bind fun code sup' hrun =>
    .pure ?_)
  intro i s store x hsits hhere hx hroom
  obtain ⟨k, rfl⟩ := scalar_of_eval h hx
  have hty := Scalar.eq_of_agrees hagrees
  obtain rfl : k.bytes = size := Except.ok.inj ((sizeOf_ty a k).symm.trans hsize)
  have hscalar : (k.ty.isPointer || k.ty.isArray) = false := by cases k <;> rfl
  have hleast := le_stackOf a.room value
  have hbytes := k.bytes_le
  have hbottom := a.bottom_le
  have hhigh := a.high
  rw [resultSlot_eq hty] at hhigh
  have hresult : a.place + 16 ≤ a.place + a.env.current.frame.resultAt := by
    simp only [Frame.resultAt]
    omega
  rw [k.slot_bytes, hscalar, if_neg (by decide), List.append_nil, List.append_assoc] at hsits ⊢
  refine (value_reaches hanswers h hx hrun hsits.left hhere.at_ (Nat.dvd_zero 16) hhere.stored
    (by omega)).bind ?_
  rintro _ t ⟨rfl, hat, -, -, hfills⟩
  refine .of_arrives ((settle_arrives (p := a.place + a.env.current.frame.resultAt) hsits.right hat
    (by decide) (by omega) hfills (Address.avoids_at (by decide) _) ?_ (by omega)
    (by omega)).mono ?_)
  · rw [State.address_frame, hat.rbp]
    exact a.process.displace_at _ _
  · rintro _ u ⟨rfl, hat, hholds, hothers⟩
    refine ⟨fun y hy => hothers y (hy.mono fun q hq => .inr ?_), by simp [Nat.add_assoc], hat,
      k, hty, hholds⟩
    rw [resultSlot_eq hty]
    omega

theorem returnCode_performs (hanswers : a.process.Answers a.env.routines a.call a.room a.frames)
    (h : HasType a.decls value u) (hagrees : u.agrees a.env.current.function.result.value)
    (sup : Supply) :
    Yields (returnCode a.env exit depth (some value)) sup fun code _ =>
      a.Performs exit depth loop
        (fun store => (eval a.call store value).map fun v => (.returned v, store))
        (stackOf a.room value) code := by
  refine .seq (resultCode_reaches hanswers h hagrees depth sup) fun code sup' hresult =>
    .lift fun leaving hleaving => .pure ?_
  intro i s store o htargets hsits hhere ho hroom
  obtain ⟨x, hx, rfl⟩ := Option.map_eq_some_iff.1 ho
  obtain ⟨e, he⟩ := htargets.exit
  rw [List.append_assoc] at hsits
  refine (hresult hsits.left hhere hx hroom).bind ?_
  rintro _ t ⟨rfl, hat, hreturned⟩
  refine (leave_reaches hleaving hsits.right hat he).mono ?_
  rintro _ u ⟨rfl, hat, hbeyond⟩
  exact ⟨he, hat, hreturned.congr hbeyond⟩

theorem leaveLoop_performs (outcome : Semantics.Outcome) (target : Loop → Label)
    (htarget : a.Targets exit loop → ∀ l, loop = some l →
      ∃ j, positionOf a.process.image.code (.label (target l)) = some j)
    (hends : ∀ {l behind j store t}, loop = some l →
      positionOf a.process.image.code (.label (target l)) = some j → a.Here l.depth store t →
      a.Ends exit depth loop behind (outcome, store) j t) (sup : Supply) :
    Yields (do
      let loop ← inLoop loop
      return (← leaveFrames depth loop.depth) ++ [jump (target loop)]) sup fun code _ =>
      a.Performs exit depth loop (fun store => some (outcome, store)) 0 code := by
  refine .lift fun l hl => .lift fun code hcode => .pure ?_
  intro i s store o htargets hsits hhere ho _
  obtain rfl : loop = some l := by
    cases loop <;> cases hl
    rfl
  cases ho
  obtain ⟨j, hj⟩ := htarget htargets l rfl
  refine (leave_reaches hcode hsits hhere.at_ hj).mono ?_
  rintro _ t ⟨rfl, hat, hbeyond⟩
  exact hends rfl hj ⟨hat, hhere.stored.congr hbeyond⟩

end Simple

end Activation

end Codegen

end RegionCompiler
