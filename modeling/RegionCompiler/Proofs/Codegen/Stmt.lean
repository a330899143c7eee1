import RegionCompiler.Codegen.Stmt
import RegionCompiler.Proofs.Codegen.Expr
import RegionCompiler.Proofs.Typing.Parts

/-! Code generation succeeds on every statement that obeys the rules, and the code leaves the stack
and the frames of the collector as it found them. -/
namespace RegionCompiler.Codegen

open Machine Machine.Instr Typing

/-- The same stack with another number of open frames. -/
def atFrames (a : Spot) (frames : Nat) : Spot := { a with frames := frames }

theorem atFrames_self {a : Spot} {frames : Nat} (h : a.frames = frames) :
    atFrames a frames = a := by
  subst h
  rfl

/-- The states of the labels around a statement: the exit of the function lies in the frame of its
body, and the labels of a loop in the frames around the loop. -/
def Around (exit : Label) (body : Nat) (loop : Option Loop) (a : Spot) (labels : Label → Spot) :
    Prop :=
  labels exit = atFrames a body ∧
    ∀ l, loop = some l →
      labels l.continues = atFrames a l.depth ∧ labels l.breaks = atFrames a l.depth

theorem Around.loop {exit : Label} {body depth : Nat} {loop : Option Loop} {a : Spot}
    {labels : Label → Spot} (h : Around exit body loop a labels) (hdepth : a.frames = depth)
    {continues breaks : Label} (hcontinues : labels continues = a) (hbreaks : labels breaks = a) :
    Around exit body (some ⟨continues, breaks, depth⟩) a labels := by
  refine ⟨h.1, ?_⟩
  rintro l ⟨⟩
  dsimp only
  rw [atFrames_self hdepth]
  exact ⟨hcontinues, hbreaks⟩

def Settles (n m : Nat) (exit : Label) (body depth : Nat) (loop : Option Loop) (code : Code) :
    Prop :=
  ∀ a : Spot, a.Aligned → a.frames = depth → Piece (Around exit body loop a) n m a code a

/-- No loop and no function around a statement has more frames open. -/
def Within (body depth : Nat) (loop : Option Loop) : Prop :=
  body ≤ depth ∧ ∀ l, loop = some l → l.depth ≤ depth

theorem Within.succ {body depth : Nat} {loop : Option Loop} (h : Within body depth loop) :
    Within body (depth + 1) loop :=
  ⟨Nat.le_succ_of_le h.1, fun l hl => Nat.le_succ_of_le (h.2 l hl)⟩

theorem Within.loop {body depth : Nat} {loop : Option Loop} (h : Within body depth loop)
    (continues breaks : Label) : Within body depth (some ⟨continues, breaks, depth⟩) := by
  refine ⟨h.1, ?_⟩
  rintro l ⟨⟩
  exact Nat.le_refl _

section Pieces

variable {C : (Label → Spot) → Prop} {n m : Nat} {a : Spot}

theorem Keeps.settles {n m : Nat} {code : Code} (h : Keeps n m code) {exit : Label}
    {body depth : Nat} {loop : Option Loop} : Settles n m exit body depth loop code :=
  fun a ha _ => h _ a ha

theorem enter_piece (ha : a.Aligned) :
    Piece C n n a [.call Collector.enterSymbol] (atFrames a (a.frames + 1)) :=
  .single fun _ _ => ⟨ha, rfl, by simp [Calls, atFrames]⟩

theorem exit_piece (ha : a.Aligned) :
    Piece C n n (atFrames a (a.frames + 1)) [.call Collector.exitSymbol] a :=
  .single fun _ _ => ⟨ha, rfl, by simp [Calls, atFrames, Collector.enterSymbol,
    Collector.exitSymbol]⟩

theorem leaveFrames_piece {depth target : Nat} (hle : target ≤ depth) :
    ∃ code, leaveFrames depth target = .ok code ∧
      ∀ (C : (Label → Spot) → Prop) (n : Nat) (a : Spot), a.Aligned →
        Piece C n n (atFrames a depth) code (atFrames a target) := by
  refine ⟨_, if_neg (by omega), fun C n a ha => ?_⟩
  obtain ⟨k, rfl⟩ := Nat.exists_eq_add_of_le hle
  rw [Nat.add_sub_cancel_left]
  induction k with
  | zero => exact .nil
  | succ k ih =>
    rw [List.replicate_succ]
    exact .append (exit_piece (a := atFrames a (target + k)) ha) (ih (by omega))

theorem storeVariable_piece (platform : Platform) (boxed : Bool) (home : Address) (size : Nat)
    (ha : a.Aligned) : Piece C n n a (storeVariable platform boxed home size) a := by
  unfold storeVariable
  split
  · refine .append (.append (.append (callC_piece platform (by simp [IsName]) _ ha)
      checkAllocation_piece) ?_) (.plain (copy_plain _ _ _))
    exact .append (.call ha (by decide) (by decide)) (.plain fun i hi => by
      rw [List.mem_singleton.1 hi]
      rfl)
  · exact .plain (copy_plain _ _ _)

theorem boundCheck_piece (iterator : Address) {stop : Label}
    (hstop : ∀ labels, C labels → labels stop = a) :
    Piece C n n (a.lower 16) (boundCheck iterator stop) a := by
  refine .append (.append (.plain (by decide)) (.raise a 16)) ?_
  refine .append (.plain (by decide) : Piece C n n a [.unary .dec Register.rcx] a)
    (.append (.jumpIf hstop) (.append (.plain fun i hi => ?_ : Piece C n n a
      [mov Register.rax iterator, .binary .cmp Register.rax Register.rcx] a) (.jumpIf hstop)))
  simp only [List.mem_cons, List.not_mem_nil, or_false] at hi
  rcases hi with rfl | rfl <;> rfl

end Pieces

section Statements

variable {env : Env} {D : Decls} {result : Ty}

theorem conditionCode_delivers (hE : env.Fits D) {condition : Expr}
    (h : HasType D condition Ty.bool)
    (s : Supply) :
    Delivers (conditionCode env condition) s fun code s' => Keeps s.labels s'.labels code := by
  refine .bind (exprCode_delivers hE condition h s) fun code s' hcode => .pure fun C a ha => ?_
  rw [slot_bool hE.initial] at hcode
  exact .append (.append (.append (hcode C a ha) (.plain (by decide))) (.raise a 16))
    (.plain (by decide))

theorem letCode_delivers (hE : env.Fits D) {ty t : Ty} {value : Expr} (hty : ty.Known D.layouts)
    (hvalue : HasType D value t) (hagrees : t.agrees ty) {mangled : String} {declared : Ty}
    (hdecl : D.declares ⟨mangled, .local_⟩ declared) (boxed : Bool) (name : String) (s : Supply) :
    Delivers (letCode env boxed ty name value (some mangled)) s fun code s' =>
      Keeps s.labels s'.labels code := by
  obtain ⟨-, home, hhome⟩ := hE.onStack rfl hdecl
  refine .lift (sizeOf_of_known (hE.known hty)) (.lift hhome (.bind
    (exprCode_delivers hE value hvalue s) fun code s' hcode => .pure fun C a ha => ?_))
  rw [← sizeIn_of_agrees hagrees (hE.known (hvalue.known hE.sound))] at hcode
  exact .append (.append (hcode C a ha)
    (storeVariable_piece _ _ _ _ (ha.lower (dvd_slot _)))) (.raise _ _)

theorem mutCode_delivers (hE : env.Fits D) {target : Place} {value : Expr} {t u : Ty}
    (htarget : Refers D target.head target.accessors t) (hvalue : HasType D value u)
    (hagrees : u.agrees t) (s : Supply) :
    Delivers (mutCode env target value) s fun code s' => Keeps s.labels s'.labels code := by
  refine .lift (placeTy_refers htarget) (.lift (sizeOf_of_known (hE.known
    (htarget.known hE.sound))) (.bind (placeCode_delivers hE htarget s) ?_))
  rintro ⟨place, kept⟩ s' ⟨hkept, hplace⟩
  refine .bind (exprCode_delivers hE value hvalue s') fun code s'' hcode => .pure fun C a ha => ?_
  rw [← sizeIn_of_agrees hagrees (hE.known (hvalue.known hE.sound))] at hcode
  have hbelow := ha.lower (Nat.dvd_add (by decide : 16 ∣ 16) hkept)
  refine .append (.append (.append (.append (hplace C a ha) (hcode C _ hbelow))
    (.plain fun i hi => ?_)) (.plain (copy_plain _ _ _))) ?_
  · rw [List.mem_singleton.1 hi]
    rfl
  · rw [Spot.lower_lower, Nat.add_comm, ← Nat.add_assoc]
    exact .raise _ _

theorem resultCode_delivers (hE : env.Fits D) {value : Expr} {t : Ty} (h : HasType D value t)
    (s : Supply) :
    Delivers (resultCode env value) s fun code s' => Keeps s.labels s'.labels code := by
  refine .lift (by rw [h.ty_eq]; rfl) (.lift (sizeOf_of_known (hE.known (h.known hE.sound)))
    (.bind (exprCode_delivers hE value h s) fun code s' hcode => .pure fun C a ha => ?_))
  refine .append (.append (.append (hcode C a ha) (.plain (copy_plain _ _ _))) (.raise _ _)) ?_
  split
  · exact .append (.plain (fun i hi => by rw [List.mem_singleton.1 hi]; rfl) : Piece C _ _ a
      [mov Register.rax (Address.frame env.current.frame.resultAt)] a)
      (.call ha (by decide) (by decide))
  · exact .nil

theorem leave_settles {depth target n body : Nat} {code : Code} {exit l : Label}
    {loop : Option Loop}
    (hcode : ∀ (C : (Label → Spot) → Prop) (n : Nat) (a : Spot), a.Aligned →
      Piece C n n (atFrames a depth) code (atFrames a target))
    (hlabel : ∀ a labels, Around exit body loop a labels → labels l = atFrames a target) :
    Settles n n exit body depth loop (code ++ [jump l]) := by
  intro a ha hdepth
  have hstart := hcode (Around exit body loop a) n a ha
  rw [atFrames_self hdepth] at hstart
  exact .append hstart (.jump fun labels h => hlabel a labels h)

theorem returnCode_delivers (hE : env.Fits D) {value : Option Expr}
    (h : ∀ e, value = some e → ∃ t, HasType D e t) {exit : Label} {depth : Nat}
    {loop : Option Loop} (hwithin : Within (bodyDepth env.current.function) depth loop)
    (s : Supply) :
    Delivers (returnCode env exit depth value) s fun code s' =>
      Settles s.labels s'.labels exit (bodyDepth env.current.function) depth loop code := by
  obtain ⟨code, hcode, hpiece⟩ := leaveFrames_piece hwithin.1
  have hfinish : ∀ {stored : Code} {s' : Supply}, Keeps s.labels s'.labels stored →
      Settles s.labels s'.labels exit (bodyDepth env.current.function) depth loop
        (stored ++ code ++ [jump exit]) := by
    intro stored s' hstored a ha hdepth
    rw [List.append_assoc]
    exact .append (hstored _ a ha) (leave_settles hpiece (fun a labels h => h.1) a ha hdepth)
  unfold returnCode
  cases value with
  | none =>
    refine .bind (P := fun stored s' => Keeps s.labels s'.labels stored) (.pure ?_)
      fun stored s' hstored => .lift hcode (.pure (hfinish hstored))
    exact fun C a _ => .nil
  | some value =>
    obtain ⟨t, ht⟩ := h value rfl
    exact .bind (resultCode_delivers hE ht s) fun stored s' hstored =>
      .lift hcode (.pure (hfinish hstored))

mutual
/-- Statements that obey the rules leave everything as they found it, and so does every way out of
them. -/
theorem stmtCode_delivers (hE : env.Fits D) : ∀ (st : Stmt) {inLoop : Bool},
    StmtOk D result inLoop st → ∀ {exit : Label} {depth : Nat} {loop : Option Loop},
    Within (bodyDepth env.current.function) depth loop → inLoop = loop.isSome → ∀ s : Supply,
    Delivers (stmtCode env exit depth loop st) s fun code s' =>
      Settles s.labels s'.labels exit (bodyDepth env.current.function) depth loop code
  | .let_ span allocate ty name value mangled, inLoop, h, exit, depth, loop, hw, hin, s => by
    cases h with | let_ hty hvalue hagrees hdecl
    rw [stmtCode]
    exact (letCode_delivers hE hty hvalue hagrees hdecl _ _ s).mono fun code s' h => h.settles
  | .mut_ span target value, inLoop, h, exit, depth, loop, hw, hin, s => by
    cases h with | mut_ htarget hcall hvalue hagrees
    rw [stmtCode]
    exact (mutCode_delivers hE htarget hvalue hagrees s).mono fun code s' h => h.settles
  | .call span value, inLoop, h, exit, depth, loop, hw, hin, s => by
    cases h with | call hcall hvalue
    rw [stmtCode]
    refine .lift (by rw [hvalue.ty_eq]; rfl) (.lift (sizeOf_of_known (hE.known
      (hvalue.known hE.sound))) (.bind (exprCode_delivers hE value hvalue s) fun code s' hcode =>
      .pure fun a ha _ => ?_))
    exact .append (hcode _ a ha) (.raise _ _)
  | .collect span value, inLoop, h, exit, depth, loop, hw, hin, s => by
    cases h with | collect hvalue haddress
    rw [stmtCode]
    refine .bind (exprCode_delivers hE value hvalue s) fun code s' hcode => .pure fun a ha _ => ?_
    rw [slot_address haddress] at hcode
    exact .append (.append (hcode _ a ha) (popRax_piece a)) (.call ha (by decide) (by decide))
  | .return_ span none, inLoop, h, exit, depth, loop, hw, hin, s => by
    rw [stmtCode]
    exact returnCode_delivers hE (by simp) hw s
  | .return_ span (some value), inLoop, h, exit, depth, loop, hw, hin, s => by
    cases h with | return_ hresult hvalue hagrees
    rw [stmtCode]
    exact returnCode_delivers hE (by rintro e ⟨⟩; exact ⟨_, hvalue⟩) hw s
  | .break_ span, inLoop, h, exit, depth, loop, hw, hin, s => by
    cases h
    obtain ⟨l, rfl⟩ := Option.isSome_iff_exists.1 hin.symm
    obtain ⟨code, hcode, hpiece⟩ := leaveFrames_piece (hw.2 l rfl)
    rw [stmtCode]
    exact .lift rfl (.lift hcode (.pure (leave_settles hpiece fun a labels h => (h.2 l rfl).2)))
  | .continue_ span, inLoop, h, exit, depth, loop, hw, hin, s => by
    cases h
    obtain ⟨l, rfl⟩ := Option.isSome_iff_exists.1 hin.symm
    obtain ⟨code, hcode, hpiece⟩ := leaveFrames_piece (hw.2 l rfl)
    rw [stmtCode]
    exact .lift rfl (.lift hcode (.pure (leave_settles hpiece fun a labels h => (h.2 l rfl).1)))
  | .if_ span condition yes, inLoop, h, exit, depth, loop, hw, hin, s => by
    cases h with | if_ hcondition hyes
    rw [stmtCode]
    refine .freshLabel (.freshLabel (.bind (conditionCode_delivers hE hcondition _)
      fun check s₁ hcheck => .bind (blockCode_delivers hE yes hyes hw hin s₁)
      fun yes s₂ hyes => .pure fun a ha hdepth => ?_))
    refine .fresh a (.fresh a ?_)
    refine .append (.append (.append (hcheck _ a ha) (.jumpIf fun labels h => h.1.2))
      ((hyes a ha hdepth).mono fun labels h => h.1.1)) ?_
    exact .append (.jump fun labels h => h.2) (.append (.label fun labels h => h.1.2)
      (.label fun labels h => h.2))
  | .ifElse span condition yes no, inLoop, h, exit, depth, loop, hw, hin, s => by
    cases h with | ifElse hcondition hyes hno
    rw [stmtCode]
    refine .freshLabel (.freshLabel (.bind (conditionCode_delivers hE hcondition _)
      fun check s₁ hcheck => .bind (blockCode_delivers hE yes hyes hw hin s₁)
      fun yes s₂ hyes => .bind (blockCode_delivers hE no hno hw hin s₂)
      fun no s₃ hno => .pure fun a ha hdepth => ?_))
    refine .fresh a (.fresh a ?_)
    refine .append (.append (.append (.append (.append (hcheck _ a ha)
      (.jumpIf fun labels h => h.1.2)) ((hyes a ha hdepth).mono fun labels h => h.1.1)) ?_)
      ((hno a ha hdepth).mono fun labels h => h.1.1)) (.label fun labels h => h.2)
    exact .append (.jump fun labels h => h.2) (.label fun labels h => h.1.2)
  | .while_ span condition body, inLoop, h, exit, depth, loop, hw, hin, s => by
    cases h with | while_ hcondition hbody
    rw [stmtCode]
    refine .freshLabel (.freshLabel (.bind (conditionCode_delivers hE hcondition _)
      fun check s₁ hcheck => .bind (blockCode_delivers hE body hbody (hw.loop _ _) rfl s₁)
      fun body s₂ hbody => .pure fun a ha hdepth => ?_))
    refine .fresh a (.fresh a ?_)
    refine .append (.append (.append (.append (.label fun labels h => h.1.2) (hcheck _ a ha))
      (.jumpIf fun labels h => h.2)) ((hbody a ha hdepth).mono fun labels h => ?_)) ?_
    · exact h.1.1.loop hdepth h.1.2 h.2
    · exact .append (.jump fun labels h => h.1.2) (.label fun labels h => h.2)
  | .doWhile span body condition, inLoop, h, exit, depth, loop, hw, hin, s => by
    cases h with | doWhile hbody hcondition
    rw [stmtCode]
    refine .freshLabel (.freshLabel (.freshLabel (.bind
      (blockCode_delivers hE body hbody (hw.loop _ _) rfl _) fun body s₁ hbody => .bind
      (conditionCode_delivers hE hcondition s₁) fun check s₂ hcheck => .pure
        fun a ha hdepth => ?_)))
    refine .fresh a (.fresh a (.fresh a ?_))
    refine .append (.append (.append (.append (.label fun labels h => h.1.1.2)
      ((hbody a ha hdepth).mono fun labels h => ?_)) (.label fun labels h => h.1.2))
      (hcheck _ a ha)) ?_
    · exact h.1.1.1.loop hdepth h.1.2 h.2
    · exact .append (.jumpIf fun labels h => h.1.1.2) (.label fun labels h => h.2)
  | .for_ span iterator start stop body mangled, inLoop, h, exit, depth, loop, hw, hin, s => by
    cases h with | for_ hstart hstop hdecl hbody
    obtain ⟨-, home, hhome⟩ := hE.onStack rfl hdecl
    rw [stmtCode]
    refine .lift hhome (.freshLabel (.freshLabel (.freshLabel (.bind
      (exprCode_delivers hE start hstart _) fun start s₁ hstart => .bind
      (exprCode_delivers hE stop hstop s₁) fun stop s₂ hstop => .bind
      (blockCode_delivers hE body hbody (hw.loop _ _) rfl s₂) fun body s₃ hbody =>
      .pure fun a ha hdepth => ?_))))
    rw [slot_int hE.initial] at hstart hstop
    refine .fresh a (.fresh a (.fresh a ?_))
    refine .append (.append (.append (.append (.append (.append (hstart _ a ha) (popRax_piece a))
      ?_) (hstop _ a ha)) (boundCheck_piece home fun labels h => h.2))
      ((hbody a ha hdepth).mono fun labels h => ?_)) ?_
    · exact .append (.plain fun i hi => by rw [List.mem_singleton.1 hi]; rfl : Piece _ _ _ a
        [mov home Register.rax] a) (.label fun labels h => h.1.1.2)
    · exact h.1.1.1.loop hdepth h.1.2 h.2
    · refine .append (.label fun labels h => h.1.2) (.append (.plain fun i hi => ?_ : Piece _ _ _ a
        [.unary .inc home] a) (.append (.jump fun labels h => h.1.1.2)
        (.label fun labels h => h.2)))
      rw [List.mem_singleton.1 hi]
      rfl
  | .block span body, inLoop, h, exit, depth, loop, hw, hin, s => by
    cases h with | block hbody
    rw [stmtCode]
    exact blockCode_delivers hE body hbody hw hin s

theorem blockCode_delivers (hE : env.Fits D) : ∀ (b : Block) {inLoop : Bool},
    BlockOk D result inLoop b → ∀ {exit : Label} {depth : Nat} {loop : Option Loop},
    Within (bodyDepth env.current.function) depth loop → inLoop = loop.isSome → ∀ s : Supply,
    Delivers (blockCode env exit depth loop b) s fun code s' =>
      Settles s.labels s'.labels exit (bodyDepth env.current.function) depth loop code
  | .mk span true statements, inLoop, h, exit, depth, loop, hw, hin, s => by
    cases h with | mk h
    rw [blockCode]
    exact stmtsCode_delivers hE statements h hw hin s
  | .mk span false statements, inLoop, h, exit, depth, loop, hw, hin, s => by
    cases h with | mk h
    rw [blockCode]
    refine .bind (stmtsCode_delivers hE statements h hw.succ hin s) fun body s' hbody =>
      .pure fun a ha hdepth => ?_
    exact .append (.append (enter_piece ha) (hbody (atFrames a (a.frames + 1)) ha
      (by rw [atFrames, hdepth]))) (exit_piece ha)

theorem stmtsCode_delivers (hE : env.Fits D) : ∀ (statements : List Stmt) {inLoop : Bool},
    StmtsOk D result inLoop statements → ∀ {exit : Label} {depth : Nat} {loop : Option Loop},
    Within (bodyDepth env.current.function) depth loop → inLoop = loop.isSome → ∀ s : Supply,
    Delivers (stmtsCode env exit depth loop statements) s fun code s' =>
      Settles s.labels s'.labels exit (bodyDepth env.current.function) depth loop code
  | [], inLoop, h, exit, depth, loop, hw, hin, s => by
    rw [stmtsCode]
    exact .pure fun a _ _ => .nil
  | st :: rest, inLoop, h, exit, depth, loop, hw, hin, s => by
    cases h with | cons hfirst hrest
    rw [stmtsCode]
    exact .bind (stmtCode_delivers hE st hfirst hw hin s) fun first s₁ hfirst =>
      .bind (stmtsCode_delivers hE rest hrest hw hin s₁) fun others s₂ hothers =>
      .pure fun a ha hdepth => .append (hfirst a ha hdepth) (hothers a ha hdepth)
end

end Statements

section Functions

variable {C : (Label → Spot) → Prop} {n : Nat}

/-- Where the locals of a function have been reserved. -/
def inFrame (locals : Nat) : Spot := (Spot.mk ⟨-8, some (-8)⟩ 0).lower locals

theorem inFrame_aligned {locals : Nat} (h : 16 ∣ locals) : (inFrame locals).Aligned := by
  have hframe : (Spot.mk ⟨-8, some (-8)⟩ 0).Aligned := rfl
  exact hframe.lower h

theorem functionSymbol_not_trap (name : String) : ¬ isTrap (functionSymbol name) := by
  have hf : (functionSymbol name).toList.head? = some 'f' := by
    simp [functionSymbol, String.toList_append]
  rintro (h | h)
  · rw [h] at hf
    exact absurd hf (by decide)
  · rw [h] at hf
    exact absurd hf (by decide)

theorem prologue_piece (locals : Nat) :
    Piece C n n .entry (Collector.prologue ++ lower locals) (inFrame locals) := by
  refine .append (.of fun labels _ => ?_) (.lower _ _)
  exact .cons (b := ⟨⟨-8, none⟩, 0⟩) ⟨rfl, rfl, rfl⟩ (.single ⟨rfl, rfl, rfl⟩)

/-- The base pointer gives the stack back, whatever lies on it. -/
theorem epilogue_piece {a : Spot} (hbase : a.rbp = some (-8)) (hframes : a.frames = 0) :
    Piece C n n a Collector.epilogue .entry := by
  obtain ⟨⟨rsp, rbp⟩, frames⟩ := a
  subst hbase hframes
  exact .of fun _ _ => .cons (b := ⟨⟨-8, some (-8)⟩, 0⟩) ⟨rfl, rfl, rfl⟩
    (.cons (b := .entry) ⟨rfl, rfl, rfl⟩ (.single ⟨rfl, rfl⟩))

/-- The body of a function that is not manual has a frame of its own. -/
theorem enterBody_piece {a : Spot} (ha : a.Aligned) (hframes : a.frames = 0) (f : Function) :
    Piece C n n a (if f.body.manual then [] else [.call Collector.enterSymbol])
      (atFrames a (bodyDepth f)) := by
  unfold bodyDepth
  split
  · rw [atFrames_self hframes]
    exact .nil
  · have h := enter_piece (C := C) (n := n) ha
    rw [hframes] at h
    exact h

theorem exitBody_piece {a : Spot} (ha : a.Aligned) (hframes : a.frames = 0) (f : Function) :
    Piece C n n (atFrames a (bodyDepth f))
      (if f.body.manual then [] else [.call Collector.exitSymbol]) a := by
  unfold bodyDepth
  split
  · rw [atFrames_self hframes]
    exact .nil
  · have h := exit_piece (C := C) (n := n) ha
    rw [hframes] at h
    exact h

/-- Functions are entered with nothing on the stack and leave it so, with all frames of the
collector closed. -/
theorem functionCode_delivers {env : Env} {D : Decls} (hE : env.Fits D) {result : Ty}
    (hbody : BlockOk D result false env.current.function.body)
    (hlocals : 16 ∣ env.current.frame.locals) (s : Supply) :
    Delivers (functionCode env) s fun code s' =>
      .symbol (functionSymbol env.current.name) ∈ code ∧
      Piece (fun _ => True) s.labels s'.labels .entry code .entry := by
  refine .freshLabel (.bind (stmtsCode_delivers hE _ hbody.statements
    ⟨Nat.le_refl _, by simp⟩ rfl _)
    fun body s' hbody => .pure ⟨by simp, ?_⟩)
  have ha := inFrame_aligned hlocals
  have hsettled := hbody (atFrames (inFrame env.current.frame.locals)
    (bodyDepth env.current.function)) ha rfl
  refine .fresh (atFrames (inFrame env.current.frame.locals) (bodyDepth env.current.function)) ?_
  rw [List.append_assoc [_, _]]
  refine .append (.append (.append (.append (.append (.append ?_ (prologue_piece _))
    (enterBody_piece ha rfl _)) (hsettled.mono fun labels h => ⟨h.2, by simp⟩))
    (.label fun labels h => h.2)) (exitBody_piece ha rfl _)) (epilogue_piece rfl rfl)
  exact .append (.plain fun i hi => by rw [List.mem_singleton.1 hi]; rfl : Piece _ _ _ .entry
    [.comment _] .entry) (.single fun labels _ => ⟨functionSymbol_not_trap _, rfl, rfl⟩)

end Functions

end RegionCompiler.Codegen
