import RegionCompiler.Proofs.Codegen.Assembled
import RegionCompiler.Proofs.Compilation

/-! What the code of statements, functions and programs is put together from. -/
namespace RegionCompiler.Codegen

open Machine Machine.Instr Typing

/-- Something holds of all expressions in statements, those of the blocks within them included. -/
def Throughout (Q : Expr → Prop) (statements : List Stmt) (depth : Nat) (inLoop : Bool) : Prop :=
  ∀ st d l, Stmt.Occurs st d l statements depth inLoop →
    ∀ part ∈ st.parts, ∀ e, Expr.Occurs e part → Q e

namespace Throughout

variable {Q : Expr → Prop} {statements : List Stmt} {depth : Nat} {inLoop : Bool}

theorem mono (h : Throughout Q statements depth inLoop) {others : List Stmt}
    (hle : ∀ st ∈ others, st ∈ statements) : Throughout Q others depth inLoop := by
  intro st d l hocc
  refine h st d l ?_
  cases hocc with
  | here hmem => exact .here (hle _ hmem)
  | inside hmem hblock hocc => exact .inside (hle _ hmem) hblock hocc

theorem here {st : Stmt} (h : Throughout Q [st] depth inLoop) :
    ∀ part ∈ st.parts, ∀ e, Expr.Occurs e part → Q e :=
  h st depth inLoop (.here (by simp))

theorem block {st : Stmt} (h : Throughout Q [st] depth inLoop) {b : Block} {l : Bool}
    (hb : (b, l) ∈ st.blocks inLoop) : Throughout Q b.statements (depth + b.frames) l :=
  fun st' d l' hocc => h st' d l' (.inside (by simp) hb hocc)

theorem occurs (h : Throughout Q statements depth inLoop) {st : Stmt} {d : Nat} {l : Bool}
    (hocc : st.Occurs d l statements depth inLoop) : Throughout Q [st] d l := by
  induction hocc with
  | here hst => exact h.mono (by simpa using hst)
  | @inside _ _ _ other _ _ hother hblock _ ih =>
    have hone : Throughout Q [other] _ _ := h.mono (by simpa using hother)
    exact ih (hone.block hblock)

end Throughout

@[simp] theorem leaveFrames_ne_overflow (depth target : Nat) :
    leaveFrames depth target ≠ .error .overflow := by
  unfold leaveFrames
  split <;> simp

@[simp] theorem inLoop_ne_overflow (loop : Option Loop) : inLoop loop ≠ .error .overflow := by
  cases loop <;> simp [inLoop]

section Statements

variable {env : Env} {D : Decls} {Q : Expr → Prop} {outside : Label → Prop} {result : Ty}
  {s s' : Supply}

theorem conditionCode_makes (hE : env.Fits D) {condition : Expr} (h : HasType D condition Ty.bool)
    (hQ : ∀ x, Expr.Occurs x condition → Q x) (s : Supply) :
    Forms (env.Exceeds Q) (conditionCode env condition) s fun code s' =>
      Makes env D Q outside condition.literals s code s' :=
  .seq (exprCode_makes hE condition h hQ s) fun _ _ hcode =>
    .pure (.followed (.followed (.followed hcode (.visible rfl)) (.visible rfl)) (.visible rfl))

theorem storeVariable_makes {boxed : Bool} {mangled : String} {t : Ty} {home : Address} {size : Nat}
    (hdecl : D.declares ⟨mangled, .local_⟩ (if boxed then t.withModifier .pointer else t))
    (hhome : env.variableAddress mangled = .ok home) (hsize : env.sizeOf t = .ok size)
    (platform : Platform) :
    Makes env D Q outside [] s (storeVariable platform boxed home size) s := by
  have hcall : (Collector.callC platform "calloc"
      [.immediate 1, .immediate (max size 1 : Nat)]).all Instr.isFixed := by
    obtain ⟨system, convention⟩ := platform
    cases system <;> cases convention <;> rfl
  have hn : env.IsSize size := ⟨t, hsize⟩
  cases boxed with
  | true =>
    refine .followed (.followed (.followed (.visible hcall) (.visible rfl)) ?_)
      (.leaf (.copy (.pointed hn) (.pointed hn)))
    exact .followed (.visible rfl : Makes _ _ _ _ _ _ [.call Collector.pushSymbol] _)
      (.leaf (.home hhome (by simp)))
  | false => exact .leaf (.copy (.home hdecl hhome hsize) (.pointed hn))

theorem placeCode_makes (hE : env.Fits D) {p : Place} {t : Ty} (h : Refers D p.head p.accessors t)
    {node : Node} (hQ : ∀ x, Expr.Occurs x (.variable node p.head p.accessors) → Q x) (s : Supply) :
    Forms (env.Exceeds Q) (placeCode env p) s fun r s' =>
      Makes env D Q outside (Accessor.literals p.accessors) s r.1 s' ∧ env.IsKept r.2 := by
  obtain ⟨head, accessors⟩ := p
  dsimp only at h hQ
  unfold placeCode
  cases h with
  | value hdecl hf hleads =>
    exact placeWith_makes hE hdecl hf
      (accessorsCode_makes hE accessors hleads (fun e he => throughout hQ he) _ s)
  | call hdecl htakes hleads =>
    rw [placeWith_called hE hdecl]
    refine calledCode_makes (callWith_makes hE hdecl ?_ ?_ (hQ _ .here)) ?_
    · exact fun r hr hvariadic hlength => argumentsCode_makes hE _ htakes hvariadic
        (fun e he => throughout hQ (by simp [Expr.children, Accessor.expressions, he])) hr
        (fun v hv => hv) hlength s
    · exact fun fixed => foreignArgumentsCode_makes hE _ htakes
        (fun e he => throughout hQ (by simp [Expr.children, Accessor.expressions, he])) fixed s
    · exact fun s' => accessorsCode_makes hE _ hleads
        (fun e he => throughout hQ (by
          rw [Expr.children, List.flatMap_cons]
          exact List.mem_append_right _ he)) _ s'

theorem mutCode_makes (hE : env.Fits D) {target : Place} {value : Expr} {t u : Ty} {node : Node}
    (htarget : Refers D target.head target.accessors t) (hvalue : HasType D value u)
    (hQ : ∀ x, Expr.Occurs x (.variable node target.head target.accessors) → Q x)
    (hQ' : ∀ x, Expr.Occurs x value → Q x) (s : Supply) :
    Forms (env.Exceeds Q) (mutCode env target value) s fun code s' =>
      Makes env D Q outside (Accessor.literals target.accessors ++ value.literals) s code s' := by
  refine .lift fun _ _ => .lift fun size hsize => ?_
  have hn : env.IsSize size := ⟨_, hsize⟩
  exact .seq (placeCode_makes hE htarget hQ s) fun ⟨place, kept⟩ s' ⟨hplace, hkept⟩ =>
    .seq (exprCode_makes hE value hvalue hQ' s') fun code s'' hcode => .pure
    (.followed (.followed (.followed (.append hplace hcode) (.leaf (.read hn)))
      (.leaf (.copy (.pointed hn) (.pointed hn)))) (.leaf (.raise (.assigned hn hkept))))

theorem resultCode_makes (hE : env.Fits D)
    (hresult : env.current.frame.result = sizeIn env.layouts result) {value : Expr} {t : Ty}
    (h : HasType D value t) (hagrees : t.agrees result) (hQ : ∀ x, Expr.Occurs x value → Q x)
    (s : Supply) :
    Forms (env.Exceeds Q) (resultCode env value) s fun code s' =>
      Makes env D Q outside value.literals s code s' := by
  have hk : t.Known env.layouts := hE.known (h.known hE.sound)
  have hsize : env.sizeOf t = .ok env.current.frame.result := by
    rw [sizeOf_of_known hk, hresult, sizeIn_of_agrees hagrees hk]
  refine .known (by rw [h.ty_eq]; rfl) (.known hsize ?_)
  have hn : env.IsSize env.current.frame.result := ⟨_, hsize⟩
  have hreleased : ∀ s, Makes env D Q outside [] s (if t.isPointer || t.isArray then
      [mov Register.rax (Address.frame env.current.frame.resultAt), .call Collector.releaseSymbol]
      else []) s := by
    intro s
    split
    · exact .followed (.leaf .result)
        (.visible rfl : Makes _ _ _ _ _ _ [.call Collector.releaseSymbol] _)
    · exact .visible rfl
  exact .seq (exprCode_makes hE value h hQ s) fun code s' hcode => .pure
    (.followed (.followed (.followed hcode (.leaf (.copy .result (.pointed hn))))
      (.leaf (.raise (.slot hn)))) (hreleased s'))

theorem leave_makes {depth target : Nat} {code : Code} {l : Label}
    (hcode : leaveFrames depth target = .ok code) (hl : outside l) :
    Makes env D Q outside [] s (code ++ [jump l]) s := by
  unfold leaveFrames at hcode
  split at hcode
  · cases hcode
  · cases hcode
    refine .followed (.fixed fun i hi => ?_) (.leaf (.jump hl))
    rw [List.eq_of_mem_replicate hi]
    rfl

theorem returnCode_makes (hE : env.Fits D)
    (hresult : env.current.frame.result = sizeIn env.layouts result) {value : Option Expr}
    (h : ∀ e ∈ value, ∃ t, HasType D e t ∧ t.agrees result)
    (hQ : ∀ e ∈ value, ∀ x, Expr.Occurs x e → Q x)
    {exit : Label} (hexit : outside exit) (depth : Nat) (s : Supply) :
    Forms (env.Exceeds Q) (returnCode env exit depth value) s fun code s' =>
      Makes env D Q outside (value.elim [] Expr.literals) s code s' := by
  have hfinish : ∀ {literals : List String} {stored leave : Code} {s' : Supply},
      Makes env D Q outside literals s stored s' →
      leaveFrames depth (bodyDepth env.current.function) = .ok leave →
      Makes env D Q outside literals s (stored ++ leave ++ [jump exit]) s' := by
    intro literals stored leave s' hstored hleave
    rw [List.append_assoc]
    exact .followed hstored (leave_makes hleave hexit)
  unfold returnCode
  cases value with
  | none => exact .lift fun leave hleave => .pure (hfinish (.leaf .nil) hleave)
  | some value =>
    obtain ⟨t, ht, hagrees⟩ := h value rfl
    exact .seq (resultCode_makes hE hresult ht hagrees (hQ value rfl) s) fun stored s' hstored =>
      .lift fun leave hleave => .pure (hfinish hstored hleave)

theorem boundCheck_makes {mangled : String} {home : Address} {stop : Label}
    (hhome : env.variableAddress mangled = .ok home) (hstop : outside stop) :
    Makes env D Q outside [] s (boundCheck home stop) s := by
  refine .followed (.followed (.visible rfl) (.visible rfl)) ?_
  refine .followed (.visible rfl : Makes _ _ _ _ _ _ [.unary .dec Register.rcx] _)
    (.followed (.leaf (.jumpIf hstop)) ?_)
  refine .followed (.leaf (.home hhome (by simp)) : Makes _ _ _ _ _ _ [mov Register.rax home] _) ?_
  exact .followed (.visible rfl : Makes _ _ _ _ _ _ [.binary .cmp Register.rax Register.rcx] _)
    (.leaf (.jumpIf hstop))

/-- The labels that code may jump to from a statement. -/
def Leaves (outside : Label → Prop) (exit : Label) (loop : Option Loop) : Prop :=
  outside exit ∧ ∀ l ∈ loop, outside l.continues ∧ outside l.breaks

theorem Leaves.mono {outside' : Label → Prop} {exit : Label} {loop : Option Loop}
    (h : Leaves outside exit loop) (hle : ∀ l, outside l → outside' l) :
    Leaves outside' exit loop :=
  ⟨hle _ h.1, fun l hl => ⟨hle _ (h.2 l hl).1, hle _ (h.2 l hl).2⟩⟩

theorem Leaves.loop {exit : Label} {loop : Option Loop} (h : Leaves outside exit loop)
    {continues breaks : Label} (hcontinues : outside continues) (hbreaks : outside breaks)
    (depth : Nat) : Leaves outside exit (some ⟨continues, breaks, depth⟩) := by
  refine ⟨h.1, ?_⟩
  rintro l ⟨⟩
  exact ⟨hcontinues, hbreaks⟩

mutual
theorem stmtCode_makes (hE : env.Fits D)
    (hresult : env.current.frame.result = sizeIn env.layouts result) :
    ∀ (st : Stmt) {inLoop : Bool},
    StmtOk D result inLoop st → ∀ {depth : Nat}, Throughout Q [st] depth inLoop →
    ∀ {outside : Label → Prop} {exit : Label} {loop : Option Loop}, Leaves outside exit loop →
    ∀ s : Supply, Forms (env.Exceeds Q) (stmtCode env exit depth loop st) s fun code s' =>
      Makes env D Q outside st.literals s code s'
  | .let_ span allocate ty name value mangled, inLoop, h, depth, hQ, outside, exit, loop, hl,
      s => by
    cases h with | let_ hty hvalue hagrees hdecl
    rw [stmtCode]
    exact .lift fun size hsize => .lift fun home hhome => .seq (exprCode_makes hE value hvalue
      (hQ.here _ (by simp [Stmt.parts, Stmt.expressions])) s) fun code s' hcode => .pure
      (.followed (.followed hcode (storeVariable_makes hdecl hhome hsize _))
      (.leaf (.raise (.slot ⟨_, hsize⟩))))
  | .mut_ span target value, inLoop, h, depth, hQ, outside, exit, loop, hl, s => by
    cases h with | mut_ htarget hcall hvalue hagrees
    rw [stmtCode]
    exact mutCode_makes hE htarget hvalue
      (hQ.here (.variable ⟨target.span, none⟩ _ _) (by simp [Stmt.parts]))
      (hQ.here _ (by simp [Stmt.parts])) s
  | .call span value, inLoop, h, depth, hQ, outside, exit, loop, hl, s => by
    cases h with | call hcall hvalue
    rw [stmtCode]
    exact .lift fun _ _ => .lift fun size hsize => .seq (exprCode_makes hE value hvalue
      (hQ.here _ (by simp [Stmt.parts, Stmt.expressions])) s) fun code s' hcode =>
      .pure (.followed hcode (.leaf (.raise (.slot ⟨_, hsize⟩))))
  | .collect span value, inLoop, h, depth, hQ, outside, exit, loop, hl, s => by
    cases h with | collect hvalue haddress
    rw [stmtCode]
    exact .seq (exprCode_makes hE value hvalue
      (hQ.here _ (by simp [Stmt.parts, Stmt.expressions])) s) fun code s' hcode =>
      .pure (.followed (.followed hcode (.visible rfl)) (.visible rfl))
  | .return_ span none, inLoop, h, depth, hQ, outside, exit, loop, hl, s => by
    rw [stmtCode]
    exact returnCode_makes hE hresult (by simp) (by simp) hl.1 depth s
  | .return_ span (some value), inLoop, h, depth, hQ, outside, exit, loop, hl, s => by
    cases h with | return_ hvoid hvalue hagrees
    rw [stmtCode]
    exact returnCode_makes hE hresult (by rintro e ⟨⟩; exact ⟨_, hvalue, hagrees⟩)
      (by rintro e ⟨⟩; exact hQ.here _ (by simp [Stmt.parts, Stmt.expressions])) hl.1 depth s
  | .break_ span, inLoop, h, depth, hQ, outside, exit, loop, hl, s => by
    rw [stmtCode]
    refine .lift fun l h => .lift fun code hcode => .pure (leave_makes hcode ?_)
    cases loop <;> cases h
    exact (hl.2 l rfl).2
  | .continue_ span, inLoop, h, depth, hQ, outside, exit, loop, hl, s => by
    rw [stmtCode]
    refine .lift fun l h => .lift fun code hcode => .pure (leave_makes hcode ?_)
    cases loop <;> cases h
    exact (hl.2 l rfl).1
  | .if_ span condition yes, inLoop, h, depth, hQ, outside, exit, loop, hl, s => by
    cases h with | if_ hcondition hyes
    rw [stmtCode]
    refine .freshLabel (.freshLabel (.seq (conditionCode_makes hE hcondition
      (hQ.here _ (by simp [Stmt.parts, Stmt.expressions])) _) fun check s₁ hcheck => .seq
      (blockCode_makes hE hresult yes hyes (hQ.block (by simp [Stmt.blocks]))
      (hl.mono fun l h => .inl (.inl h)) s₁) fun yes s₂ hyes => .pure ⟨.fresh (.fresh
      (.append (.append (.append hcheck.assembled (.jumpIf (.inl (.inr rfl)))) hyes.assembled)
      (.append (.jump (.inr rfl)) (.append (.label _) (.label _))))
      (.swap _ _ _)) (.refl _), ?_⟩))
    rw [hyes.strings, hcheck.strings, Stmt.literals, List.append_assoc]
  | .ifElse span condition yes no, inLoop, h, depth, hQ, outside, exit, loop, hl, s => by
    cases h with | ifElse hcondition hyes hno
    rw [stmtCode]
    refine .freshLabel (.freshLabel (.seq (conditionCode_makes hE hcondition
      (hQ.here _ (by simp [Stmt.parts, Stmt.expressions])) _) fun check s₁ hcheck => .seq
      (blockCode_makes hE hresult yes hyes (hQ.block (by simp [Stmt.blocks]))
      (hl.mono fun l h => .inl (.inl h)) s₁) fun yes s₂ hyes => .seq
      (blockCode_makes hE hresult no hno (hQ.block (by simp [Stmt.blocks]))
      (hl.mono fun l h => .inl (.inl h)) s₂) fun no s₃ hno => .pure ⟨.fresh (.fresh
      (.append (.append (.append (.append (.append hcheck.assembled (.jumpIf (.inl (.inr rfl))))
      hyes.assembled) (.append (.jump (.inr rfl)) (.label _))) hno.assembled) (.label _))
      (.swap _ _ _)) (.refl _), ?_⟩))
    rw [hno.strings, hyes.strings, hcheck.strings, Stmt.literals]
    simp
  | .while_ span condition body, inLoop, h, depth, hQ, outside, exit, loop, hl, s => by
    cases h with | while_ hcondition hbody
    rw [stmtCode]
    refine .freshLabel (.freshLabel (.seq (conditionCode_makes hE hcondition
      (hQ.here _ (by simp [Stmt.parts, Stmt.expressions])) _) fun check s₁ hcheck => .seq
      (blockCode_makes hE hresult body hbody (hQ.block (by simp [Stmt.blocks]))
      ((hl.mono fun l h => .inl (.inl h)).loop (.inl (.inr rfl)) (.inr rfl) depth) s₁)
      fun body s₂ hbody => .pure ⟨.fresh (.fresh
      (.append (.append (.append (.append (.label _) hcheck.assembled) (.jumpIf (.inr rfl)))
      hbody.assembled) (.append (.jump (.inl (.inr rfl))) (.label _)))
      (.swap _ _ _)) (.refl _), ?_⟩))
    rw [hbody.strings, hcheck.strings, Stmt.literals, List.append_assoc]
  | .doWhile span body condition, inLoop, h, depth, hQ, outside, exit, loop, hl, s => by
    cases h with | doWhile hbody hcondition
    rw [stmtCode]
    refine .freshLabel (.freshLabel (.freshLabel (.seq
      (blockCode_makes hE hresult body hbody (hQ.block (by simp [Stmt.blocks]))
      ((hl.mono fun l h => .inl (.inl (.inl h))).loop (.inl (.inr rfl)) (.inr rfl) depth) _)
      fun body s₁ hbody => .seq (conditionCode_makes hE hcondition
      (hQ.here _ (by simp [Stmt.parts, Stmt.expressions])) s₁) fun check s₂ hcheck =>
      .pure ⟨.fresh (.fresh (.fresh
      (.append (.append (.append (.append (.label _) hbody.assembled) (.label _)) hcheck.assembled)
      (.append (.jumpIf (.inl (.inl (.inr rfl)))) (.label _)))
      (List.perm_append_singleton _ [_, _])) (.swap _ _ _)) (.refl _), ?_⟩)))
    rw [hcheck.strings, hbody.strings, Stmt.literals, List.append_assoc]
  | .for_ span iterator start stop body mangled, inLoop, h, depth, hQ, outside, exit, loop, hl,
      s => by
    cases h with | for_ hstart hstop hdecl hbody
    rw [stmtCode]
    refine .lift fun home hhome => .freshLabel (.freshLabel (.freshLabel (.seq
      (exprCode_makes hE start hstart (hQ.here _ (by simp [Stmt.parts, Stmt.expressions])) _)
      fun start s₁ hstart => .seq
      (exprCode_makes hE stop hstop (hQ.here _ (by simp [Stmt.parts, Stmt.expressions])) s₁)
      fun stop s₂ hstop => .seq (blockCode_makes hE hresult body hbody
        (hQ.block (by simp [Stmt.blocks]))
      ((hl.mono fun l h => .inl (.inl (.inl h))).loop (.inl (.inr rfl)) (.inr rfl) depth) s₂)
      fun body s₃ hbody => .pure ⟨.fresh (.fresh (.fresh
      (.append (.append (.append (.append (.append (.append hstart.assembled (.visible rfl))
      (.append (.home hhome (by simp)) (.label _))) hstop.assembled)
      (boundCheck_makes hhome (.inr rfl)).assembled) hbody.assembled)
      (.append (.label _) (.append (.home hhome (by simp))
      (.append (.jump (.inl (.inl (.inr rfl)))) (.label _)))))
      (List.perm_append_singleton _ [_, _])) (.swap _ _ _)) (.refl _), ?_⟩)))
    rw [hbody.strings, hstop.strings, hstart.strings, Stmt.literals]
    simp
  | .block span body, inLoop, h, depth, hQ, outside, exit, loop, hl, s => by
    cases h with | block hbody
    rw [stmtCode]
    exact blockCode_makes hE hresult body hbody (hQ.block (by simp [Stmt.blocks])) hl s

theorem blockCode_makes (hE : env.Fits D)
    (hresult : env.current.frame.result = sizeIn env.layouts result) :
    ∀ (b : Block) {inLoop : Bool}, BlockOk D result inLoop b →
      ∀ {depth : Nat}, Throughout Q b.statements (depth + b.frames) inLoop →
    ∀ {outside : Label → Prop} {exit : Label} {loop : Option Loop}, Leaves outside exit loop →
    ∀ s : Supply, Forms (env.Exceeds Q) (blockCode env exit depth loop b) s fun code s' =>
      Makes env D Q outside b.literals s code s'
  | .mk span true statements, inLoop, h, depth, hQ, outside, exit, loop, hl, s => by
    cases h with | mk h
    rw [blockCode]
    exact stmtsCode_makes hE hresult statements h hQ hl s
  | .mk span false statements, inLoop, h, depth, hQ, outside, exit, loop, hl, s => by
    cases h with | mk h
    rw [blockCode]
    exact .seq (stmtsCode_makes hE hresult statements h hQ hl s) fun body s' hbody =>
      .pure (.followed (.preceded (.visible rfl) hbody) (.visible rfl))

theorem stmtsCode_makes (hE : env.Fits D)
    (hresult : env.current.frame.result = sizeIn env.layouts result) :
    ∀ (statements : List Stmt) {inLoop : Bool},
    StmtsOk D result inLoop statements → ∀ {depth : Nat}, Throughout Q statements depth inLoop →
    ∀ {outside : Label → Prop} {exit : Label} {loop : Option Loop}, Leaves outside exit loop →
    ∀ s : Supply, Forms (env.Exceeds Q) (stmtsCode env exit depth loop statements) s fun code s' =>
      Makes env D Q outside (Stmt.listLiterals statements) s code s'
  | [], inLoop, h, depth, hQ, outside, exit, loop, hl, s => by
    rw [stmtsCode]
    exact .pure (.leaf .nil)
  | st :: rest, inLoop, h, depth, hQ, outside, exit, loop, hl, s => by
    cases h with | cons hfirst hrest
    rw [stmtsCode]
    exact .seq (stmtCode_makes hE hresult st hfirst (hQ.mono (by simp)) hl s) fun first s₁ hfirst =>
      .seq (stmtsCode_makes hE hresult rest hrest (hQ.mono (by simp +contextual)) hl s₁)
        fun others s₂ hothers => .pure (.append hfirst hothers)
end

end Statements

section Functions

variable {env : Env} {D : Decls} {Q : Expr → Prop} {result : Ty}

theorem functionCode_makes (hE : env.Fits D)
    (hresult : env.current.frame.result = sizeIn env.layouts result)
    (h : StmtsOk D result false env.current.function.body.statements)
    (hQ : Throughout Q env.current.function.body.statements (bodyDepth env.current.function) false)
    (s : Supply) :
    Forms (env.Exceeds Q) (functionCode env) s fun code s' => ∃ comment rest,
      code = .comment comment :: .symbol (functionSymbol env.current.name) :: rest ∧
      Makes env D Q (fun _ => False) (Stmt.listLiterals env.current.function.body.statements) s
        rest s' := by
  have hframe : ∀ name {outside : Label → Prop} {s : Supply},
      name = Collector.enterSymbol ∨ name = Collector.exitSymbol →
      Assembled env D Q outside [] s
        (if env.current.function.body.manual then [] else [.call name]) s := by
    rintro name outside s (rfl | rfl)
    all_goals
      split
      · exact .visible rfl
      · exact .visible rfl
  have hleaves : Leaves (fun l => False ∨ l = ⟨s.labels + 1⟩) ⟨s.labels + 1⟩ none :=
    ⟨.inr rfl, by simp⟩
  refine .freshLabel (.seq (stmtsCode_makes hE hresult _ h hQ hleaves _) fun body s' hbody =>
    .pure ⟨_, Collector.prologue ++ lower env.current.frame.locals
      ++ (if env.current.function.body.manual then [] else [.call Collector.enterSymbol])
      ++ body ++ [.label ⟨s.labels + 1⟩]
      ++ (if env.current.function.body.manual then [] else [.call Collector.exitSymbol])
      ++ Collector.epilogue, rfl, .fresh ?_ hbody.strings⟩)
  exact .append (.append (.append (.append (.append (.append
    (.visible rfl : Assembled _ _ _ _ _ _ Collector.prologue _) (.lower .locals))
    (hframe _ (.inl rfl))) hbody.assembled) (.label _)) (hframe _ (.inr rfl)))
    (.visible rfl : Assembled _ _ _ _ _ _ Collector.epilogue _)

/-- Functions one behind the other, each from its symbol on; `P` holds of what follows the
symbol. -/
inductive Listed (P : Routine → Supply → Code → Supply → Prop) :
    List Routine → Supply → Code → Supply → Prop
  | nil {s} : Listed P [] s [] s
  | cons {r rs s s₁ s₂ code others} (comment) : P r s code s₁ → Listed P rs s₁ others s₂ →
      Listed P (r :: rs) s
        (.comment comment :: .symbol (functionSymbol r.name) :: (code ++ others)) s₂

theorem routinesCode_listed {R : Prop} {env : Routine → Env}
    {P : Routine → Supply → Code → Supply → Prop} {rs : List Routine}
    (h : ∀ r ∈ rs, ∀ s, Forms R (functionCode (env r)) s fun code s' => ∃ comment rest,
      code = .comment comment :: .symbol (functionSymbol r.name) :: rest ∧ P r s rest s')
    (s : Supply) : Forms R (routinesCode env rs) s fun code s' => Listed P rs s code s' := by
  induction rs generalizing s with
  | nil => exact .pure .nil
  | cons r rest ih =>
    rw [routinesCode]
    refine .seq (h r (by simp) s) ?_
    rintro _ s₁ ⟨comment, code, rfl, hcode⟩
    exact .seq (ih (fun r' hr' => h r' (by simp [hr'])) s₁) fun others s₂ hothers =>
      .pure (.cons comment hcode hothers)

end Functions

end RegionCompiler.Codegen

namespace RegionCompiler

open Machine Codegen Typing

variable {isFile : String → Bool} {platform : Platform} {path text : String} {layouts : Registry}
  {p : Program} {out : Codegen.Output}

/-- The code of a function of a program, with all that it is put together from. -/
def Program.Makes (platform : Platform) (layouts : Registry) (p : Program) (routines : List Routine)
    (Q : Expr → Prop) (r : Routine) (s : Supply) (code : Code) (s' : Supply) : Prop :=
  ∃ f ∈ p.functions, Routine.Frames layouts f r ∧
    Codegen.Makes (envOf platform layouts p routines r) (declsOf layouts p f.stack) Q
      (fun _ => False) f.body.literals s code s'

theorem Block.literals_eq (b : Block) : b.literals = Stmt.listLiterals b.statements := by
  obtain ⟨span, manual, statements⟩ := b
  rw [Block.literals, Block.statements]

theorem strings_of_listed {Q : Expr → Prop} {routines rs : List Routine}
    {s s' : Supply} {code : Code}
    {fs : List Function} (hframes : List.Forall₂ (Routine.Frames layouts) fs rs)
    (h : Listed (p.Makes platform layouts routines Q) rs s code s') :
    s'.strings = s.strings ++ fs.flatMap fun f => f.body.literals := by
  induction h generalizing fs with
  | nil =>
    cases hframes
    simp
  | cons comment hcode _ ih =>
    cases hframes with | @cons g _ _ _ hfirst hrest
    obtain ⟨f, -, hfr, hmakes⟩ := hcode
    have hbody : f.body = g.body := by
      have hsame := hfr.function
      rw [hfirst.function] at hsame
      exact (congrArg Function.body hsame).symm
    rw [ih hrest, hmakes.strings, hbody, List.flatMap_cons, List.append_assoc]

/-- The code of the functions of a checked program is put together from the code of their parts, and
nothing but a call of a C function overflows in it. -/
theorem routinesCode_makes (platform : Platform) (hp : ProgramOk layouts p)
    {routines : List Routine}
    (hframes : List.Forall₂ (Routine.Frames layouts) p.functions routines) {Q : Expr → Prop}
    (hQ : ∀ f ∈ p.functions, Throughout Q f.body.statements (bodyDepth f) false) (s : Supply) :
    Forms (∃ r ∈ routines, (envOf platform layouts p routines r).Exceeds Q)
      (routinesCode (envOf platform layouts p routines) routines) s fun code s' =>
      Listed (p.Makes platform layouts routines Q) routines s code s' := by
  refine routinesCode_listed (fun r hr s => ?_) s
  obtain ⟨f, hf, hfr⟩ := exists_of_forall₂ hframes.flip hr
  have hbody : r.function.body = f.body := by rw [hfr.function]
  have hok := (hp.functions f hf).body.statements
  have hdepth : bodyDepth r.function = bodyDepth f := by rw [bodyDepth, hbody, bodyDepth]
  rw [← hbody] at hok
  have hmakes := functionCode_makes (Q := Q) (env_fits hp hframes hf hfr platform)
    (result_of_frames hfr) hok
    (by
      dsimp only
      rw [hbody, hdepth]
      exact hQ f hf) s
  refine ⟨hmakes.yields.mono ?_, fun hover => ⟨r, hr, hmakes.overflows hover⟩⟩
  rintro code s' ⟨comment, rest, rfl, hrest⟩
  refine ⟨comment, rest, rfl, f, hf, hfr, ?_⟩
  dsimp only at hrest
  rw [hbody, ← Block.literals_eq] at hrest
  exact hrest

theorem Accepted.assembled (h : Accepted isFile platform path text layouts p out) {Q : Expr → Prop}
    (hQ : ∀ f ∈ p.functions, Throughout Q f.body.statements (bodyDepth f) false) :
    ∃ files arrays code supply, embedsData p.embeds = .ok (files, arrays) ∧
      Listed (p.Makes platform layouts out.routines Q) out.routines ⟨Collector.labelCount, []⟩ code
        supply ∧
      supply.strings = p.literals ∧
      out.assembly =
        { (p.foreign.map (·.linkName) ++ Collector.cFunctions).foldl Assembly.addExtern
            (.empty platform) with
          code := Collector.code platform (mainResultSize out.routines) ++ code
          readOnly := files ++ stringsData 0 p.literals
          data := arrays
          zeroed := Collector.state } := by
  obtain ⟨files, arrays, code, supply, -, hdata, hcode, hout⟩ := generate_eq h.generated
  have hlisted := (routinesCode_makes platform h.programOk h.generates.frames hQ _).yields
    code supply hcode
  have hstrings : supply.strings = p.literals := by
    simpa [Program.literals] using strings_of_listed h.generates.frames hlisted
  exact ⟨files, arrays, code, supply, hdata, hlisted, hstrings, by rw [hout, hstrings]⟩

end RegionCompiler
