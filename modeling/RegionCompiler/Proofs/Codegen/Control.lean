import RegionCompiler.Proofs.Codegen.Execution

/-! Statements that contain others do what they mean, and with them all statements. Labels have one
place in the code, so that a jump leads where the loop or the branch has its label. -/
namespace RegionCompiler.Codegen

open Machine Machine.Instr Semantics Typing

namespace Activation

section Loops

variable {a : Activation} {exit : Label} {depth : Nat} {loop : Option Loop} {i j e : Nat}
  {s t : State} {store : Store} {o o' : Semantics.Outcome × Store} {check code body yes no : Code}
  {condition : Expr} {meaning : Store → Option (Semantics.Outcome × Store)} {bytes x n : Nat}

theorem label_arrives {m : Image} {l : Label} (hi : m.code[i]? = some (.label l)) (s : State) :
    m.Arrives i s fun j t => j = i + 1 ∧ t = s :=
  .step (Image.step_effect hi (State.effect_label _)) (.here ⟨rfl, rfl⟩)

theorem jump_arrives {m : Image} {l : Label} (hi : m.code[i]? = some (jump l))
    (hl : positionOf m.code (.label l) = some e) (s : State) :
    m.Arrives i s fun j t => j = e ∧ t = s :=
  .jump hi hl (.here ⟨rfl, rfl⟩)

theorem branch_reaches {c : Condition} {l : Label} {x : Int} {b : Bool}
    (hcheck : a.Checks condition check)
    (hc : ∀ f : Flags, f.zero = some (decide (x = 0)) → c.holds f = some b)
    (hsits : Sits a.process.image.code i (check ++ [jumpIf c l])) (hhere : a.Here n store s)
    (hx : eval a.call store condition = some x)
    (hroom : a.process.low + stackOf a.room condition ≤ a.bottom)
    (hl : positionOf a.process.image.code (.label l) = some e) :
    a.Reaches i s fun j t => a.Here n store t ∧ j = if b then e else i + check.length + 1 := by
  refine (hcheck hsits.left hhere hx hroom).bind ?_
  rintro _ t ⟨rfl, hhere, hzero⟩
  have hholds := hc t.flags hzero
  cases b with
  | true => exact .taken hsits.right.head hholds hl (Reaches.here ⟨hhere, rfl⟩)
  | false => exact .notTaken hsits.right.head hholds (Reaches.here ⟨hhere, rfl⟩)

/-- Statements that do not end as usual end at the same place, wherever they stand. -/
theorem Ends.elsewhere {d behind behind' : Nat} (h : a.Ends exit d loop behind o j t)
    (ho : o.1 ≠ .normal) : a.Ends exit depth loop behind' o j t := by
  obtain ⟨_ | _ | _ | _, store⟩ := o
  · exact absurd rfl ho
  all_goals exact h

/-- What stands behind statements concerns only a run in which they end as usual. -/
theorem Ends.onward {d behind behind' : Nat} (h : a.Ends exit d loop behind o j t)
    (hnext : ∀ store, o = (.normal, store) → a.Here d store t →
      a.Reaches behind t (a.Ends exit depth loop behind' o)) :
    a.Reaches j t (a.Ends exit depth loop behind' o) := by
  obtain ⟨outcome, store⟩ := o
  cases outcome with
  | normal =>
    obtain ⟨rfl, hhere⟩ := h
    exact hnext store rfl hhere
  | _ => exact .here (h.elsewhere nofun)

/-- The places of a loop: where its condition is evaluated, where its body ends, and what is behind
the loop. -/
structure Circles (a : Activation) (l : Loop) (head behind out : Nat) : Prop where
  continues : ∃ j, positionOf a.process.image.code (.label l.continues) = some j ∧
    ∀ s, a.process.image.Arrives j s fun j t => j = head ∧ t = s
  breaks : ∃ j, positionOf a.process.image.code (.label l.breaks) = some j ∧
    ∀ s, a.process.image.Arrives j s fun j t => j = out ∧ t = s
  behind : ∀ s, a.process.image.Arrives behind s fun j t => j = head ∧ t = s

variable {continues breaks : Label} {head behind out : Nat}

theorem Circles.targets (h : a.Circles ⟨continues, breaks, depth⟩ head behind out)
    (ht : a.Targets exit loop) : a.Targets exit (some ⟨continues, breaks, depth⟩) where
  exit := ht.exit
  breaks := by
    rintro l ⟨⟩
    exact h.breaks.imp fun _ => And.left
  continues := by
    rintro l ⟨⟩
    exact h.continues.imp fun _ => And.left

theorem after_reaches (h : a.Circles ⟨continues, breaks, depth⟩ head behind out)
    {next : Store → Option (Semantics.Outcome × Store)}
    (hnext : ∀ {store s o}, a.Here depth store s → next store = some o →
      a.Reaches head s (a.Ends exit depth loop out o))
    (hends : a.Ends exit depth (some ⟨continues, breaks, depth⟩) behind o j s)
    (ho : afterRound next o = some o') : a.Reaches j s (a.Ends exit depth loop out o') := by
  obtain ⟨outcome, store⟩ := o
  cases outcome with
  | normal =>
    obtain ⟨rfl, hhere⟩ := hends
    exact .pass (h.behind s) (hnext hhere ho)
  | continued =>
    obtain ⟨l, ⟨⟩, hj, hhere⟩ := hends
    obtain ⟨j', hj', hpass⟩ := h.continues
    obtain rfl : j = j' := Option.some.inj (hj.symm.trans hj')
    exact .pass (hpass s) (hnext hhere ho)
  | broke =>
    obtain ⟨l, ⟨⟩, hj, hhere⟩ := hends
    obtain ⟨j', hj', hpass⟩ := h.breaks
    obtain rfl : j = j' := Option.some.inj (hj.symm.trans hj')
    cases ho
    exact .pass (hpass s) (.here ⟨rfl, hhere⟩)
  | returned v =>
    cases ho
    exact .here hends

/-- A loop goes round for as long as its condition holds. The induction is on the rounds that are
left. -/
theorem rounds_reach (h : a.Circles ⟨continues, breaks, depth⟩ head behind out) (inside : Nat)
    {test : Store → Option Int} {round : Store → Option (Semantics.Outcome × Store)}
    (htest : ∀ {store s x}, a.Here depth store s → test store = some x →
      a.Reaches head s fun j t => a.Here depth store t ∧ j = if x = 0 then out else inside)
    (hround : ∀ {store s o}, a.Here depth store s → round store = some o →
      a.Reaches inside s (a.Ends exit depth (some ⟨continues, breaks, depth⟩) behind o))
    (fuel : Nat) (hhere : a.Here depth store s)
    (ho : Semantics.loop test round fuel store = some o) :
    a.Reaches head s (a.Ends exit depth loop out o) := by
  induction fuel generalizing store s o with
  | zero => cases ho
  | succ fuel ih =>
    obtain ⟨x, hx, ho⟩ := Option.bind_eq_some_iff.1 ho
    refine (htest hhere hx).bind ?_
    rintro j t ⟨hhere, rfl⟩
    by_cases hzero : x = 0
    · rw [if_pos hzero] at ho ⊢
      cases ho
      exact .here ⟨rfl, hhere⟩
    · rw [if_neg hzero] at ho ⊢
      obtain ⟨o₁, ho₁, ho⟩ := Option.bind_eq_some_iff.1 ho
      exact (hround hhere ho₁).bind fun j t hends => after_reaches h ih hends ho

def whileCode (start stop : Label) (check body : Code) : Code :=
  [.label start] ++ check ++ [jumpIf .equal stop] ++ body ++ [jump start, .label stop]

theorem while_performs {fuel bytes : Nat} {round : Store → Option (Semantics.Outcome × Store)}
    {start stop : Label} (hcheck : a.Checks condition check)
    (hbody : a.Performs exit depth (some ⟨start, stop, depth⟩) round bytes body) :
    a.Performs exit depth loop
      (Semantics.loop (fun store => eval a.call store condition) round fuel)
      (max (stackOf a.room condition) bytes)
      (whileCode start stop check body) := by
  intro i s store o htargets hsits hhere ho hroom
  have hhead := hsits.left.left.left.left.head
  have hcondition : Sits a.process.image.code (i + 1) (check ++ [jumpIf .equal stop]) := by
    have h := hsits.left.left
    rw [List.append_assoc] at h
    exact h.right
  have hlast : Sits a.process.image.code (i + 1 + check.length + 1 + body.length)
      [jump start, .label stop] := hsits.right.cast (by simp; omega)
  have hstart := positionOf_eq a.process.distinct hhead rfl
  have hstop := positionOf_eq a.process.distinct hlast.tail.head rfl
  have hcircles : a.Circles ⟨start, stop, depth⟩ i (i + 1 + check.length + 1 + body.length)
      (i + 1 + check.length + 1 + body.length + 1 + 1) := {
    continues := ⟨i, hstart, fun s => .here ⟨rfl, rfl⟩⟩
    breaks := ⟨_, hstop, label_arrives hlast.tail.head⟩
    behind := jump_arrives hlast.head hstart }
  have hout : i + (whileCode start stop check body).length =
      i + 1 + check.length + 1 + body.length + 1 + 1 := by
    simp [whileCode]
    omega
  rw [hout]
  refine rounds_reach hcircles (i + 1 + check.length + 1) (fun {store s x} hhere hx => ?_)
    (fun hhere ho => hbody (hcircles.targets htargets) (hsits.left.right.cast (by simp; omega))
      hhere ho (by omega)) fuel hhere ho
  refine .pass (label_arrives hhead s) ((branch_reaches (c := .equal) hcheck (fun f hf => hf)
    hcondition hhere hx (by omega) hstop).bind ?_)
  rintro j t ⟨hhere, rfl⟩
  by_cases hzero : x = 0
  · rw [if_pos (decide_eq_true hzero), if_pos hzero]
    exact .pass (label_arrives hlast.tail.head t) (.here ⟨hhere, rfl⟩)
  · rw [if_neg (by simpa using hzero), if_neg hzero]
    exact .here ⟨hhere, rfl⟩

def doWhileCode (start again stop : Label) (body check : Code) : Code :=
  [.label start] ++ body ++ [.label again] ++ check ++ [jumpIf .notEqual start, .label stop]

theorem doWhile_performs {fuel bytes : Nat} {round : Store → Option (Semantics.Outcome × Store)}
    {start again stop : Label} (hcheck : a.Checks condition check)
    (hbody : a.Performs exit depth (some ⟨again, stop, depth⟩) round bytes body) :
    a.Performs exit depth loop
      (fun store => (round store).bind
        (afterRound (Semantics.loop (fun store => eval a.call store condition) round fuel)))
      (max (stackOf a.room condition) bytes)
      (doWhileCode start again stop body check) := by
  intro i s store o htargets hsits hhere ho hroom
  have hcode : doWhileCode start again stop body check = [.label start] ++ body ++ [.label again] ++
      (check ++ [jumpIf .notEqual start]) ++ [.label stop] := by
    simp [doWhileCode]
  rw [hcode] at hsits
  have hhead := hsits.left.left.left.left.head
  have hagain : a.process.image.code[i + 1 + body.length]? = some (.label again) :=
    (hsits.left.left.right.cast (by simp; omega)).head
  have hcondition : Sits a.process.image.code (i + 1 + body.length + 1)
      (check ++ [jumpIf .notEqual start]) := hsits.left.right.cast (by simp; omega)
  have hlast : a.process.image.code[i + 1 + body.length + 1 + check.length + 1]? =
      some (.label stop) := (hsits.right.cast (by simp; omega)).head
  have hstart := positionOf_eq a.process.distinct hhead rfl
  have hcircles : a.Circles ⟨again, stop, depth⟩ (i + 1 + body.length) (i + 1 + body.length)
      (i + 1 + body.length + 1 + check.length + 1 + 1) := {
    continues := ⟨_, positionOf_eq a.process.distinct hagain rfl, fun s => .here ⟨rfl, rfl⟩⟩
    breaks := ⟨_, positionOf_eq a.process.distinct hlast rfl, label_arrives hlast⟩
    behind := fun s => .here ⟨rfl, rfl⟩ }
  have hout : i + (doWhileCode start again stop body check).length =
      i + 1 + body.length + 1 + check.length + 1 + 1 := by
    simp [doWhileCode]
    omega
  rw [hout]
  have hround : ∀ {store s o}, a.Here depth store s → round store = some o →
      a.Reaches i s (a.Ends exit depth (some ⟨again, stop, depth⟩) (i + 1 + body.length) o) :=
    fun {store s o} hhere ho => .pass (label_arrives hhead s) (hbody (hcircles.targets htargets)
      (hsits.left.left.left.right.cast (by simp)) hhere ho (by omega))
  have hrounds : ∀ {store s o}, a.Here depth store s →
      Semantics.loop (fun store => eval a.call store condition) round fuel store = some o →
      a.Reaches (i + 1 + body.length) s
        (a.Ends exit depth loop (i + 1 + body.length + 1 + check.length + 1 + 1) o) := by
    refine fun hhere ho => rounds_reach hcircles i (fun {store s x} hhere hx => ?_)
      hround fuel hhere ho
    refine .pass (label_arrives hagain s) ((branch_reaches (b := !decide (x = 0)) hcheck
      (fun f hf => by simp [Condition.holds, hf]) hcondition hhere hx (by omega) hstart).bind ?_)
    rintro j t ⟨hhere, rfl⟩
    by_cases hzero : x = 0
    · rw [if_neg (by simpa using hzero), if_pos hzero]
      exact .pass (label_arrives hlast t) (.here ⟨hhere, rfl⟩)
    · rw [if_pos (by simpa using hzero), if_neg hzero]
      exact .here ⟨hhere, rfl⟩
  obtain ⟨o₁, ho₁, ho⟩ := Option.bind_eq_some_iff.1 ho
  exact (hround hhere ho₁).bind fun j t hends => after_reaches hcircles hrounds hends ho

theorem cons_performs {fuel bytes bytes' : Nat} {st : Stmt} {rest : List Stmt}
    (hfirst : a.Performs exit depth loop (exec a.call fuel st) bytes code)
    (hrest : a.Performs exit depth loop (execAll a.call fuel rest) bytes' body) :
    a.Performs exit depth loop (execAll a.call fuel (st :: rest)) (max bytes bytes')
      (code ++ body) := by
  intro i s store o htargets hsits hhere ho hroom
  rw [execAll] at ho
  obtain ⟨⟨outcome, store'⟩, ho₁, ho⟩ := Option.bind_eq_some_iff.1 ho
  refine (hfirst htargets hsits.left hhere ho₁ (by omega)).bind fun j t hends => ?_
  cases outcome with
  | normal =>
    obtain ⟨rfl, hhere⟩ := hends
    have hreaches := hrest htargets hsits.right hhere ho (by omega)
    rwa [Nat.add_assoc, ← List.length_append] at hreaches
  | _ =>
    cases ho
    exact .here (hends.elsewhere nofun)

theorem frame_performs (h : a.Performs exit (depth + 1) loop meaning bytes body)
    (hdepth : depth < a.nesting) :
    a.Performs exit depth loop meaning bytes
      ([.call Collector.enterSymbol] ++ body ++ [.call Collector.exitSymbol]) := by
  intro i s store o htargets hsits hhere ho hroom
  refine (enters_reach (m := 1) hsits.left.left hhere hdepth).bind ?_
  rintro _ t ⟨rfl, hhere⟩
  refine (h htargets (hsits.left.right.cast (by simp)) hhere ho hroom).bind fun j u hends =>
    hends.onward ?_
  rintro store' rfl hhere
  refine (leaves_reach (m := 1) (hsits.right.cast (by simp; omega)) hhere.at_).mono ?_
  rintro _ v ⟨rfl, hat, hbeyond⟩
  exact ⟨by simp; omega, hat, hhere.stored.congr hbeyond⟩

def ifElseCode (otherwise stop : Label) (check yes no : Code) : Code :=
  check ++ [jumpIf .equal otherwise] ++ yes ++ [jump stop, .label otherwise] ++ no ++ [.label stop]

theorem ifElse_performs {taken other : Store → Option (Semantics.Outcome × Store)}
    {bytes bytes' : Nat} {otherwise stop : Label} (hcheck : a.Checks condition check)
    (hyes : a.Performs exit depth loop taken bytes yes)
    (hno : a.Performs exit depth loop other bytes' no) :
    a.Performs exit depth loop
      (fun store => (eval a.call store condition).bind fun x =>
        if x = 0 then other store else taken store)
      (max (stackOf a.room condition) (max bytes bytes'))
      (ifElseCode otherwise stop check yes no) := by
  intro i s store o htargets hsits hhere ho hroom
  obtain ⟨x, hx, ho⟩ := Option.bind_eq_some_iff.1 ho
  have hmiddle : Sits a.process.image.code (i + check.length + 1 + yes.length)
      [jump stop, .label otherwise] := hsits.left.left.right.cast (by simp; omega)
  have hlast : a.process.image.code[i + check.length + 1 + yes.length + 2 + no.length]? =
      some (.label stop) := (hsits.right.cast (by simp; omega)).head
  have hstop := positionOf_eq a.process.distinct hlast rfl
  have hout : i + (ifElseCode otherwise stop check yes no).length =
      i + check.length + 1 + yes.length + 2 + no.length + 1 := by
    simp [ifElseCode]
    omega
  rw [hout]
  refine (branch_reaches (c := .equal) hcheck (fun f hf => hf) hsits.left.left.left.left hhere hx
    (by omega) (positionOf_eq a.process.distinct hmiddle.tail.head rfl)).bind ?_
  rintro j t ⟨hhere, rfl⟩
  by_cases hzero : x = 0
  · rw [if_pos hzero] at ho
    rw [if_pos (decide_eq_true hzero)]
    refine .pass (label_arrives hmiddle.tail.head t) ((hno htargets
      (hsits.left.right.cast (by simp; omega)) hhere ho (by omega)).bind fun j u hends =>
        hends.onward ?_)
    rintro store' rfl hhere
    exact .pass (label_arrives hlast u) (.here ⟨rfl, hhere⟩)
  · rw [if_neg hzero] at ho
    rw [if_neg (by simpa using hzero)]
    refine (hyes htargets (hsits.left.left.left.right.cast (by simp; omega)) hhere ho
      (by omega)).bind fun j u hends => hends.onward ?_
    rintro store' rfl hhere
    exact .pass (jump_arrives hmiddle.head hstop u)
      (.pass (label_arrives hlast u) (.here ⟨rfl, hhere⟩))

theorem nil_performs : a.Performs exit depth loop (fun store => some (.normal, store)) 0 [] := by
  intro i s store o _ _ hhere ho _
  cases ho
  exact .here ⟨rfl, hhere⟩

theorem performs_congr {meaning' : Store → Option (Semantics.Outcome × Store)} {bytes bytes' : Nat}
    (h : a.Performs exit depth loop meaning bytes code)
    (hm : ∀ store, meaning' store = meaning store) (hbytes : bytes ≤ bytes') :
    a.Performs exit depth loop meaning' bytes' code :=
  fun _ _ _ _ htargets hsits hhere ho hroom => h htargets hsits hhere
    ((hm _).symm.trans ho) (by omega)

def ifCode (otherwise stop : Label) (check yes : Code) : Code :=
  check ++ [jumpIf .equal otherwise] ++ yes ++ [jump stop, .label otherwise, .label stop]

theorem if_performs {taken : Store → Option (Semantics.Outcome × Store)} {bytes : Nat}
    {otherwise stop : Label} (hcheck : a.Checks condition check)
    (hyes : a.Performs exit depth loop taken bytes yes) :
    a.Performs exit depth loop
      (fun store => (eval a.call store condition).bind fun x =>
        if x = 0 then some (.normal, store) else taken store)
      (max (stackOf a.room condition) bytes) (ifCode otherwise stop check yes) := by
  have hcode : ifCode otherwise stop check yes = ifElseCode otherwise stop check yes [] := by
    simp [ifCode, ifElseCode]
  rw [hcode]
  exact performs_congr (ifElse_performs hcheck hyes nil_performs) (fun _ => rfl)
    (by rw [Nat.max_zero])

end Loops

section Statements

variable {a : Activation}

mutual
theorem stmtCode_performs (hanswers : a.process.Answers a.env.routines a.call a.room a.frames)
    (fuel : Nat) : ∀ (st : Stmt) {inLoop : Bool},
    StmtOk a.decls a.env.current.function.result.value inLoop st →
    ∀ {exit : Label} {depth : Nat} {loop : Option Loop} (sup : Supply),
    depth + framesOfStmt st ≤ a.nesting →
    Yields (stmtCode a.env exit depth loop st) sup fun code _ =>
      a.Performs exit depth loop (exec a.call fuel st) (stackOfStmt a.room st) code
  | .let_ span allocate ty name value mangled, inLoop, h, exit, depth, loop, sup, hdepth => by
    cases h with | let_ hty hvalue hagrees hdecl
    cases allocate with
    | false =>
      rw [stmtCode]
      exact (letCode_performs hanswers hvalue hagrees hdecl _ sup).mono fun code _ hcode =>
        performs_congr hcode (fun store => by rw [exec]) (by rw [stackOfStmt])
    | true => exact fun code _ _ => performs_none fun store => rfl
  | .mut_ span ⟨span', ⟨⟨name, ty, binding⟩, accessors⟩⟩ value, inLoop, h, exit, depth, loop,
      sup, hdepth => by
    cases h with | mut_ htarget hcall hvalue hagrees
    cases accessors with
    | cons => exact fun code _ _ => performs_none fun store => by cases binding <;> rfl
    | nil =>
      cases htarget with | @value _ base binding _ _ hdecl hfunction hleads
      cases hleads
      by_cases hstack : binding.kind.isStack
      · rw [stmtCode]
        exact (mutCode_performs hanswers hstack hdecl hvalue hagrees sup).mono fun code _ hcode =>
          performs_congr hcode (fun store => by rw [exec, if_pos hstack]) (by rw [stackOfStmt])
      · exact fun code _ _ => performs_none fun store => by rw [exec, if_neg hstack]
  | .call span value, inLoop, h, exit, depth, loop, sup, hdepth => by
    cases h with | call hcall hvalue
    rw [stmtCode]
    refine .known (by rw [hvalue.ty_eq]; rfl) ((call_performs hanswers hvalue sup).mono
      fun code _ hcode => performs_congr hcode (fun store => by rw [exec]) (by rw [stackOfStmt]))
  | .return_ span none, inLoop, h, exit, depth, loop, sup, hdepth =>
    fun code _ _ => performs_none fun store => rfl
  | .return_ span (some value), inLoop, h, exit, depth, loop, sup, hdepth => by
    cases h with | return_ hresult hvalue hagrees
    rw [stmtCode]
    exact (returnCode_performs hanswers hvalue hagrees sup).mono fun code _ hcode =>
      performs_congr hcode (fun store => by rw [exec]) (by rw [stackOfStmt])
  | .break_ span, inLoop, h, exit, depth, loop, sup, hdepth => by
    rw [stmtCode]
    exact (leaveLoop_performs .broke Loop.breaks (fun ht => ht.breaks)
      (fun h hj ht => ⟨_, h, hj, ht⟩) sup).mono fun code _ hcode =>
      performs_congr hcode (fun store => by rw [exec]) (Nat.zero_le _)
  | .continue_ span, inLoop, h, exit, depth, loop, sup, hdepth => by
    rw [stmtCode]
    exact (leaveLoop_performs .continued Loop.continues (fun ht => ht.continues)
      (fun h hj ht => ⟨_, h, hj, ht⟩) sup).mono fun code _ hcode =>
      performs_congr hcode (fun store => by rw [exec]) (Nat.zero_le _)
  | .if_ span condition yes, inLoop, h, exit, depth, loop, sup, hdepth => by
    cases h with | if_ hcondition hyes
    rw [framesOfStmt] at hdepth
    rw [stmtCode]
    refine .freshLabel (.freshLabel (.seq (conditionCode_checks hanswers hcondition _)
      fun check s₁ hcheck => .seq (blockCode_performs hanswers fuel yes hyes s₁ hdepth)
      fun yes s₂ hyes => .pure ?_))
    exact performs_congr (if_performs hcheck hyes) (fun store => by rw [exec]) (by rw [stackOfStmt])
  | .ifElse span condition yes no, inLoop, h, exit, depth, loop, sup, hdepth => by
    cases h with | ifElse hcondition hyes hno
    rw [framesOfStmt] at hdepth
    rw [stmtCode]
    refine .freshLabel (.freshLabel (.seq (conditionCode_checks hanswers hcondition _)
      fun check s₁ hcheck => .seq (blockCode_performs hanswers fuel yes hyes s₁ (by omega))
      fun yes s₂ hyes => .seq (blockCode_performs hanswers fuel no hno s₂ (by omega))
      fun no s₃ hno => .pure ?_))
    exact performs_congr (ifElse_performs hcheck hyes hno) (fun store => by rw [exec])
      (by rw [stackOfStmt])
  | .while_ span condition body, inLoop, h, exit, depth, loop, sup, hdepth => by
    cases h with | while_ hcondition hbody
    rw [framesOfStmt] at hdepth
    rw [stmtCode]
    refine .freshLabel (.freshLabel (.seq (conditionCode_checks hanswers hcondition _)
      fun check s₁ hcheck => .seq (blockCode_performs hanswers fuel body hbody s₁ hdepth)
      fun body s₂ hbody => .pure ?_))
    exact performs_congr (while_performs hcheck hbody) (fun store => by rw [exec])
      (by rw [stackOfStmt])
  | .doWhile span body condition, inLoop, h, exit, depth, loop, sup, hdepth => by
    cases h with | doWhile hbody hcondition
    rw [framesOfStmt] at hdepth
    rw [stmtCode]
    refine .freshLabel (.freshLabel (.freshLabel (.seq
      (blockCode_performs hanswers fuel body hbody _ hdepth) fun body s₁ hbody =>
      .seq (conditionCode_checks hanswers hcondition s₁)
      fun check s₂ hcheck => .pure ?_)))
    exact performs_congr (doWhile_performs hcheck hbody) (fun store => by rw [exec])
      (by rw [stackOfStmt])
  | .block span body, inLoop, h, exit, depth, loop, sup, hdepth => by
    cases h with | block hbody
    rw [framesOfStmt] at hdepth
    rw [stmtCode]
    exact (blockCode_performs hanswers fuel body hbody sup hdepth).mono fun code _ hcode =>
      performs_congr hcode (fun store => by rw [exec]) (by rw [stackOfStmt])
  | .collect _ _, _, _, _, _, _, _, _ | .for_ _ _ _ _ _ _, _, _, _, _, _, _, _ =>
    fun code _ _ => performs_none fun store => rfl

theorem blockCode_performs (hanswers : a.process.Answers a.env.routines a.call a.room a.frames)
    (fuel : Nat) : ∀ (b : Block) {inLoop : Bool},
    BlockOk a.decls a.env.current.function.result.value inLoop b →
    ∀ {exit : Label} {depth : Nat} {loop : Option Loop} (sup : Supply),
    depth + framesOfBlock b ≤ a.nesting →
    Yields (blockCode a.env exit depth loop b) sup fun code _ =>
      a.Performs exit depth loop (execBlock a.call fuel b) (stackOfBlock a.room b) code
  | .mk span true statements, inLoop, h, exit, depth, loop, sup, hdepth => by
    cases h with | mk h
    rw [framesOfBlock] at hdepth
    rw [blockCode]
    exact (stmtsCode_performs hanswers fuel statements h sup hdepth).mono fun code _ hcode =>
      performs_congr hcode (fun store => by rw [execBlock]) (by rw [stackOfBlock])
  | .mk span false statements, inLoop, h, exit, depth, loop, sup, hdepth => by
    cases h with | mk h
    have hinside : depth + 1 + framesOfStmts statements ≤ a.nesting := by
      simp only [framesOfBlock, Bool.false_eq_true, if_false] at hdepth
      omega
    rw [blockCode]
    exact .seq (stmtsCode_performs hanswers fuel statements h sup hinside) fun body _ hbody => .pure
      (performs_congr (frame_performs hbody (by omega)) (fun store => by rw [execBlock])
        (by rw [stackOfBlock]))

theorem stmtsCode_performs (hanswers : a.process.Answers a.env.routines a.call a.room a.frames)
    (fuel : Nat) : ∀ (statements : List Stmt) {inLoop : Bool},
    StmtsOk a.decls a.env.current.function.result.value inLoop statements →
    ∀ {exit : Label} {depth : Nat} {loop : Option Loop} (sup : Supply),
    depth + framesOfStmts statements ≤ a.nesting →
    Yields (stmtsCode a.env exit depth loop statements) sup fun code _ =>
      a.Performs exit depth loop (execAll a.call fuel statements) (stackOfStmts a.room statements)
        code
  | [], inLoop, h, exit, depth, loop, sup, hdepth => by
    rw [stmtsCode]
    exact .pure (performs_congr nil_performs (fun store => by rw [execAll]) (Nat.zero_le _))
  | st :: rest, inLoop, h, exit, depth, loop, sup, hdepth => by
    cases h with | cons hfirst hrest
    rw [framesOfStmts] at hdepth
    rw [stmtsCode]
    exact .seq (stmtCode_performs hanswers fuel st hfirst sup (by omega)) fun first s₁ hfirst =>
      .seq (stmtsCode_performs hanswers fuel rest hrest s₁ (by omega))
        fun others s₂ hothers => .pure
      (performs_congr (cons_performs hfirst hothers) (fun _ => rfl) (by rw [stackOfStmts]))
end

end Statements

end Activation

end RegionCompiler.Codegen
