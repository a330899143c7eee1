import RegionCompiler.Proofs.Codegen.Contents
import RegionCompiler.Proofs.Codegen.Return

/-! Loops that count. The bound is evaluated before each round, and the iterator is compared with
the last number below it, so that the loop ends when there is no such number. Counting up never
wraps around, as it stops at the bound. -/
namespace RegionCompiler

namespace Machine

/-- What the parts of a program leave to each other, beside the registers. -/
structure World where
  memory : Memory
  blocks : Word → Option Nat
  calls : List Call

def State.world (s : State) : World := ⟨s.memory, s.blocks, s.calls⟩

namespace World

def word (u : World) (a : Word) : Word := u.memory.word a

def put (u : World) (a v : Word) : World := { u with memory := u.memory.put a v }

@[simp] theorem word_put (u : World) (a v : Word) : (u.put a v).word a = v :=
  Memory.word_put _ _ _

end World

@[simp] theorem State.world_set (s : State) (r : Register) (v : Word) :
    (s.set r v).world = s.world := rfl

@[simp] theorem State.world_withFlags (s : State) (f : Flags) : (s.withFlags f).world = s.world :=
  rfl

@[simp] theorem State.world_put (s : State) (a v : Word) :
    (s.put a v).world = s.world.put a v := rfl

/-- The registers of the frame are the same. -/
structure State.Level (s t : State) : Prop where
  rsp : t.registers .rsp = s.registers .rsp
  rbp : t.registers .rbp = s.registers .rbp

/-- The stack has one slot more, with a number in it. -/
structure State.Raised (s : State) (n : Int) (t : State) : Prop where
  rsp : t.registers .rsp = displace (s.registers .rsp) (-16)
  rbp : t.registers .rbp = s.registers .rbp
  word : t.memory.word (displace (s.registers .rsp) (-16)) = BitVec.ofInt 64 n

/-- The rounds of a loop with the given numbers: the bound is evaluated, the body runs, and the
number is counted up. At the end the bound is evaluated once more. -/
inductive Rounds (Stop Body : World → World → Prop) (home : Word) :
    List Int → World → World → Prop
  | leave {u t} : Stop u t → Rounds Stop Body home [] u t
  | round {n rest u v w t} : Stop u v → v.word home = BitVec.ofInt 64 n → Body v w →
      Rounds Stop Body home rest (w.put home (BitVec.ofInt 64 (n + 1))) t →
      Rounds Stop Body home (n :: rest) u t

end Machine

namespace Codegen

open Machine Machine.Instr Semantics Typing

/-- The parts of a loop that counts. -/
structure Counting where
  home : Address
  start : Code
  stop : Code
  body : Code
  check : Label
  step : Label
  done : Label

namespace Counting

variable (l : Counting)

def code : Code :=
  l.start ++ popRax ++ [mov l.home Register.rax, .label l.check] ++ l.stop
    ++ boundCheck l.home l.done ++ l.body
    ++ [.label l.step, .unary .inc l.home, jump l.check, .label l.done]

/-- Where the bound is evaluated in a loop at a position. -/
def stopAt (i : Nat) : Nat := i + l.start.length + popRax.length + 2

def bodyAt (i : Nat) : Nat := l.stopAt i + l.stop.length + (boundCheck l.home l.done).length

/-- Where the body ends, and where `continue` jumps to. -/
def stepAt (i : Nat) : Nat := l.bodyAt i + l.body.length

/-- The code is that of a statement. -/
structure Codes (env : Env) (exit : Label) (depth : Nat) (start stop : Expr) (body : Block)
    (mangled : Option String) : Prop where
  home : ∃ name, mangled = some name ∧ env.variableAddress name = .ok l.home
  start : ∃ s s', exprCode env start s = .ok (l.start, s')
  stop : ∃ s s', exprCode env stop s = .ok (l.stop, s')
  body : ∃ s s', blockCode env exit depth (some ⟨l.step, l.done, depth⟩) body s = .ok (l.body, s')

/-- The parts of a loop do their work from some state on: the first number is `a`, the bound is `b`
whenever it is evaluated, and the body comes to its end or to `continue`, with the iterator as it
was. `I` holds whenever the bound is evaluated. -/
structure Counts (m : Image) (i : Nat) (s : State) (home : Word) (a b : Int) (I : World → Prop)
    (Start Stop Body : World → World → Prop) : Prop where
  start : m.Arrives i s fun j t => j = i + l.start.length ∧ s.Raised a t ∧
    Start s.world t.world ∧ I (t.world.put home (BitVec.ofInt 64 a))
  stop : ∀ u, s.Level u → I u.world → m.Arrives (l.stopAt i) u fun j t =>
    j = l.stopAt i + l.stop.length ∧ s.Raised b t ∧ Stop u.world t.world ∧
      t.world.word home = u.world.word home ∧ I t.world
  body : ∀ u n, s.Level u → a ≤ n → n < b → u.world.word home = BitVec.ofInt 64 n → I u.world →
    m.Arrives (l.bodyAt i) u fun j t => j = l.stepAt i ∧ s.Level t ∧ Body u.world t.world ∧
      t.world.word home = BitVec.ofInt 64 n ∧ I (t.world.put home (BitVec.ofInt 64 (n + 1)))

variable {l} {m : Image} {i : Nat}

theorem length_code : i + l.code.length = l.stepAt i + 4 := by
  simp only [code, stepAt, bodyAt, stopAt, List.length_append, List.length_cons, List.length_nil]
  omega

/-- Where the parts stand. -/
structure Stands (l : Counting) (m : Image) (i : Nat) : Prop where
  start : Sits m.code i l.start
  store : Sits m.code (i + l.start.length) (popRax ++ [mov l.home Register.rax, .label l.check])
  stop : Sits m.code (l.stopAt i) l.stop
  bound : Sits m.code (l.stopAt i + l.stop.length) (boundCheck l.home l.done)
  step : Sits m.code (l.stepAt i) [.label l.step, .unary .inc l.home, jump l.check, .label l.done]
  check : positionOf m.code (.label l.check) = some (i + l.start.length + popRax.length + 1)
  done : positionOf m.code (.label l.done) = some (l.stepAt i + 3)

theorem stands (hm : (marks m.code).Nodup) (h : Sits m.code i l.code) : l.Stands m i := by
  have hstore := h.left.left.left.left
  rw [List.append_assoc] at hstore
  have hlabel : Sits m.code (i + l.start.length + popRax.length)
      [mov l.home Register.rax, .label l.check] := hstore.right.right
  have hstep : Sits m.code (l.stepAt i)
      [.label l.step, .unary .inc l.home, jump l.check, .label l.done] :=
    h.right.cast (by simp [stepAt, bodyAt, stopAt]; omega)
  exact {
    start := hstore.left
    store := hstore.right
    stop := h.left.left.left.right.cast (by simp [stopAt]; omega)
    bound := h.left.left.right.cast (by simp [stopAt]; omega)
    step := hstep
    check := positionOf_eq hm hlabel.tail.head rfl
    done := positionOf_eq hm hstep.tail.tail.tail.head rfl }

end Counting

section Bounds

variable {m : Image} {s t u : State} {i e : Nat} {a b x : Int} {offset : Int} {done : Label}

/-- A number before the least one does not exist. -/
theorem overflow_dec (hb : -2 ^ 63 ≤ b ∧ b < 2 ^ 63) (carry : Option Bool) :
    Condition.holds { Flags.ofSub (BitVec.ofInt 64 b) 1 with carry } .overflow =
      some (decide (b = -2 ^ 63)) := by
  have hone : (1 : Word).toInt = 1 := rfl
  change some (decide (_ ≠ _)) = _
  rw [toInt_sub_word, State.toInt_ofInt_word hb, hone, Option.some.injEq, decide_eq_decide]
  omega

theorem greater_dec (hb : -2 ^ 63 ≤ b ∧ b < 2 ^ 63) (hleast : b ≠ -2 ^ 63)
    (hx : -2 ^ 63 ≤ x ∧ x < 2 ^ 63) :
    Condition.holds (.ofSub (BitVec.ofInt 64 x) (BitVec.ofInt 64 b - 1)) .greater =
      some (decide (b ≤ x)) := by
  have hone : (1 : Word).toInt = 1 := rfl
  rw [Condition.holds_ofSub (by decide), Option.some.injEq]
  simp only [Condition.compares, toInt_sub_word, State.toInt_ofInt_word hb,
    State.toInt_ofInt_word hx, hone, decide_eq_decide]
  omega

theorem pop_arrives {r : Register} (hrsp : r ≠ .rsp) (hrbp : r ≠ .rbp)
    (hsits : Sits m.code i ([mov r top] ++ raise 16)) (h : s.Raised x t) :
    m.Arrives i t fun j u => j = i + 1 + (raise 16).length ∧ s.Level u ∧ u.world = t.world ∧
      u.registers r = BitVec.ofInt 64 x := by
  refine .step (Image.step_effect hsits.left.head (State.effect_mov_register ..)) ?_
  obtain ⟨f, hrun⟩ := straight_raise m.symbols (t.set r (t.read m.symbols top)) 16
  refine .straight hsits.right hrun (.here ⟨rfl, ⟨?_, ?_⟩, rfl, ?_⟩)
  · simp [h.rsp, hrsp.symm]
  · simp [h.rbp, hrbp.symm]
  · simp [top, h.rsp, h.word, hrsp]

theorem compare_arrives (hsits : Sits m.code i [mov Register.rax (Address.frame offset),
      .binary .cmp Register.rax Register.rcx, jumpIf .greater done])
    (hdone : positionOf m.code (.label done) = some e) (hb : -2 ^ 63 ≤ b ∧ b < 2 ^ 63)
    (hleast : b ≠ -2 ^ 63) (hx : -2 ^ 63 ≤ x ∧ x < 2 ^ 63) (h : s.Level t)
    (hhome : t.world.word (displace (s.registers .rbp) offset) = BitVec.ofInt 64 x)
    (hcounter : t.registers .rcx = BitVec.ofInt 64 b - 1) :
    m.Arrives i t fun j u =>
      j = (if x < b then i + 3 else e) ∧ s.Level u ∧ u.world = t.world := by
  have hiterator : t.memory.word (displace (t.registers .rbp) offset) = BitVec.ofInt 64 x := by
    rw [h.rbp]
    exact hhome
  refine .step (Image.step_effect hsits.head (State.effect_mov_register ..)) ?_
  rw [State.read_memory, State.address_frame, hiterator]
  refine .step (Image.step_effect hsits.tail.head (State.effect_cmp ..)) ?_
  have hlevel (f : Flags) : s.Level ((t.set .rax (BitVec.ofInt 64 x)).withFlags f) :=
    ⟨by simp [h.rsp], by simp [h.rbp]⟩
  have hcompare := greater_dec hb hleast hx
  rw [← hcounter] at hcompare
  by_cases hlt : x < b
  · rw [decide_eq_false (by omega)] at hcompare
    exact .notTaken hsits.tail.tail.head hcompare (.here ⟨(if_pos hlt).symm, hlevel _, rfl⟩)
  · rw [decide_eq_true (by omega)] at hcompare
    exact .taken hsits.tail.tail.head hcompare hdone (.here ⟨(if_neg hlt).symm, hlevel _, rfl⟩)

/-- The loop goes on exactly if the iterator is below the bound. -/
theorem boundCheck_arrives (hsits : Sits m.code i (boundCheck (Address.frame offset) done))
    (hdone : positionOf m.code (.label done) = some e) (hb : -2 ^ 63 ≤ b ∧ b < 2 ^ 63)
    (hx : -2 ^ 63 ≤ x ∧ x < 2 ^ 63) (h : s.Raised b t)
    (hhome : t.world.word (displace (s.registers .rbp) offset) = BitVec.ofInt 64 x) :
    m.Arrives i t fun j u =>
      j = (if x < b then i + (boundCheck (Address.frame offset) done).length else e) ∧
        s.Level u ∧ u.world = t.world := by
  refine (pop_arrives (by decide) (by decide) hsits.left h).bind ?_
  rintro _ u ⟨rfl, hlevel, hworld, hcounter⟩
  have hrest : Sits m.code (i + 1 + (raise 16).length) _ := hsits.right.cast (by simp; omega)
  have hlength : i + (boundCheck (Address.frame offset) done).length =
      i + 1 + (raise 16).length + 1 + 1 + 3 := by
    simp [boundCheck]
    omega
  rw [← hworld] at hhome ⊢
  rw [hlength]
  refine .step (Image.step_effect hrest.head (State.effect_dec_register ..)) ?_
  rw [hcounter]
  have hoverflow := overflow_dec hb u.flags.carry
  have hlevel' (f : Flags) : s.Level ((u.withFlags f).set .rcx (BitVec.ofInt 64 b - 1)) :=
    ⟨by simp [hlevel.rsp], by simp [hlevel.rbp]⟩
  by_cases hleast : b = -2 ^ 63
  · rw [decide_eq_true hleast] at hoverflow
    exact .taken hrest.tail.head hoverflow hdone
      (.here ⟨(if_neg (by omega)).symm, hlevel' _, rfl⟩)
  · rw [decide_eq_false hleast] at hoverflow
    exact .notTaken hrest.tail.head hoverflow
      (compare_arrives hrest.tail.tail hdone hb hleast hx (hlevel' _) hhome (by simp))

end Bounds

namespace Counting

variable {l : Counting} {m : Image} {i : Nat} {s u : State} {a b x : Int} {offset : Int}
  {I : World → Prop} {Start Stop Body : World → World → Prop}

theorem range_eq_nil (h : b ≤ x) : Int.range x b = [] := by
  rw [Int.range, Int.toNat_of_nonpos (by omega)]
  rfl

theorem range_eq_cons (h : x < b) : Int.range x b = x :: Int.range (x + 1) b := by
  rw [Int.range, Int.range, show (b - x).toNat = (b - (x + 1)).toNat + 1 by omega,
    List.range_succ_eq_map]
  simp [Function.comp_def, Int.add_assoc, Int.add_comm 1]

theorem step_arrives (hstands : l.Stands m i) (hhome : l.home = Address.frame offset)
    (hu : s.Level u) (hx : u.world.word (displace (s.registers .rbp) offset) = BitVec.ofInt 64 x) :
    m.Arrives (l.stepAt i) u fun j t => j = l.stopAt i ∧ s.Level t ∧
      t.world = u.world.put (displace (s.registers .rbp) offset) (BitVec.ofInt 64 (x + 1)) := by
  have hiterator : u.memory.word (displace (s.registers .rbp) offset) = BitVec.ofInt 64 x := hx
  refine .step (Image.step_effect hstands.step.head (State.effect_label _)) ?_
  refine .step (Image.step_effect hstands.step.tail.head (State.effect_inc_memory ..)) ?_
  rw [hhome, State.address_frame, hu.rbp, hiterator]
  refine .jump hstands.step.tail.tail.head hstands.check ?_
  refine .step (Image.step_effect (hstands.store.right.tail.cast rfl).head (State.effect_label _))
    (.here ⟨rfl, ⟨hu.rsp, hu.rbp⟩, ?_⟩)
  rw [BitVec.ofInt_add]
  rfl

/-- From the evaluation of the bound on, the body runs once for each number from the iterator up to
the bound. -/
theorem rounds_arrive (hstands : l.Stands m i) (hhome : l.home = Address.frame offset)
    (ha : -2 ^ 63 ≤ a ∧ a < 2 ^ 63) (hb : -2 ^ 63 ≤ b ∧ b < 2 ^ 63)
    (h : l.Counts m i s (displace (s.registers .rbp) offset) a b I Start Stop Body)
    (hax : a ≤ x) (hxb : x ≤ max a b) (hu : s.Level u)
    (hx : u.world.word (displace (s.registers .rbp) offset) = BitVec.ofInt 64 x)
    (hI : I u.world) :
    m.Arrives (l.stopAt i) u fun j t => j = i + l.code.length ∧ s.Level t ∧
      t.world.word (displace (s.registers .rbp) offset) = BitVec.ofInt 64 (max a b) ∧
      I t.world ∧
      Rounds Stop Body (displace (s.registers .rbp) offset) (Int.range x b) u.world t.world := by
  have hbound := hstands.bound
  rw [hhome] at hbound
  -- The rounds that are left are as many as there are numbers up to the bound.
  induction hk : (b - x).toNat generalizing x u with
  | zero =>
    refine (h.stop u hu hI).bind ?_
    rintro _ v ⟨rfl, hraised, hstop, hword, hI⟩
    refine (boundCheck_arrives hbound hstands.done hb (by omega) hraised (hword.trans hx)).bind ?_
    rintro j w ⟨hj, hw, hworld⟩
    rw [if_neg (by omega)] at hj
    subst hj
    refine .step (Image.step_effect hstands.step.tail.tail.tail.head (State.effect_label _))
      (.here ?_)
    rw [range_eq_nil (by omega), length_code, hworld, hword, hx]
    exact ⟨rfl, hw, by congr 1; omega, hI, .leave hstop⟩
  | succ k ih =>
    refine (h.stop u hu hI).bind ?_
    rintro _ v ⟨rfl, hraised, hstop, hword, hI⟩
    refine (boundCheck_arrives hbound hstands.done hb (by omega) hraised (hword.trans hx)).bind ?_
    rintro j w ⟨hj, hw, hworld⟩
    rw [if_pos (by omega), ← hhome] at hj
    obtain rfl : j = l.bodyAt i := hj
    rw [← hworld] at hstop hword hI
    refine (h.body w x hw hax (by omega) (hword.trans hx) hI).bind ?_
    rintro _ t ⟨rfl, ht, hbody, hsame, hI⟩
    refine (step_arrives hstands hhome ht hsame).bind ?_
    rintro _ u' ⟨rfl, hu', hworld'⟩
    have hnext : u'.world.word (displace (s.registers .rbp) offset) = BitVec.ofInt 64 (x + 1) := by
      rw [hworld', World.word_put]
    rw [← hworld'] at hI
    refine (ih (by omega) (by omega) hu' hnext hI (by omega)).mono ?_
    rintro j v' ⟨hj, hv', hlast, hI, hrounds⟩
    refine ⟨hj, hv', hlast, hI, ?_⟩
    rw [range_eq_cons (by omega)]
    rw [hworld'] at hrounds
    exact .round hstop (hword.trans hx) hbody hrounds

theorem code_arrives (hm : (marks m.code).Nodup) (hsits : Sits m.code i l.code)
    (hhome : l.home = Address.frame offset) (ha : -2 ^ 63 ≤ a ∧ a < 2 ^ 63)
    (hb : -2 ^ 63 ≤ b ∧ b < 2 ^ 63)
    (h : l.Counts m i s (displace (s.registers .rbp) offset) a b I Start Stop Body) :
    m.Arrives i s fun j t => j = i + l.code.length ∧ s.Level t ∧
      t.world.word (displace (s.registers .rbp) offset) = BitVec.ofInt 64 (max a b) ∧
      I t.world ∧ ∃ u, Start s.world u ∧
        Rounds Stop Body (displace (s.registers .rbp) offset) (Int.range a b)
          (u.put (displace (s.registers .rbp) offset) (BitVec.ofInt 64 a)) t.world := by
  have hstands := stands hm hsits
  refine h.start.bind ?_
  rintro _ t ⟨rfl, hraised, hstart, hI⟩
  refine (pop_arrives (by decide) (by decide) hstands.store.left hraised).bind ?_
  rintro _ u ⟨rfl, hlevel, hworld, hrax⟩
  have hstore : Sits m.code (i + l.start.length + 1 + (raise 16).length)
      [mov l.home Register.rax, .label l.check] :=
    hstands.store.right.cast (by simp [popRax]; omega)
  refine .step (Image.step_effect hstore.head (State.effect_mov_memory ..)) ?_
  refine .step (Image.step_effect hstore.tail.head (State.effect_label _)) ?_
  rw [hhome, State.address_frame, State.read_register, hrax, hlevel.rbp]
  have hstop : l.stopAt i = i + l.start.length + 1 + (raise 16).length + 1 + 1 := by
    simp [stopAt, popRax]
    omega
  rw [← hstop]
  have hput : (u.put (displace (s.registers .rbp) offset) (BitVec.ofInt 64 a)).world =
      t.world.put (displace (s.registers .rbp) offset) (BitVec.ofInt 64 a) := by
    rw [State.world_put, hworld]
  have hlevel' : s.Level (u.put (displace (s.registers .rbp) offset) (BitVec.ofInt 64 a)) :=
    ⟨hlevel.rsp, hlevel.rbp⟩
  refine (rounds_arrive hstands hhome ha hb h (Int.le_refl a) (by omega) hlevel'
    (by rw [hput, World.word_put]) (by rwa [hput])).mono ?_
  rintro j v ⟨hj, hv, hlast, hI, hrounds⟩
  rw [hput] at hrounds
  exact ⟨hj, hv, hlast, hI, t.world, hstart, hrounds⟩

theorem of_generates {env : Env} {exit : Label} {depth : Nat} {span : Span}
    {iterator : Located String} {start stop : Expr} {body : Block} {mangled : Option String}
    {part : Code}
    (h : Generates env exit depth (.for_ span iterator start stop body mangled) part) :
    ∃ l : Counting, part = l.code ∧ l.Codes env exit depth start stop body mangled := by
  obtain ⟨loop, s, s', hrun⟩ := h
  have hyields : Yields (stmtCode env exit depth loop
      (.for_ span iterator start stop body mangled)) s fun part _ =>
      ∃ l : Counting, part = l.code ∧ l.Codes env exit depth start stop body mangled := by
    cases mangled with
    | none =>
      rw [stmtCode]
      exact .throw
    | some name =>
      rw [stmtCode]
      refine .lift fun home hhome => .freshLabel (.freshLabel (.freshLabel ?_))
      refine .bind fun first s₁ hfirst => .bind fun last s₂ hlast => .bind fun code s₃ hcode => ?_
      refine .pure ⟨⟨home, first, last, code, _, _, _⟩, rfl, ⟨name, rfl, hhome⟩, ⟨_, _, hfirst⟩,
        ⟨_, _, hlast⟩, ⟨_, _, hcode⟩⟩
  exact hyields part s' hrun

end Counting

end Codegen

section Accepted

variable {isFile : String → Bool} {platform : Platform} {path text : String} {layouts : Registry}
  {p : Program} {out : Codegen.Output}

open Machine Codegen

/-- The loops of a program count from the first number up to the bound, which may be any numbers:
the body runs once for each number in order, and then the run goes on behind the loop. -/
theorem loops_count (h : Accepted isFile platform path text layouts p out) :
    ∀ r ∈ out.routines, ∃ exit, ∀ span iterator start stop body mangled depth inLoop,
      Stmt.Occurs (.for_ span iterator start stop body mangled) depth inLoop
        r.function.body.statements (bodyDepth r.function) false →
      ∃ (l : Counting) (offset : Int), l.code <:+: out.assembly.code ∧
        l.Codes (envOf platform layouts p out.routines r) exit depth start stop body mangled ∧
        l.home = Address.frame offset ∧
        ∀ (m : Image) i s (a b : Int) I Start Stop Body, (marks m.code).Nodup →
          Sits m.code i l.code → -2 ^ 63 ≤ a ∧ a < 2 ^ 63 → -2 ^ 63 ≤ b ∧ b < 2 ^ 63 →
          l.Counts m i s (displace (s.registers .rbp) offset) a b I Start Stop Body →
          m.Arrives i s fun j t => j = i + l.code.length ∧ s.Level t ∧
            t.world.word (displace (s.registers .rbp) offset) = BitVec.ofInt 64 (max a b) ∧
            I t.world ∧ ((Int.range a b).length : Int) = max 0 (b - a) ∧
            ∃ u, Start s.world u ∧
              Rounds Stop Body (displace (s.registers .rbp) offset) (Int.range a b)
                (u.put (displace (s.registers .rbp) offset) (BitVec.ofInt 64 a)) t.world := by
  intro r hr
  obtain ⟨exit, -, hparts⟩ := h.departs hr
  refine ⟨exit, fun span iterator start stop body mangled depth inLoop hocc => ?_⟩
  obtain ⟨_, hpart, hinfix⟩ := hparts _ depth inLoop hocc
  obtain ⟨l, rfl, hcodes⟩ := Counting.of_generates hpart
  obtain ⟨name, -, hhome⟩ := hcodes.home
  obtain ⟨offset, hoffset⟩ := variableAddress_frame hhome
  refine ⟨l, offset, hinfix, hcodes, hoffset,
    fun m i s a b I Start Stop Body hm hsits ha hb hcounts =>
    (Counting.code_arrives hm hsits hoffset ha hb hcounts).mono ?_⟩
  rintro j t ⟨hj, ht, hlast, hI, hrounds⟩
  refine ⟨hj, ht, hlast, hI, ?_, hrounds⟩
  rw [Int.range, List.length_map, List.length_range]
  omega

def countingText : String := "fn main() &&\x7b for i from 0 until 3 &&\x7b \x7d \x7d"

/-- Whether a statement is a loop without a body from zero to three, with its iterator in a small
frame. -/
def Codegen.Env.countsToThree (env : Codegen.Env) : Stmt → Bool
  | .for_ _ _ (.integer ⟨_, some t⟩ first) (.integer ⟨_, some u⟩ bound) (.mk _ true [])
      (some name) =>
    decide (integerBits t first.value.toNat = 0) && decide (integerBits u bound.value.toNat = 3) &&
      (env.variableAddress name).toOption.any fun home =>
        decide (-0x1000 ≤ home.displacement ∧ home.displacement ≤ -8)
  | _ => false

theorem countingText_passes :
    passes (fun _ => false) (Compilation.baseDirectory "main.bz") "main.bz"
      countingText (fun p layouts =>
        (generate .linux layouts p).toOption.any fun out => out.loads && out.routines.any fun r =>
          r.function.body.statements.any
            (envOf .linux layouts p out.routines r).countsToThree) = true := by
  have htext : countingText.toList = _ := String.toList_ofList
  rw [passes, Parse.source, Token.lex, htext]
  decide +kernel

theorem literal_arrives {env : Env} {span : Span} {t : Ty} {literal : IntegerLiteral} {n : Int}
    (hn : integerBits t literal.value.toNat = n) {code : Code}
    (hcode : ∃ s s', exprCode env (.integer ⟨span, some t⟩ literal) s = .ok (code, s'))
    {m : Image} {i : Nat} (hsits : Sits m.code i code) {s u : State}
    (hs : (s.registers .rsp) = 0x10000#64) (hu : s.Level u) :
    m.Arrives i u fun j v => j = i + code.length ∧ s.Raised n v ∧
      ∀ a : Word, 0x10000 ≤ a.toNat → a.toNat + 8 ≤ 2 ^ 64 → v.world.word a = u.world.word a := by
  obtain ⟨s₁, s₂, hrun⟩ := hcode
  have hyields : Yields (exprCode env (.integer ⟨span, some t⟩ literal)) s₁ fun code _ =>
      code = pushImmediate n := by
    rw [exprCode, ← hn]
    exact .lift fun _ ht => by cases ht; exact .pure rfl
  obtain rfl := hyields code s₂ hrun
  have hlimit : (16 : Nat) < 2 ^ 64 := by decide
  refine (pushImmediate_arrives (P := (· = BitVec.ofInt 64 n)) hsits (StackArea.at_below u hlimit)
    (Nat.le_refl 16) rfl).mono ?_
  rintro j v ⟨rfl, hat, hkept, hword⟩
  have hbase : (StackArea.below u 16 hlimit).base = s.registers .rsp := hu.rsp
  refine ⟨rfl, ⟨?_, hat.rbp.trans hu.rbp, ?_⟩, fun a ha hlast => Memory.word_congr fun k hk => ?_⟩
  · rw [← hbase]
    exact hat.rsp
  · rw [← hbase]
    exact hword
  · have hbyte : 0x10000 ≤ (a + BitVec.ofNat 64 k).toNat := by
      rw [BitVec.toNat_add, BitVec.toNat_ofNat]
      omega
    have hrsp : (u.registers .rsp).toNat = 0x10000 := by rw [hu.rsp, hs]; rfl
    exact hkept _ ⟨id, .inr ((by omega : 16 ≤ (u.registers .rsp).toNat).trans
      (le_depth (by omega)))⟩

theorem loops_count_three : ∃ layouts p out,
    Accepted (fun _ => false) .linux "main.bz" countingText layouts p out ∧
    ∃ (l : Counting) (offset : Int), l.code <:+: out.assembly.code ∧
    ∃ (m : Image) (i : Nat), m.code = out.assembly.code ∧
      m.Arrives i emptyFrame fun j t => j = i + l.code.length ∧ emptyFrame.Level t ∧
        t.world.word (displace 0x20000#64 offset) = BitVec.ofInt 64 3 ∧
        ∃ u : World, Rounds (fun _ _ => True) (fun u v => v = u) (displace 0x20000#64 offset)
          [0, 1, 2] (u.put (displace 0x20000#64 offset) (BitVec.ofInt 64 0)) t.world := by
  obtain ⟨layouts, p, out, h, hcheck⟩ := accepted_of_passes countingText_passes (.inl rfl)
  rw [h.generated] at hcheck
  obtain ⟨hloads, hroutines⟩ : out.loads = true ∧ _ := Bool.and_eq_true_iff.1 hcheck
  obtain ⟨r, hr, hcheck⟩ := List.any_eq_true.1 hroutines
  obtain ⟨st, hst, hcheck⟩ := List.any_eq_true.1 hcheck
  simp only [Output.loads, Bool.and_eq_true, decide_eq_true_eq] at hloads
  obtain ⟨⟨hshort, hdistinct⟩, -⟩ := hloads
  unfold Codegen.Env.countsToThree at hcheck
  split at hcheck
  case h_2 => cases hcheck
  case h_1 span iterator span₁ t first span₂ u bound span₃ name =>
  simp only [Bool.and_eq_true, decide_eq_true_eq, Option.any_eq_true] at hcheck
  obtain ⟨⟨hfirst, hbound⟩, home, hhome, hlow, hhigh⟩ := hcheck
  obtain ⟨exit, hloops⟩ := loops_count h r hr
  obtain ⟨l, offset, hinfix, hcodes, hframe, hcount⟩ :=
    hloops span iterator _ _ _ _ (bodyDepth r.function) false (.here hst)
  obtain ⟨i, hsits⟩ := Sits.of_infix hinfix
  let m := Loading.image .linux out.assembly.code (by omega)
  have hstands : l.Stands m i := Counting.stands hdistinct hsits
  obtain rfl : home = Address.frame offset := by
    obtain ⟨_, ⟨⟩, hplace⟩ := hcodes.home
    rw [hplace, hframe] at hhome
    exact (Option.some.inj hhome).symm
  have hempty : l.body = [] := by
    obtain ⟨s₁, s₂, hbody⟩ := hcodes.body
    rw [blockCode, stmtsCode] at hbody
    exact (congrArg Prod.fst (Except.ok.inj hbody)).symm
  have hrsp : emptyFrame.registers .rsp = 0x10000#64 := rfl
  have hwide : 0x10000 ≤ (displace 0x20000#64 offset).toNat ∧
      (displace 0x20000#64 offset).toNat + 8 ≤ 2 ^ 64 := by
    simp only [Address.frame, Address.at_] at hlow hhigh
    simp only [displace, BitVec.toNat_add, BitVec.toNat_ofInt, BitVec.toNat_ofNat]
    omega
  refine ⟨_, _, _, h, l, offset, hinfix, m, i, rfl,
    (hcount m i emptyFrame 0 3 (fun _ => True) (fun _ _ => True) (fun _ _ => True)
      (fun u v => v = u) hdistinct hsits (by decide) (by decide) ⟨?_, fun u hu _ => ?_,
        fun u n hu _ _ hn _ => ?_⟩).mono ?_⟩
  · refine (literal_arrives hfirst hcodes.start hstands.start hrsp ⟨rfl, rfl⟩).mono ?_
    rintro j t ⟨hj, ht, -⟩
    exact ⟨hj, ht, trivial, trivial⟩
  · refine (literal_arrives hbound hcodes.stop hstands.stop hrsp hu).mono ?_
    rintro j t ⟨hj, ht, hkept⟩
    exact ⟨hj, ht, trivial, hkept _ hwide.1 hwide.2, trivial⟩
  · exact .here ⟨by simp [Counting.stepAt, hempty], hu, rfl, hn, trivial⟩
  · rintro j t ⟨hj, ht, hlast, -, -, u, -, hrounds⟩
    exact ⟨hj, ht, hlast, u, hrounds⟩

end Accepted

end RegionCompiler
