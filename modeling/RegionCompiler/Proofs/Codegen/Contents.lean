import RegionCompiler.Proofs.Codegen.Evaluation
import RegionCompiler.Proofs.Machine.Loading

/-! Expressions over the variables of a function. The values of the variables are those that lie in
the frame of the function, whatever else lies there. -/
namespace RegionCompiler

open Machine Codegen Typing Semantics

namespace Placed

variable {layouts : Registry} {offset stop : Nat} {vs placed : List StackVariable}

/-- Placing variables changes neither their names nor their types. -/
theorem exists_mem_iff (h : Placed layouts offset vs placed stop) (mangled : String) (t : Ty) :
    (∃ v ∈ placed, v.mangled = mangled ∧ v.ty = t) ↔ ∃ v ∈ vs, v.mangled = mangled ∧ v.ty = t := by
  induction h with
  | nil => simp
  | cons _ _ ih => simp [ih]

end Placed

theorem Routine.Frames.declsOf {layouts : Registry} {p : Program} {f : Function} {r : Routine}
    (h : Routine.Frames layouts f r) :
    declsOf layouts p r.function.stack = declsOf layouts p f.stack := by
  obtain ⟨_, hparameters, -⟩ := h.parameters
  obtain ⟨_, hlocals, -⟩ := h.locals
  have hmem (mangled : String) (t : Ty) :
      (∃ v ∈ r.function.stack.parameters ++ r.function.stack.locals,
        v.mangled = mangled ∧ v.ty = t) ↔
        ∃ v ∈ f.stack.parameters ++ f.stack.locals, v.mangled = mangled ∧ v.ty = t := by
    simp only [List.mem_append, or_and_right, exists_or]
    rw [hparameters.exists_mem_iff, hlocals.exists_mem_iff]
  simp only [Typing.declsOf, hmem]

namespace Machine

theorem le_depth {a x : Word} (h : a.toNat ≤ x.toNat) : a.toNat ≤ depth a x := by
  simp only [depth, BitVec.toNat_sub, BitVec.toNat_ofNat]
  omega

/-- The stack below the stack pointer, with nothing beside it. -/
def StackArea.below (s : State) (limit : Nat) (h : limit < 2 ^ 64) : StackArea where
  base := s.registers .rsp
  frame := s.registers .rbp
  limit := limit
  limit_lt := h
  owned _ := False
  Good t := t.blocks = s.blocks ∧ t.calls = s.calls
  apart _ h := h.elim
  good_congr h _ hblocks hcalls := ⟨hblocks.trans h.1, hcalls.trans h.2⟩

theorem StackArea.at_below (s : State) {limit : Nat} (h : limit < 2 ^ 64) :
    (StackArea.below s limit h).At 0 s :=
  ⟨by simp [below], rfl, rfl, rfl⟩

end Machine

namespace Semantics.Scalar

/-- The value in the low bytes at an address. -/
def read (k : Scalar) (m : Memory) (a : Word) : Int := k.wrap (m.load a k.bytes)

theorem holds_read {k : Scalar} {m : Memory} {a : Word}
    (hbool : k = .bool → m a = 0#8 ∨ m a = 1#8) : k.Holds m a (k.read m a) := by
  have hload := m.load_lt a k.bytes
  refine ⟨range_wrap k _, ?_⟩
  by_cases hk : k = .bool
  · subst hk
    rcases hbool rfl with h | h <;> simp [read, wrap, bytes, Memory.load, h]
  · rw [read, wrap_emod hk]
    have hnat : ((m.load a k.bytes : Nat) : Int) < 256 ^ k.bytes := by exact_mod_cast hload
    rw [Int.emod_eq_of_lt (by omega) hnat]

end Semantics.Scalar

namespace Codegen

theorem Gives.of_run {α : Type} {g : Gen α} {sup sup' : Supply} {a : α} {Q : α → Supply → Prop}
    (h : Gives g sup Q) (hrun : g sup = .ok (a, sup')) : Q a sup' := by
  obtain ⟨b, _, hrun', hQ⟩ := h
  rw [hrun] at hrun'
  cases hrun'
  exact hQ

/-- What the variables of a function hold in its frame. -/
def frameStore (env : Env) (s : State) : Store := fun name => do
  let stack := env.current.function.stack
  let v ← (stack.parameters ++ stack.locals).find? (·.mangled == name)
  let k ← Scalar.ofTy? v.ty
  let address ← (env.variableAddress name).toOption
  return k.read s.memory (displace (s.registers .rbp) address.displacement)

/-- The frame of a function lies above the stack pointer and does not wrap around. -/
structure Env.Unwrapped (env : Env) (s : State) : Prop where
  locals : (s.registers .rsp).toNat + env.current.frame.locals ≤ (s.registers .rbp).toNat
  arguments : (s.registers .rbp).toNat + 16 + env.current.frame.arguments ≤ 2 ^ 64

/-- Truth values in the frame of a function are zero or one. -/
def Env.Truths (env : Env) (s : State) : Prop :=
  ∀ v ∈ env.current.function.stack.parameters ++ env.current.function.stack.locals, v.ty = Ty.bool →
    ∀ offset, env.variableAddress v.mangled = .ok (Address.frame offset) →
      s.memory (displace (s.registers .rbp) offset) = 0#8 ∨
        s.memory (displace (s.registers .rbp) offset) = 1#8

section Frames

variable {env : Env} {s : State}

theorem Env.Unwrapped.le_toNat (h : env.Unwrapped s) {e : Extent}
    (he : e.Within (env.current.frame.extent .locals) ∨
      e.Within (env.current.frame.extent .arguments)) {n : Nat} (hn : n < e.size) :
    (s.registers .rsp).toNat ≤
      (displace (s.registers .rbp) e.start + BitVec.ofNat 64 n).toNat := by
  have hlocals := h.locals
  have harguments := h.arguments
  have hbounds : -env.current.frame.locals ≤ e.start ∧
      e.start + n < 16 + env.current.frame.arguments := by
    rcases he with ⟨hstart, hstop⟩ | ⟨hstart, hstop⟩ <;>
      simp only [Frame.extent, Extent.stop] at hstart hstop <;> omega
  simp only [displace, BitVec.toNat_add, BitVec.toNat_ofInt, BitVec.toNat_ofNat]
  omega

theorem Env.Framed.inside (h : env.Framed) {v : StackVariable}
    (hv : v ∈ env.current.function.stack.parameters ++ env.current.function.stack.locals) :
    ∃ e, env.Occupies v e ∧ (e.Within (env.current.frame.extent .locals) ∨
      e.Within (env.current.frame.extent .arguments)) := by
  rcases List.mem_append.1 hv with hv | hv
  · obtain ⟨e, -, hoccupies, -, hwithin, -⟩ := h.parameters.inside v hv
    exact ⟨e, hoccupies, .inr hwithin⟩
  · obtain ⟨e, -, hoccupies, -, hwithin, -⟩ := h.locals.inside v hv
    exact ⟨e, hoccupies, .inl hwithin⟩

theorem Env.Framed.variable (hframed : env.Framed) (hspans : env.Unwrapped s) {v : StackVariable}
    (hv : v ∈ env.current.function.stack.parameters ++ env.current.function.stack.locals) :
    ∃ offset size, env.variableAddress v.mangled = .ok (Address.frame offset) ∧
      env.sizeOf v.ty = .ok size ∧ ∀ n < size, (s.registers .rsp).toNat ≤
        (displace (s.registers .rbp) offset + BitVec.ofNat 64 n).toNat := by
  obtain ⟨e, ⟨haddress, hsize⟩, hwithin⟩ := hframed.inside hv
  exact ⟨e.start, e.size, haddress, hsize, fun n hn => hspans.le_toNat hwithin hn⟩

end Frames

/-- Expressions without calls, with nothing but the stack below the stack pointer to work on. -/
def Setting.below (m : Image) (hm : (marks m.code).Nodup) {env : Env} {D : Decls}
    (hfits : env.Fits D) (kinds : Scalar → Bool) (s : State) (limit : Nat)
    (hlimit : limit < 2 ^ 64) :
    Setting where
  image := m
  work := .below s limit hlimit
  env := env
  decls := D
  Stops := m.Faulted
  Quits _ _ := False
  kinds := kinds
  callable _ := false
  call _ _ := none
  room _ := 0
  fits := hfits
  distinct := hm
  faults h := h
  quits h := h.elim

theorem exprCode_below {m : Image} {hm : (marks m.code).Nodup} {env : Env} {D : Decls}
    {hfits : env.Fits D} {kinds : Scalar → Bool} {s : State} {limit : Nat} {hlimit : limit < 2 ^ 64}
    {store : Store} {e : Expr} {k : Scalar} (hcomputes : computes kinds (fun _ => false) e)
    (he : HasType D e k.ty) (sup : Supply) :
    Gives (exprCode env e) sup fun code _ =>
      (Setting.below m hm hfits kinds s limit hlimit).Evaluates store e k code := by
  refine (exprCode_attempts (c := .below m hm hfits kinds s limit hlimit) ?_ e
    hcomputes he sup).mono
    fun _ _ hcode => hcode.evaluates fun _ _ => id
  intro node head node' arguments k _ hcall
  unfold computes at hcall
  simp [Setting.below] at hcall

def emptyFrame : State where
  registers r := if r = .rbp then 0x20000#64 else 0x10000#64
  vectors _ := 0#64
  memory _ := 0#8
  flags := .undefined
  blocks _ := none
  calls := []

/-- A machine without code. -/
noncomputable def Setting.blank {env : Env} {D : Decls} (hfits : env.Fits D)
    (kinds : Scalar → Bool) :
    Setting :=
  .below (Loading.image .linux [] (by decide)) .nil hfits kinds emptyFrame 0 (Nat.two_pow_pos 64)

theorem exprCode_gives_of_computes {env : Env} {D : Decls} (hfits : env.Fits D)
    {kinds : Scalar → Bool} {e : Expr} {k : Scalar} (hcomputes : computes kinds (fun _ => false) e)
    (he : HasType D e k.ty) (sup : Supply) : Gives (exprCode env e) sup fun _ _ => True :=
  have hevaluates : Gives (exprCode env e) sup fun code _ =>
      (Setting.blank hfits kinds).Evaluates (fun _ => none) e k code :=
        exprCode_below hcomputes he sup
  hevaluates.mono fun _ _ _ => trivial

end Codegen

section Accepted

variable {isFile : String → Bool} {platform : Platform} {path text : String} {layouts : Registry}
  {p : Program} {out : Codegen.Output} {r : Routine}

theorem Accepted.fitsFrame (h : Accepted isFile platform path text layouts p out)
    (hr : r ∈ out.routines) :
    (envOf platform layouts p out.routines r).Fits (declsOf layouts p r.function.stack) := by
  obtain ⟨f, -, hframes, hfits, -⟩ := h.source hr
  rw [hframes.declsOf]
  exact hfits

theorem Accepted.distinctVariables (h : Accepted isFile platform path text layouts p out)
    (hr : r ∈ out.routines) :
    ((r.function.stack.parameters ++ r.function.stack.locals).map (·.mangled)).Nodup := by
  obtain ⟨f, hf, hframes⟩ := exists_of_forall₂ h.generates.frames.flip hr
  obtain ⟨_, hparameters, -⟩ := hframes.parameters
  obtain ⟨_, hlocals, -⟩ := hframes.locals
  rw [List.map_append, hparameters.map_mangled, hlocals.map_mangled, ← List.map_append]
  exact (h.programOk.functions f hf).distinct

theorem Accepted.backs (h : Accepted isFile platform path text layouts p out)
    (hr : r ∈ out.routines) {m : Image} (hm : (marks m.code).Nodup) {kinds : Scalar → Bool}
    {s : State} (hspans : (envOf platform layouts p out.routines r).Unwrapped s)
    (htruths : kinds .bool → (envOf platform layouts p out.routines r).Truths s) {limit : Nat}
    (hlimit : limit ≤ (s.registers .rsp).toNat) (hlt : limit < 2 ^ 64) :
    (Setting.below m hm (h.fitsFrame hr) kinds s limit hlt).Backs
      (frameStore (envOf platform layouts p out.routines r) s) 0 s := by
  intro mangled kind k hk hstack hdecl
  obtain ⟨v, hv, rfl, hty⟩ : ∃ v ∈ r.function.stack.parameters ++ r.function.stack.locals,
      v.mangled = mangled ∧ v.ty = k.ty := by
    cases kind <;> first | exact hdecl | cases hstack
  obtain ⟨offset, size, haddress, hsize, hbytes⟩ := (h.framed hr).variable hspans hv
  have hfits := h.fitsFrame hr
  have hknown := hfits.known (hfits.sound.value hdecl (by cases k <;> rfl))
  obtain rfl : size = k.bytes := by
    rw [hty, sizeOf_of_known hknown, Scalar.sizeIn_ty hfits.initial] at hsize
    exact (Except.ok.inj hsize).symm
  have hstore : frameStore (envOf platform layouts p out.routines r) s v.mangled =
      some (k.read s.memory (displace (s.registers .rbp) offset)) := by
    have hfind := find?_eq_of_nodup (h.distinctVariables hr) hv
    rw [List.find?_append] at hfind
    rw [frameStore, haddress]
    simp [envOf, hfind, hty, Scalar.ofTy?_ty, Except.toOption, Address.frame, Address.at_]
  refine ⟨offset, haddress, fun n hn => ⟨id, .inr ?_⟩, fun u hu => ?_, fun hnone => ?_⟩
  · exact hlimit.trans (le_depth (hbytes n hn))
  · rw [hstore] at hu
    cases hu
    refine Scalar.holds_read ?_
    rintro rfl
    exact htruths hk v hv hty offset haddress
  · rw [hstore] at hnone
    cases hnone

/-- The code of an expression computes what the expression means in the frame of its function: it
pushes one slot with the value in its low bytes and keeps all memory from the old stack pointer on,
or it stops at a division that faults. -/
theorem expressions_compute (h : Accepted isFile platform path text layouts p out) :
    ∀ r ∈ out.routines, ∀ e (k : Scalar), HasType (declsOf layouts p r.function.stack) e k.ty →
      computes (fun _ => true) (fun _ => false) e →
      ∀ sup, Gives (exprCode (envOf platform layouts p out.routines r) e) sup fun code _ =>
        (envOf platform layouts p out.routines r).sizeOf k.ty = .ok k.bytes ∧
        ∀ (m : Image) i s, (marks m.code).Nodup → Sits m.code i code →
          (envOf platform layouts p out.routines r).Unwrapped s →
          (envOf platform layouts p out.routines r).Truths s →
          stackOf (fun _ => 0) e ≤ (s.registers .rsp).toNat →
          m.Arrives i s (Image.Yields m.Faulted
            (fun v j t => j = i + code.length ∧
              t.registers .rsp = displace (s.registers .rsp) (-16) ∧
              t.registers .rbp = s.registers .rbp ∧
              (∀ x : Word, (s.registers .rsp).toNat ≤ x.toNat → t.memory x = s.memory x) ∧
              k.Holds t.memory (t.registers .rsp) v)
            (eval (fun _ _ => none) (frameStore
              (envOf platform layouts p out.routines r) s) e)) := by
  intro r hr e k he hcomputes sup
  have hfits := h.fitsFrame hr
  obtain ⟨code, sup', hrun, -⟩ := exprCode_gives_of_computes hfits hcomputes he sup
  refine ⟨code, sup', hrun, ?_, fun m i s hm hsits hspans htruths hroom => ?_⟩
  · rw [sizeOf_of_known (hfits.known (he.known hfits.sound)), Scalar.sizeIn_ty hfits.initial]
  have hlt : stackOf (fun _ => 0) e < 2 ^ 64 := hroom.trans_lt (s.registers .rsp).isLt
  have hevaluates : (Setting.below m hm hfits (fun _ => true) s _ hlt).Evaluates
      (frameStore (envOf platform layouts p out.routines r) s) e k code :=
    (exprCode_below hcomputes he sup).of_run hrun
  refine (hevaluates hsits (StackArea.at_below s hlt) (by simp)
    (by simp [Setting.below, StackArea.below])
    (h.backs hr hm hspans (fun _ => htruths) hroom hlt)).onward ?_
  rintro v - j t ⟨rfl, hat, hkept, hfills⟩
  have hrsp : t.registers .rsp = displace (s.registers .rsp) (-16) := hat.rsp
  refine .here ⟨rfl, hrsp, hat.rbp, fun x hx => hkept x ⟨id, .inr ?_⟩, ?_⟩
  · exact hroom.trans (le_depth hx)
  · rw [hrsp]
    exact Scalar.holds_iff.2 hfills

/-- A truth value that depends on a remainder. -/
def remainderText : String :=
  "fn f(int a, bool b) bool { ret b xor ((a %% -3) < a) } fn main() { }"

/-- Whether a statement returns an expression without calls, whose code can be assembled alone. -/
def Codegen.Env.returnsComputed (env : Codegen.Env) (st : Stmt) : Bool :=
  match st with
  | .return_ _ (some e) => computes (fun _ => true) (fun _ => false) e &&
    decide (stackOf (fun _ => 0) e ≤ 0x1000) && (exprCode env e ⟨0, []⟩).toOption.any fun c =>
      decide (c.1.length < 0x1000) && decide (marks c.1).Nodup
  | _ => false

theorem remainderText_passes :
    passes (fun _ => false) (Compilation.baseDirectory "main.bz") "main.bz"
      remainderText (fun p layouts =>
        (generate .linux layouts p).toOption.any fun out => out.routines.any fun r =>
          decide (r.frame.locals ≤ 0x1000) && decide (r.frame.arguments ≤ 0x1000) &&
            r.function.body.statements.any
              (envOf .linux layouts p out.routines r).returnsComputed) = true := by
  have htext : remainderText.toList = _ := String.toList_ofList
  rw [passes, Parse.source, Token.lex, htext]
  decide +kernel

theorem expressions_compute_remainder : ∃ layouts p out,
    Accepted (fun _ => false) .linux "main.bz" remainderText layouts p out ∧
    ∃ r ∈ out.routines, ∃ e, ∃ k : Scalar, ∃ code, ∃ m : Image, m.code = code ∧
      (∃ sup sup', exprCode (envOf .linux layouts p out.routines r) e sup = .ok (code, sup')) ∧
      m.Arrives 0 emptyFrame (Image.Yields m.Faulted
        (fun v j t => j = 0 + code.length ∧
          t.registers .rsp = displace 0x10000#64 (-16) ∧ t.registers .rbp = 0x20000#64 ∧
          (∀ x : Word, 0x10000 ≤ x.toNat → t.memory x = 0#8) ∧
          k.Holds t.memory (t.registers .rsp) v)
        (eval (fun _ _ => none)
          (frameStore (envOf .linux layouts p out.routines r) emptyFrame) e)) := by
  obtain ⟨layouts, p, out, h, hcheck⟩ := accepted_of_passes remainderText_passes (.inl rfl)
  rw [h.generated] at hcheck
  obtain ⟨r, hr, hcheck⟩ := List.any_eq_true.1 (show out.routines.any _ = true from hcheck)
  simp only [Bool.and_eq_true, decide_eq_true_eq, List.any_eq_true] at hcheck
  obtain ⟨⟨hlocals, harguments⟩, st, hst, hcheck⟩ := hcheck
  unfold Codegen.Env.returnsComputed at hcheck
  split at hcheck
  case h_2 => cases hcheck
  case h_1 span e =>
  simp only [Bool.and_eq_true, decide_eq_true_eq, Option.any_eq_true] at hcheck
  obtain ⟨⟨hcomputes, hstack⟩, ⟨code, sup⟩, hcode, hlength, hdistinct⟩ := hcheck
  obtain ⟨k, hkind, -⟩ := computes_kind hcomputes
  obtain ⟨f, -, hframes, -, hbody⟩ := h.source hr
  have he : HasType (declsOf layouts p r.function.stack) e k.ty := by
    rw [hframes.declsOf]
    have hocc : Stmt.Occurs (.return_ span (some e)) 0 false r.function.body.statements 0 false :=
      .here hst
    obtain ⟨hok, -⟩ := StmtsOk.occurs hocc hbody
    cases hok with | return_ _ he _ =>
    rw [kindOf, he.ty_eq] at hkind
    rwa [← Scalar.ty_of_ofTy? hkind]
  have hrun : exprCode (envOf .linux layouts p out.routines r) e ⟨0, []⟩ = .ok (code, sup) := by
    cases hresult : exprCode (envOf .linux layouts p out.routines r) e ⟨0, []⟩ with
    | error _ => simp [hresult, Except.toOption] at hcode
    | ok c => simpa [hresult, Except.toOption] using hcode
  have hshort : code.length < 2 ^ 63 := by
    dsimp only at hlength
    omega
  obtain ⟨-, harrives⟩ := (expressions_compute h r hr e k he hcomputes ⟨0, []⟩).of_run hrun
  have hspans : (envOf .linux layouts p out.routines r).Unwrapped emptyFrame := by
    refine ⟨?_, ?_⟩
    · change 0x10000 + r.frame.locals ≤ 0x20000
      omega
    · change 0x20000 + 16 + r.frame.arguments ≤ 2 ^ 64
      omega
  refine ⟨layouts, p, out, h, r, hr, e, k, code, Loading.image .linux code hshort, rfl,
    ⟨_, _, hrun⟩, ?_⟩
  exact harrives (Loading.image .linux code hshort) 0 emptyFrame hdistinct
    (fun n instr hn => by simpa [Loading.image] using hn) hspans (fun _ _ _ _ _ => .inl rfl)
    (by change stackOf (fun _ => 0) e ≤ 0x10000; omega)

end Accepted

end RegionCompiler
