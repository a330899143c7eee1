import RegionCompiler.Proofs.Codegen.Agreement
import RegionCompiler.Proofs.Codegen.Assembled
import RegionCompiler.Proofs.Codegen.StackArea

/-! The code of an expression computes its value. It pushes one slot whose low bytes are those of
the value, and keeps everything that lies above; where a division faults, the run stops at it. -/
namespace RegionCompiler.Semantics

open Machine

theorem Scalar.ofTy?_ty (k : Scalar) : Scalar.ofTy? k.ty = some k := by
  cases k <;> decide

theorem Scalar.ty_inj {k r : Scalar} (h : k.ty = r.ty) : k = r := by
  have hty := congrArg Scalar.ofTy? h
  rw [Scalar.ofTy?_ty, Scalar.ofTy?_ty] at hty
  exact Option.some.inj hty

theorem Scalar.eq_of_agrees {k : Scalar} {t : Ty} (h : k.ty.agrees t) : t = k.ty := by
  cases t <;> cases k <;> simp_all [Scalar.ty, Ty.agrees, Ty.int, Ty.i32, Ty.byte, Ty.bool]

theorem Scalar.bytes_le (k : Scalar) : k.bytes ≤ 8 := by
  cases k <;> decide

theorem Scalar.slot_bytes (k : Scalar) : Codegen.slot k.bytes = 16 := by cases k <;> rfl

@[simp] theorem Scalar.precision?_ty (k : Scalar) : k.ty.precision? = none := by
  cases k <;> decide

theorem Scalar.sizeIn_ty {r : Registry} (hr : Registry.initial.Le r) (k : Scalar) :
    Codegen.sizeIn r k.ty = k.bytes := by
  obtain ⟨name, l, hty, hl, hsize⟩ : ∃ name l, k.ty = .base name ∧
      Registry.initial.get? name = some l ∧ l.size = k.bytes := by
    cases k <;> exact ⟨_, _, rfl, rfl, rfl⟩
  rw [hty, Codegen.sizeIn_builtin hr hl, hsize]

theorem kindOf_eq {D : Typing.Decls} {e : Expr} {k : Scalar} (h : Typing.HasType D e k.ty) :
    kindOf e = some k := by
  rw [kindOf, h.ty_eq, Option.bind_some, Scalar.ofTy?_ty]

namespace Scalar

variable {k : Scalar} {w : Word} {v : Int}

theorem Fills.range (h : k.Fills w v) : k.Range v := h.1

theorem Fills.neg (h : k.Fills w v) (hk : k ≠ bool) : k.Fills (-w) (k.wrap (-v)) := by
  obtain ⟨x, rfl, hx⟩ := h.exists_ofInt
  rw [← BitVec.ofInt_neg]
  refine fills_ofInt (range_wrap k _) ?_
  rw [wrap_emod hk, Int.neg_emod_eq_sub_emod, Int.neg_emod_eq_sub_emod, Int.sub_emod, hx,
    ← Int.sub_emod]

theorem Fills.complement (h : int.Fills w v) : int.Fills (~~~w) (-v - 1) := by
  obtain ⟨hrange, hlow⟩ := h
  rw [range_int] at hrange
  refine ⟨range_int.2 (by omega), ?_⟩
  simp only [bytes, BitVec.toNat_not] at hlow ⊢
  have hbound := w.isLt
  omega

theorem Fills.toggle (h : bool.Fills w v) : bool.Fills (w ^^^ BitVec.ofInt 64 1) (1 - v) := by
  obtain ⟨hrange, hlow⟩ := h
  rw [range_bool] at hrange
  refine ⟨range_bool.2 (by omega), ?_⟩
  have hbyte : (w ^^^ BitVec.ofInt 64 1).toNat % 2 ^ 8 = (w.toNat % 2 ^ 8) ^^^ 1 := by
    rw [BitVec.toNat_xor, Nat.xor_mod_two_pow]
    rfl
  simp only [bytes] at hlow ⊢
  have hmod : w.toNat % 2 ^ 8 = v.toNat := by omega
  rw [hmod] at hbyte
  rcases hrange with rfl | rfl <;> simp at hbyte ⊢ <;> omega

theorem Fills.convert {r : Scalar} (h : k.Range v) (hr : r ≠ bool ∨ k = bool) :
    r.Fills (BitVec.ofInt 64 v) (r.wrap v) := by
  by_cases hbool : r = bool
  · obtain rfl : k = bool := hr.resolve_left (· hbool)
    subst hbool
    rw [show bool.wrap v = v from h]
    exact fills_ofInt h rfl
  · exact fills_wrap hbool v

end Scalar

mutual
/-- Whether an expression is made of literals, plain variables, operators, conversions and calls of
some functions, with every node of one of some kinds. -/
def computes (kinds : Scalar → Bool) (callable : String → Bool) (e : Expr) : Bool :=
  (kindOf e).any kinds &&
    match e with
    | .integer _ _ | .boolean _ _ => true
    | .variable _ head [] => head.binding.any (·.kind.isStack)
    | .variable _ head [.call _ arguments] =>
      head.binding.any (fun b => b.kind = .function && callable b.mangled) &&
        computesAll kinds callable arguments
    | .parenthesized _ inner | .unary _ _ inner | .conversion _ inner _ =>
      computes kinds callable inner
    | .binary _ _ lhs rhs => computes kinds callable lhs && computes kinds callable rhs
    | _ => false

def computesAll (kinds : Scalar → Bool) (callable : String → Bool) : List Expr → Bool
  | [] => true
  | e :: rest => computes kinds callable e && computesAll kinds callable rest
end

section Computing

variable {kinds : Scalar → Bool} {callable : String → Bool} {e : Expr}

theorem computes_kind (h : computes kinds callable e) : ∃ k, kindOf e = some k ∧ kinds k := by
  unfold computes at h
  exact (Option.any_eq_true ..).1 (Bool.and_eq_true_iff.1 h).1

theorem computesAll_mem : ∀ {es : List Expr}, computesAll kinds callable es → e ∈ es →
    computes kinds callable e
  | _ :: _, h, he => by
    rw [computesAll, Bool.and_eq_true] at h
    rcases List.mem_cons.1 he with rfl | he
    · exact h.1
    · exact computesAll_mem h.2 he

end Computing

mutual
/-- How much of the stack an expression takes while it is evaluated. -/
def stackOf (call : String → Nat) : Expr → Nat
  | .variable _ head [.call _ arguments] =>
    16 + (head.binding.elim 0 fun binding => call binding.mangled) + stackOfAll call arguments
  | .variable _ _ _ => 32
  | .parenthesized _ inner | .unary _ _ inner | .conversion _ inner _ => stackOf call inner
  | .binary _ _ lhs rhs => max (stackOf call lhs) (16 + stackOf call rhs)
  | _ => 16

def stackOfAll (call : String → Nat) : List Expr → Nat
  | [] => 0
  | e :: rest => max (stackOf call e) (stackOfAll call rest)
end

theorem le_stackOf (call : String → Nat) : ∀ e : Expr, 16 ≤ stackOf call e
  | .parenthesized _ inner | .unary _ _ inner | .conversion _ inner _ => by
    rw [stackOf]
    exact le_stackOf call inner
  | .binary _ _ lhs rhs => by
    rw [stackOf]
    omega
  | .variable _ head accessors => by
    unfold stackOf
    split <;> first | contradiction | omega
  | .integer _ _ | .float _ _ | .boolean _ _ | .string _ _ | .null _ | .array _ _
  | .allocation _ _ | .addressOf _ _ _ _ | .construct _ _ _ => Nat.le_refl _

end RegionCompiler.Semantics

namespace RegionCompiler.Codegen

open Machine Machine.Instr Semantics Typing

section Slots

variable {m : Image} {w : StackArea} {d i : Nat} {s t : State} {k r : Scalar} {v : Int}

theorem pushImmediate_arrives {P : Word → Prop} {value : Int}
    (hsits : Sits m.code i (pushImmediate value)) (h : w.At d s) (hd : d + 16 ≤ w.limit)
    (hP : P (BitVec.ofInt 64 value)) :
    m.Arrives i s fun j t => j = i + (pushImmediate value).length ∧ w.Pushes d P s t := by
  have hat : w.At d (s.set .rax (BitVec.ofInt 64 value)) :=
    h.scratch (.load (by decide) (by decide) s _)
  refine .step (Image.step_effect hsits.head (State.effect_movImm_register ..)) ?_
  refine (pushRax_arrives hsits.tail hat hd (by simpa using hP)).mono ?_
  rintro j t ⟨rfl, hpushes⟩
  exact ⟨by simp [pushImmediate, Nat.add_comm 1, Nat.add_assoc], hpushes.after fun _ _ => rfl⟩

theorem integerBits_fills (hk : k ≠ .bool) (n : Nat) :
    k.Fills (BitVec.ofInt 64 (integerBits k.ty n)) (k.wrap n) := by
  refine Scalar.fills_ofInt (Scalar.range_wrap k _) ?_
  rw [Scalar.wrap_emod hk, integerBits, Scalar.precision?_ty]
  have hword : ((n : Int).bmod UInt64.size) = ((n : Int) + 2 ^ 63) % 2 ^ 64 - 2 ^ 63 := bmod_word n
  rw [hword]
  cases k <;> simp only [Scalar.bytes] <;> omega

theorem unaryCode_arrives {op : UnaryOp} (hsits : Sits m.code i (unaryCode op k.ty))
    (hop : UnaryDefined op k.ty) (hd : d + 16 ≤ w.limit) (h : w.Pushes d (k.Fills · v) s t) :
    m.Arrives i t (Image.Yields m.Faulted (fun v j u => j = i + (unaryCode op k.ty).length ∧
      w.Pushes d (k.Fills · v) s u) (unaryValue op k v)) := by
  cases op with
  | not_ =>
    have hplain : k.ty.isPlain "int" ∨ k.ty.isPlain "bool" := hop
    by_cases hk : k = .bool
    · subst hk
      refine .step (Image.step_effect hsits.head (State.effect_xor_memory ..)) (.here ⟨rfl, ?_⟩)
      rw [address_top h.at_]
      exact h.replace hd (.withFlags _ _) h.word.toggle
    · obtain rfl : k = .int := by
        revert hplain hk
        cases k <;> decide
      refine .step (Image.step_effect hsits.head (State.effect_not_memory ..)) (.here ⟨rfl, ?_⟩)
      rw [address_top h.at_]
      exact h.replace hd (.refl _) h.word.complement
  | negate =>
    have hk : k ≠ .bool := by
      rintro rfl
      have hnumeric : Ty.isNumeric Scalar.bool.ty := hop
      exact absurd hnumeric (by decide)
    have hcode : unaryCode .negate k.ty = [.unary .neg top] := by
      simp [unaryCode]
    rw [hcode] at hsits ⊢
    refine .step (Image.step_effect hsits.head (State.effect_neg_memory ..)) (.here ⟨rfl, ?_⟩)
    rw [address_top h.at_]
    exact h.replace hd (.withFlags _ _) (h.word.neg hk)
  | release =>
    have haddress : k.ty.isPointer ∨ k.ty.isArray := hop
    exact absurd haddress (by cases k <;> decide)

theorem conversionCode_arrives (hsits : Sits m.code i (conversionCode k.ty r.ty k.bytes))
    (hr : r ≠ .bool ∨ k = .bool) (hd : d + 16 ≤ w.limit) (h : w.Pushes d (k.Fills · v) s t) :
    m.Arrives i t fun j u => j = i + (conversionCode k.ty r.ty k.bytes).length ∧
      w.Pushes d (r.Fills · (r.wrap v)) s u := by
  have hcode : conversionCode k.ty r.ty k.bytes =
      [loadInteger .rax top k.bytes k.ty, mov top Register.rax] := by
    simp [conversionCode]
  rw [hcode] at hsits ⊢
  have hholds : k.Holds t.memory (t.address m.symbols top) v := by
    rw [address_top h.at_]
    exact Scalar.holds_iff.2 h.word
  refine .step (Image.step_effect hsits.head (loadInteger_effect hholds .rax)) ?_
  refine .step (Image.step_effect hsits.tail.head (State.effect_mov_memory ..)) (.here ⟨rfl, ?_⟩)
  have hscratch : t.Scratches (t.set .rax (BitVec.ofInt 64 v)) :=
    .load (by decide) (by decide) t _
  rw [address_top (h.at_.scratch hscratch)]
  exact h.replace hd hscratch (Scalar.Fills.convert h.word.range hr)

theorem integerBinary_arrives (hm : (marks m.code).Nodup) {op : BinaryOp}
    (hop : operatorDefined op k.ty) (sup : Supply) :
    Gives (integerBinary op k.ty k.ty k.bytes k.bytes) sup fun code _ =>
      ∀ {w : StackArea} {d i : Nat} {s s₁ s₂ : State} {a b : Int}, Sits m.code i code →
        d + 32 ≤ w.limit → w.Pushes d (k.Fills · a) s s₁ → w.Pushes (d + 16) (k.Fills · b) s₁ s₂ →
        m.Arrives i s₂ (Image.Yields m.Faulted (fun v j t => j = i + code.length ∧
          w.Pushes d ((Scalar.result op k).Fills · v) s t) (binaryValue op k a b)) := by
  refine .bind (P := fun code _ => Operates m k (.result op k) (binaryValue op k) code)
    (by rw [Scalar.unsigned_eq]; exact integerOperation_operates hm hop sup)
    fun operation _ hoperates => .pure ?_
  intro w d i s s₁ s₂ a b hsits hd h₁ h₂
  have hfirst : k.Holds s₂.memory (s₂.address m.symbols (Address.stack 16)) a := by
    rw [address_slot h₂.at_ (by omega), Scalar.holds_iff,
      show d + 16 + 16 - 16 = d + 16 by omega, h₂.kept.word (by omega) (by omega)]
    exact h₁.word
  refine .step (Image.step_effect hsits.left.left.left.head (loadInteger_effect hfirst .rax)) ?_
  have hscratch : s₂.Scratches (s₂.set .rax (BitVec.ofInt 64 a)) :=
    .load (by decide) (by decide) s₂ _
  have hsecond : k.Holds (s₂.set .rax (BitVec.ofInt 64 a)).memory
      ((s₂.set .rax (BitVec.ofInt 64 a)).address m.symbols top) b := by
    rw [address_top (h₂.at_.scratch hscratch)]
    exact Scalar.holds_iff.2 h₂.word
  refine .step (Image.step_effect hsits.left.left.left.tail.head
    (loadInteger_effect hsecond .rcx)) ?_
  have hscratch' := hscratch.trans (.load (r := .rcx) (by decide) (by decide) _ (BitVec.ofInt 64 b))
  refine (raise_arrives hsits.left.left.right (h₂.at_.scratch hscratch')).bind ?_
  rintro _ s₃ ⟨rfl, hat, hmemory, hregisters⟩
  have hrun := hoperates _ s₃ a b hsits.left.right h₁.word.range h₂.word.range
    (by rw [hregisters .rax (by decide)]; simp) (by rw [hregisters .rcx (by decide)]; simp)
  refine hrun.onward ?_
  rintro v - _ t ⟨rfl, hscratch₃, hfills⟩
  have hat₃ := hat.scratch hscratch₃
  rw [Nat.add_assoc, ← List.length_append]
  refine .step (Image.step_effect hsits.right.head (State.effect_mov_memory ..))
    (.here ⟨by simp [Nat.add_assoc], ?_⟩)
  rw [address_top hat₃]
  refine ⟨hat₃.put (by omega) (by omega) _, ?_, by simpa using hfills⟩
  refine h₁.kept.trans ((h₂.kept.mono (by omega)).trans (StackArea.Keeps.trans (fun x _ => ?_)
    (StackArea.keeps_put (by omega) (by omega) t _)))
  rw [hscratch₃.memory, hmemory, hscratch'.memory]

/-- Code of a place followed by a load of the value there, which lies where the load does not
write. -/
theorem valueAt_arrives {place : Code} {a : Word} (hsits : Sits m.code i (valueAt k.bytes place 0))
    (hd : d + 32 ≤ w.limit)
    (hplace : m.Arrives i s fun j t => j = i + place.length ∧ w.Pushes d (· = a) s t)
    (hsafe : ∀ n < k.bytes, w.Safe d (a + BitVec.ofNat 64 n)) (hv : k.Holds s.memory a v) :
    m.Arrives i s fun j t =>
      j = i + (valueAt k.bytes place 0).length ∧ w.Pushes d (k.Fills · v) s t := by
  have hbytes := k.bytes_le
  rw [valueAt, k.slot_bytes] at hsits ⊢
  refine hplace.bind ?_
  rintro _ s₁ ⟨rfl, hat₁, hkept₁, hword₁⟩
  have hscratch : s₁.Scratches (s₁.set .rax a) := .load (by decide) (by decide) s₁ a
  refine .step (Image.step_effect hsits.left.left.left.right.head
    (State.effect_mov_register ..)) ?_
  rw [State.read_memory, address_top hat₁, hword₁]
  refine (lower_arrives (hsits.left.left.right.cast (by simp [Nat.add_assoc]))
    (hat₁.scratch hscratch)).bind ?_
  rintro _ s₂ ⟨rfl, hat₂, hkept₂, hregisters⟩
  have hsource : s₂.address m.symbols (Address.at_ .rax 0) = a := by
    simp [hregisters .rax (by decide)]
  have hsame : ∀ n < k.bytes,
      s₂.memory (a + BitVec.ofNat 64 n) = s.memory (a + BitVec.ofNat 64 n) :=
    fun n hn => (hkept₂ _ ((hsafe n hn).mono (by omega))).trans (hkept₁ _ (hsafe n hn))
  have hcopy : Sits m.code (i + place.length + 1 + (lower 16).length)
      (copy top (Address.at_ .rax 0) k.bytes) := hsits.left.right.cast (by simp; omega)
  refine (copy_arrives hcopy (Address.avoids_stack (by decide) 0)
    (by constructor <;> simp [Address.at_]) (by omega) fun n hn => ?_).bind ?_
  · rw [hsource, address_top hat₂]
    exact StackArea.safe_place (hsafe n hn) (by omega) (by omega)
  rintro _ s₃ ⟨rfl, hregisters₃, hload, hmemory, hblocks, hcalls⟩
  rw [address_top hat₂] at hload hmemory
  rw [hsource] at hload
  have hat₃ : w.At (d + 32) s₃ := by
    refine hat₂.change ((hregisters₃ .rsp (by decide)).trans hat₂.rsp)
      (hregisters₃ .rbp (by decide))
      (fun x hx => hmemory x ?_) hblocks hcalls
    exact StackArea.owned_place hx (by omega) (by omega)
  have hfills : k.Fills (s₃.memory.word (w.place (d + 32))) v := by
    rw [← Scalar.holds_iff]
    refine ⟨hv.1, ?_⟩
    rw [hload, Memory.load_congr hsame, hv.2]
  refine (collapse_arrives (P := (k.Fills · v)) (hsits.right.cast (by simp; omega)) hat₃
    (by omega) hfills).mono ?_
  rintro _ s₄ ⟨rfl, hpushes⟩
  refine ⟨by simp; omega, hpushes.after (hkept₁.trans ?_)⟩
  refine StackArea.Keeps.trans (hkept₂.mono (by omega)) fun x hx => hmemory x ?_
  exact StackArea.safe_place hx (by omega) (by omega)

end Slots

/-- What the code of expressions runs in. -/
structure Setting where
  image : Image
  work : StackArea
  env : Env
  decls : Decls
  /-- How a run ends that leads to no value. -/
  Stops : Nat → State → Prop
  /-- How a run may end before it gets to the value. -/
  Quits : Nat → State → Prop
  kinds : Scalar → Bool
  callable : String → Bool
  call : String → List Int → Option Int
  /-- How much of the stack a call takes. -/
  room : String → Nat
  fits : env.Fits decls
  distinct : (marks image.code).Nodup
  faults : ∀ {j t}, image.Faulted j t → Stops j t
  quits : ∀ {j t}, Quits j t → Stops j t

namespace Setting

variable {c : Setting} {store : Store} {d e : Nat} {s t : State} {k : Scalar}

/-- Variables lie where code keeps them and hold what the store says. -/
def Backs (c : Setting) (store : Store) (d : Nat) (s : State) : Prop :=
  ∀ {mangled kind k}, c.kinds k → kind.isStack → c.decls.declares ⟨mangled, kind⟩ k.ty →
    ∃ offset, c.env.variableAddress mangled = .ok (Address.frame offset) ∧
      (∀ n < k.bytes, c.work.Safe d (displace c.work.frame offset + BitVec.ofNat 64 n)) ∧
      (∀ v, store mangled = some v → k.Holds s.memory (displace c.work.frame offset) v) ∧
      (store mangled = none → ∀ j t, c.Stops j t)

theorem Backs.mono (h : c.Backs store d s) (he : d ≤ e) : c.Backs store e s := by
  intro mangled kind k hk hstack hdecl
  obtain ⟨offset, haddress, hsafe, hrest⟩ := h hk hstack hdecl
  exact ⟨offset, haddress, fun n hn => (hsafe n hn).mono he, hrest⟩

theorem Backs.keeps (h : c.Backs store d s) (ht : c.work.Keeps d s t) : c.Backs store d t := by
  intro mangled kind k hk hstack hdecl
  obtain ⟨offset, haddress, hsafe, hholds, hnone⟩ := h hk hstack hdecl
  exact ⟨offset, haddress, hsafe, fun v hv => (hholds v hv).congr fun n hn => ht _ (hsafe n hn),
    hnone⟩

theorem Backs.pushes {P : Word → Prop} (h : c.Backs store d s) (ht : c.work.Pushes d P s t) :
    c.Backs store (d + 16) t :=
  Backs.mono (h.keeps ht.kept) (by omega)

/-- What holds at the end of a run that may quit. -/
def Leads {α : Type} (c : Setting) (P : α → Nat → State → Prop) : Option α → Nat → State → Prop :=
  Image.Yields c.Stops fun v j t => c.Quits j t ∨ P v j t

section Leading

variable {α β : Type} {i : Nat} {P : α → Nat → State → Prop} {Q : β → Nat → State → Prop}
  {o : Option α}

theorem Leads.andThen (h : c.image.Arrives i s (c.Leads P o)) {f : α → Option β}
    (hnext : ∀ v, o = some v → ∀ j t, P v j t → c.image.Arrives j t (c.Leads Q (f v))) :
    c.image.Arrives i s (c.Leads Q (o.bind f)) := by
  refine Image.Arrives.andThen h fun v hv j t ht => ?_
  rcases ht with hquits | hP
  · refine .here ?_
    cases hf : f v with
    | none => exact c.quits hquits
    | some u => exact .inl hquits
  · exact hnext v hv j t hP

theorem Leads.onward {P' : α → Nat → State → Prop} (h : c.image.Arrives i s (c.Leads P o))
    (hnext : ∀ v, o = some v → ∀ j t, P v j t →
      c.image.Arrives j t fun j t => c.Quits j t ∨ P' v j t) :
    c.image.Arrives i s (c.Leads P' o) :=
  Image.Arrives.onward h fun v hv j t ht => ht.elim (fun hquits => .here (.inl hquits))
    (hnext v hv j t)

theorem Leads.of_yields (h : c.image.Arrives i s (Image.Yields c.image.Faulted P o)) :
    c.image.Arrives i s (c.Leads P o) :=
  (Image.Arrives.orElse h fun _ _ => c.faults).onward fun _ _ _ _ hP => .here (.inr hP)

end Leading

def Evaluates (c : Setting) (store : Store) (e : Expr) (k : Scalar) (code : Code) : Prop :=
  ∀ {i d s}, Sits c.image.code i code → c.work.At d s → 16 ∣ d →
    d + stackOf c.room e ≤ c.work.limit → c.Backs store d s →
    c.image.Arrives i s (Image.Yields c.Stops (fun v j t => j = i + code.length ∧
      c.work.Pushes d (k.Fills · v) s t) (eval c.call store e))

/-- Code that pushes the value of an expression unless it quits. -/
def Attempts (c : Setting) (store : Store) (e : Expr) (k : Scalar) (code : Code) : Prop :=
  ∀ {i d s}, Sits c.image.code i code → c.work.At d s → 16 ∣ d →
    d + stackOf c.room e ≤ c.work.limit → c.Backs store d s →
    c.image.Arrives i s (c.Leads (fun v j t => j = i + code.length ∧
      c.work.Pushes d (k.Fills · v) s t) (eval c.call store e))

theorem Attempts.evaluates {e : Expr} {code : Code} (h : c.Attempts store e k code)
    (hquits : ∀ j t, ¬ c.Quits j t) : c.Evaluates store e k code :=
  fun hsits hat haligned hroom hbacks => (h hsits hat haligned hroom hbacks).onward
    fun _ _ _ _ ht => .here (ht.resolve_left (hquits _ _))

end Setting

section Expressions

variable {c : Setting} {store : Store} {k : Scalar}

theorem variableAddress_frame {env : Env} {mangled : String} {a : Address}
    (h : env.variableAddress mangled = .ok a) : ∃ offset, a = Address.frame offset := by
  rcases Env.variableAddress_eq h with ⟨_, _, _, _, rfl⟩ | ⟨_, _, _, _, rfl⟩
  · exact ⟨_, rfl⟩
  · exact ⟨_, rfl⟩

/-- Where a value lies that has a name. -/
def Env.home (env : Env) (binding : Binding) : Except Fault Address :=
  if binding.kind.isStack then env.variableAddress binding.mangled
  else .ok (Address.ofSymbol (embedSymbol binding.mangled))

theorem placeWith_home {env : Env} {D : Decls} (hE : env.Fits D) {name : Located String} {base : Ty}
    {binding : Binding} (hdecl : D.declares binding base) (hbase : base.isFunction = false)
    (along : Ty → Gen Code) (called : Binding → Gen (Code × Nat)) {sup : Supply}
    {P : Code → Supply → Prop} (h : Gives (along base) sup P) :
    ∃ address, env.home binding = .ok address ∧
      Gives (placeWith env ⟨name, some base, some binding⟩ along called) sup fun r sup' =>
        ∃ steps, r = (pushAddress address ++ steps, 0) ∧ P steps sup' := by
  obtain ⟨mangled, kind⟩ := binding
  cases kind with
  | parameter | local_ | iterator =>
    obtain ⟨-, address, hlook⟩ := hE.onStack rfl hdecl
    exact ⟨address, hlook, .lift rfl (.lift rfl (.lift hlook
      (h.bind fun steps sup' hP => .pure ⟨steps, rfl, hP⟩)))⟩
  | embed =>
    exact ⟨_, rfl, .lift rfl (.lift rfl (h.bind fun steps sup' hP => .pure ⟨steps, rfl, hP⟩))⟩
  | function =>
    obtain ⟨_, _, _, -, rfl, -⟩ := hE.functions hdecl
    cases hbase
  | foreignFunction =>
    obtain ⟨_, _, _, _, -, rfl, -⟩ := hE.foreign hdecl
    cases hbase

theorem pushAddress_arrives {m : Image} {w : StackArea} {d i : Nat} {s : State} {address : Address}
    (hsits : Sits m.code i (pushAddress address)) (h : w.At d s) (hd : d + 16 ≤ w.limit) :
    m.Arrives i s fun j t => j = i + (pushAddress address).length ∧
      w.Pushes d (· = s.address m.symbols address) s t := by
  have hat : w.At d (s.set .rax (s.address m.symbols address)) :=
    h.scratch (.load (by decide) (by decide) s _)
  refine .step (Image.step_effect hsits.head (State.effect_lea ..)) ?_
  refine (pushRax_arrives (P := (· = s.address m.symbols address)) hsits.tail hat hd
    (by simp)).mono ?_
  rintro j t ⟨rfl, hpushes⟩
  exact ⟨by simp [pushAddress, Nat.add_comm 1, Nat.add_assoc], hpushes.after fun _ _ => rfl⟩

theorem variable_attempts {node : Node} {head : Head} {binding : Binding}
    (h : HasType c.decls (.variable node head []) k.ty) (hbinding : head.binding = some binding)
    (hstack : binding.kind.isStack) (hk : c.kinds k) (sup : Supply) :
    Gives (exprCode c.env (.variable node head [])) sup fun code _ =>
      c.Attempts store (.variable node head []) k code := by
  have hkind := kindOf_eq h
  cases h with | @reference span _ _ _ h
  cases h with | @value name _ _ _ _ hdecl hf hleads
  cases hleads
  cases hbinding
  have hknown := c.fits.known (c.fits.sound.value hdecl hf)
  have hnone : Gives (accessorsCode c.env name.value k.ty []) sup fun steps _ => steps = [] := by
    rw [accessorsCode]
    exact .pure rfl
  obtain ⟨address, hhome, hplace⟩ := placeWith_home c.fits hdecl hf
    (fun t => accessorsCode c.env name.value t [])
    (fun binding => calledCode c.env name.value binding []) hnone
  rw [exprCode_reference (by simp)]
  refine .lift rfl (.lift rfl (.lift (sizeOf_of_known hknown) (hplace.bind ?_)))
  rintro _ _ ⟨_, rfl, rfl⟩
  refine .pure fun {i d s} hsits hat _ hroom hbacks => ?_
  obtain ⟨offset, haddress, hsafe, hholds, hnone⟩ := hbacks hk hstack hdecl
  obtain rfl : address = Address.frame offset := by
    rw [Env.home, if_pos hstack, haddress] at hhome
    exact (Except.ok.inj hhome).symm
  simp only [stackOf] at hroom
  rw [Scalar.sizeIn_ty c.fits.initial, List.append_nil] at hsits ⊢
  have heval : eval c.call store (.variable ⟨span, some k.ty⟩ ⟨name, some k.ty, some binding⟩ []) =
      store binding.mangled := by
    rw [eval, hkind]
    simp [hstack]
  rw [heval]
  cases hstore : store binding.mangled with
  | none => exact .here (hnone hstore _ _)
  | some v =>
    refine (valueAt_arrives hsits hroom ?_ hsafe (hholds v hstore)).mono fun _ _ => .inr
    have hpush := pushAddress_arrives hsits.left.left.left.left hat
      (show d + 16 ≤ c.work.limit by omega)
    rwa [State.address_frame, hat.rbp] at hpush

theorem unary_attempts {node : Node} {op : Located UnaryOp} {operand : Expr}
    (h : HasType c.decls (.unary node op operand) k.ty)
    (hoperand : HasType c.decls operand k.ty → ∀ sup, Gives (exprCode c.env operand) sup
      fun code _ => c.Attempts store operand k code) (sup : Supply) :
    Gives (exprCode c.env (.unary node op operand)) sup fun code _ =>
      c.Attempts store (.unary node op operand) k code := by
  have hkind := kindOf_eq h
  cases h with | unary h hop
  rw [exprCode]
  refine .lift rfl (.lift (by rw [h.ty_eq]; rfl) ((hoperand h sup).bind fun value _ hvalue => ?_))
  refine .pure fun {i d s} hsits hat haligned hroom hbacks => ?_
  simp only [stackOf] at hroom
  have hslot := le_stackOf c.room operand
  rw [eval, hkind]
  refine Setting.Leads.andThen (hvalue hsits.left hat haligned hroom hbacks) ?_
  rintro v - _ t ⟨rfl, hpushes⟩
  refine Setting.Leads.onward
    (Setting.Leads.of_yields (unaryCode_arrives hsits.right hop (by omega) hpushes)) ?_
  rintro u - _ t ⟨rfl, hpushes⟩
  exact .here (.inr ⟨by simp [Nat.add_assoc], hpushes⟩)

theorem binary_attempts {node : Node} {op : Located BinaryOp} {lhs rhs : Expr} {r : Scalar}
    (h : HasType c.decls (.binary node op lhs rhs) r.ty) (hk : kindOf lhs = some k)
    (hlhs : HasType c.decls lhs k.ty → ∀ sup, Gives (exprCode c.env lhs) sup
      fun code _ => c.Attempts store lhs k code)
    (hrhs : HasType c.decls rhs k.ty → ∀ sup, Gives (exprCode c.env rhs) sup
      fun code _ => c.Attempts store rhs k code) (sup : Supply) :
    Gives (exprCode c.env (.binary node op lhs rhs)) sup fun code _ =>
      c.Attempts store (.binary node op lhs rhs) r code := by
  have hkind := kindOf_eq h
  generalize hr : r.ty = t at h
  cases h with | @binary _ _ _ _ t u h h' hagrees hop
  obtain rfl : t = k.ty := by
    rw [kindOf, h.ty_eq] at hk
    exact Scalar.ty_of_ofTy? hk
  obtain rfl := Scalar.eq_of_agrees hagrees
  obtain rfl : r = Scalar.result op.value k := Scalar.ty_inj (by rw [hr, Scalar.ty_result])
  have hsize : c.env.sizeOf k.ty = .ok k.bytes := by
    rw [sizeOf_of_known (c.fits.known (h.known c.fits.sound)), Scalar.sizeIn_ty c.fits.initial]
  rw [exprCode]
  refine .lift rfl (.lift (by rw [h.ty_eq]; rfl) (.lift (by rw [h'.ty_eq]; rfl)
    ((hlhs h sup).bind fun left sup₁ hleft => (hrhs h' sup₁).bind fun right sup₂ hright => ?_)))
  rw [Scalar.precision?_ty]
  refine .lift hsize (.lift hsize ((integerBinary_arrives c.distinct hop sup₂).bind
    fun operation _ hoperation => .pure fun {i d s} hsits hat haligned hroom hbacks => ?_))
  simp only [stackOf] at hroom
  have hslot := le_stackOf c.room rhs
  rw [eval, hkind]
  simp only [hk, Option.bind_some]
  refine Setting.Leads.andThen (hleft hsits.left.left hat haligned (by omega) hbacks) ?_
  rintro a - _ s₁ ⟨rfl, hpushes⟩
  refine Setting.Leads.andThen (hright hsits.left.right hpushes.at_ (by omega) (by omega)
    (hbacks.pushes hpushes)) ?_
  rintro b - _ s₂ ⟨rfl, hpushes'⟩
  rw [Nat.add_assoc, ← List.length_append]
  refine Setting.Leads.onward (Setting.Leads.of_yields
    (hoperation hsits.right (by omega) hpushes hpushes')) ?_
  rintro v - _ t ⟨rfl, hpushes''⟩
  exact .here (.inr ⟨by simp [Nat.add_assoc], hpushes''⟩)

theorem conversion_attempts {node : Node} {inner : Expr} {target : Located Ty} {r : Scalar}
    (h : HasType c.decls (.conversion node inner target) r.ty) (hk : kindOf inner = some k)
    (hinner : HasType c.decls inner k.ty → ∀ sup, Gives (exprCode c.env inner) sup
      fun code _ => c.Attempts store inner k code) (sup : Supply) :
    Gives (exprCode c.env (.conversion node inner target)) sup fun code _ =>
      c.Attempts store (.conversion node inner target) r code := by
  have hkind := kindOf_eq h
  generalize hr : r.ty = u at h
  cases h with | @conversion _ _ _ t h hvalid _
  obtain rfl : t = k.ty := by
    rw [kindOf, h.ty_eq] at hk
    exact Scalar.ty_of_ofTy? hk
  rw [← hr] at hvalid
  have hbool : r ≠ .bool ∨ k = .bool := by
    revert hvalid
    cases r <;> cases k <;> decide
  have hsize : c.env.sizeOf k.ty = .ok k.bytes := by
    rw [sizeOf_of_known (c.fits.known (h.known c.fits.sound)), Scalar.sizeIn_ty c.fits.initial]
  rw [exprCode]
  refine .lift rfl ((hinner h sup).bind fun value _ hvalue => .lift (by rw [h.ty_eq]; rfl)
    (.lift hsize (.pure fun {i d s} hsits hat haligned hroom hbacks => ?_)))
  rw [← hr] at hsits ⊢
  simp only [stackOf] at hroom
  have hslot := le_stackOf c.room inner
  rw [← hr] at hkind
  rw [eval, hkind]
  simp only [Option.map_eq_bind]
  refine Setting.Leads.andThen (hvalue hsits.left hat haligned hroom hbacks) ?_
  rintro v - _ t ⟨rfl, hpushes⟩
  refine (conversionCode_arrives hsits.right hbool (by omega) hpushes).mono ?_
  rintro _ t ⟨rfl, hpushes⟩
  exact .inr ⟨by simp [Nat.add_assoc], hpushes⟩

theorem literal_attempts {node : Node} {literal : IntegerLiteral}
    (h : HasType c.decls (.integer node literal) k.ty) (sup : Supply) :
    Gives (exprCode c.env (.integer node literal)) sup fun code _ =>
      c.Attempts store (.integer node literal) k code := by
  have hkind := kindOf_eq h
  cases h with | integer hnumeric
  have hk : k ≠ .bool := by
    rintro rfl
    exact absurd hnumeric (by decide)
  rw [exprCode]
  refine .lift rfl (.pure fun {i d s} hsits hat _ hroom _ => ?_)
  rw [eval, hkind]
  exact (pushImmediate_arrives hsits hat hroom (integerBits_fills hk _)).mono fun _ _ => .inr

theorem boolean_attempts {node : Node} {value : Bool}
    (h : HasType c.decls (.boolean node value) k.ty) (sup : Supply) :
    Gives (exprCode c.env (.boolean node value)) sup fun code _ =>
      c.Attempts store (.boolean node value) k code := by
  have hkind := kindOf_eq h
  generalize hk : k.ty = t at h
  cases h
  obtain rfl : k = .bool := Scalar.ty_inj hk
  rw [exprCode]
  refine .lift rfl (.pure fun {i d s} hsits hat _ hroom _ => ?_)
  rw [eval, hkind]
  exact (pushImmediate_arrives hsits hat hroom (Scalar.fills_truth value)).mono fun _ _ => .inr

theorem parenthesized_attempts {node : Node} {inner : Expr}
    (h : HasType c.decls (.parenthesized node inner) k.ty)
    (hinner : HasType c.decls inner k.ty → ∀ sup, Gives (exprCode c.env inner) sup
      fun code _ => c.Attempts store inner k code) (sup : Supply) :
    Gives (exprCode c.env (.parenthesized node inner)) sup fun code _ =>
      c.Attempts store (.parenthesized node inner) k code := by
  have hkind := kindOf_eq h
  cases h with | parenthesized h
  rw [exprCode]
  refine .lift rfl ((hinner h sup).mono fun code _ hcode {i d s} hsits hat haligned hroom hbacks =>
    ?_)
  rw [eval, hkind]
  simp only [stackOf] at hroom
  exact hcode hsits hat haligned hroom hbacks

/-- Expressions compute their values, if calls do so whenever their arguments do. -/
theorem exprCode_attempts
    (hcall : ∀ {node head node' arguments} {k : Scalar},
      (∀ e ∈ arguments, ∀ {r : Scalar}, computes c.kinds c.callable e → HasType c.decls e r.ty →
        ∀ sup, Gives (exprCode c.env e) sup fun code _ => c.Attempts store e r code) →
      computes c.kinds c.callable (.variable node head [.call node' arguments]) →
      HasType c.decls (.variable node head [.call node' arguments]) k.ty → ∀ sup,
      Gives (exprCode c.env (.variable node head [.call node' arguments])) sup fun code _ =>
        c.Attempts store (.variable node head [.call node' arguments]) k code) :
    ∀ (e : Expr) {k : Scalar}, computes c.kinds c.callable e → HasType c.decls e k.ty → ∀ sup,
      Gives (exprCode c.env e) sup fun code _ => c.Attempts store e k code
  | .integer node literal, k, _, h, sup => literal_attempts h sup
  | .boolean node value, k, _, h, sup => boolean_attempts h sup
  | .variable node head [.call node' arguments], k, hcomputes, h, sup =>
    hcall (fun e _ _ hcomputes h => exprCode_attempts hcall e hcomputes h) hcomputes h sup
  | .variable node head [], k, hcomputes, h, sup => by
    obtain ⟨r, hkind, hr⟩ := computes_kind hcomputes
    obtain rfl : k = r := Option.some.inj ((kindOf_eq h).symm.trans hkind)
    unfold computes at hcomputes
    obtain ⟨binding, hbinding, hstack⟩ :=
      (Option.any_eq_true ..).1 (Bool.and_eq_true_iff.1 hcomputes).2
    exact variable_attempts h hbinding hstack hr sup
  | .parenthesized node inner, k, hcomputes, h, sup => by
    unfold computes at hcomputes
    have hinner := (Bool.and_eq_true_iff.1 hcomputes).2
    exact parenthesized_attempts h (fun h => exprCode_attempts hcall inner hinner h) sup
  | .unary node op operand, k, hcomputes, h, sup => by
    unfold computes at hcomputes
    have hoperand := (Bool.and_eq_true_iff.1 hcomputes).2
    exact unary_attempts h (fun h => exprCode_attempts hcall operand hoperand h) sup
  | .binary node op lhs rhs, k, hcomputes, h, sup => by
    unfold computes at hcomputes
    obtain ⟨hlhs, hrhs⟩ := Bool.and_eq_true_iff.1 (Bool.and_eq_true_iff.1 hcomputes).2
    obtain ⟨r, hkind, -⟩ := computes_kind hlhs
    exact binary_attempts h hkind (fun h => exprCode_attempts hcall lhs hlhs h)
      (fun h => exprCode_attempts hcall rhs hrhs h) sup
  | .conversion node inner target, k, hcomputes, h, sup => by
    unfold computes at hcomputes
    have hinner := (Bool.and_eq_true_iff.1 hcomputes).2
    obtain ⟨r, hkind, -⟩ := computes_kind hinner
    exact conversion_attempts h hkind (fun h => exprCode_attempts hcall inner hinner h) sup
  | .float _ _, _, hcomputes, _, _ | .string _ _, _, hcomputes, _, _ | .null _, _, hcomputes, _, _
  | .array _ _, _, hcomputes, _, _ | .allocation _ _, _, hcomputes, _, _
  | .addressOf _ _ _ _, _, hcomputes, _, _ | .construct _ _ _, _, hcomputes, _, _
  | .variable _ _ (.call _ _ :: _ :: _), _, hcomputes, _, _
  | .variable _ _ (.index _ _ :: _), _, hcomputes, _, _
  | .variable _ _ (.dereference _ :: _), _, hcomputes, _, _
  | .variable _ _ (.member _ _ :: _), _, hcomputes, _, _ => by
    unfold computes at hcomputes
    simp at hcomputes
termination_by e => sizeOf e

end Expressions

end RegionCompiler.Codegen
