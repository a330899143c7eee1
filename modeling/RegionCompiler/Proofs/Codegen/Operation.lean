import RegionCompiler.Codegen.Operator
import RegionCompiler.Proofs.Codegen.Gives
import RegionCompiler.Proofs.Codegen.Value
import RegionCompiler.Proofs.Machine.Arithmetic

/-! The code of operators computes what the operators mean. Operands come from slots of which only
the low bytes count, and so does the result go to one; a division without a quotient stops the run
where it stands. -/
namespace RegionCompiler.Machine

def Image.Faulted (m : Image) (j : Nat) (t : State) : Prop :=
  (∃ x, m.code[j]? = some (.unary .idiv x) ∨ m.code[j]? = some (.unary .div x)) ∧ m.step j t = none

theorem Image.faulted {m : Image} {j : Nat} {t : State} {op : UnaryInstr} {x : Operand}
    (hop : op = .idiv ∨ op = .div) (hj : m.code[j]? = some (.unary op x))
    (h : t.effect m.symbols (.unary op x) = none) : m.Faulted j t := by
  refine ⟨⟨x, ?_⟩, by simp [Image.step, hj, h]⟩
  rcases hop with rfl | rfl
  · exact .inl hj
  · exact .inr hj

namespace Image

/-- What holds at the end of a run: `P` of a value if there is one, or else `F`. -/
def Yields {α : Type} (F : Nat → State → Prop) (P : α → Nat → State → Prop) :
    Option α → Nat → State → Prop
  | some v => P v
  | none => F

section Yielding

variable {m : Image} {i : Nat} {s : State} {α β : Type} {F G : Nat → State → Prop}
  {P : α → Nat → State → Prop} {Q : β → Nat → State → Prop} {o : Option α}

theorem Arrives.andThen (h : m.Arrives i s (Yields F P o)) {f : α → Option β}
    (hnext : ∀ v, o = some v → ∀ j t, P v j t → m.Arrives j t (Yields F Q (f v))) :
    m.Arrives i s (Yields F Q (o.bind f)) := by
  cases o with
  | none => exact h
  | some v => exact h.bind (hnext v rfl)

theorem Arrives.onward {P' : α → Nat → State → Prop} (h : m.Arrives i s (Yields F P o))
    (hnext : ∀ v, o = some v → ∀ j t, P v j t → m.Arrives j t (P' v)) :
    m.Arrives i s (Yields F P' o) := by
  cases o with
  | none => exact h
  | some v => exact h.bind (hnext v rfl)

theorem Arrives.orElse (h : m.Arrives i s (Yields F P o)) (hF : ∀ j t, F j t → G j t) :
    m.Arrives i s (Yields G P o) := by
  cases o with
  | none => exact h.mono hF
  | some v => exact h

end Yielding

end Image

/-- States that differ in scratch registers and in flags. -/
structure State.Scratches (s t : State) : Prop where
  rsp : t.registers .rsp = s.registers .rsp
  rbp : t.registers .rbp = s.registers .rbp
  memory : t.memory = s.memory
  blocks : t.blocks = s.blocks
  calls : t.calls = s.calls

namespace State.Scratches

variable {s t u : State} {r : Register}

theorem refl (s : State) : s.Scratches s := ⟨rfl, rfl, rfl, rfl, rfl⟩

theorem trans (h : s.Scratches t) (h' : t.Scratches u) : s.Scratches u :=
  ⟨h'.rsp.trans h.rsp, h'.rbp.trans h.rbp, h'.memory.trans h.memory, h'.blocks.trans h.blocks,
    h'.calls.trans h.calls⟩

theorem set (hrsp : r ≠ .rsp) (hrbp : r ≠ .rbp) (f : Flags) (w : Word) :
    s.Scratches ((s.withFlags f).set r w) :=
  ⟨by simp [hrsp.symm], by simp [hrbp.symm], rfl, rfl, rfl⟩

theorem load (hrsp : r ≠ .rsp) (hrbp : r ≠ .rbp) (s : State) (w : Word) : s.Scratches (s.set r w) :=
  set hrsp hrbp s.flags w

theorem withFlags (s : State) (f : Flags) : s.Scratches (s.withFlags f) :=
  ⟨rfl, rfl, rfl, rfl, rfl⟩

end State.Scratches

end RegionCompiler.Machine

namespace RegionCompiler.Semantics.Scalar

open Machine

variable {k : Scalar} {a b v x : Int}

/-- Whether the numbers of the type have no sign. -/
def unsigned : Scalar → Bool
  | .int | .i32 => false
  | .byte | .bool => true

theorem unsigned_eq (k : Scalar) : (!(k.ty.isPlain "int" || k.ty.isPlain "i32")) = k.unsigned := by
  cases k <;> decide

theorem Range.word (h : k.Range v) : -2 ^ 63 ≤ v ∧ v < 2 ^ 63 := by
  cases k with
  | int => exact range_int.1 h
  | i32 =>
    rw [range_i32] at h
    omega
  | byte =>
    rw [range_byte] at h
    omega
  | bool =>
    rw [range_bool] at h
    omega

theorem Range.nonneg (h : k.Range v) (hk : k.unsigned) : 0 ≤ v := by
  cases k with
  | int => cases hk
  | i32 => cases hk
  | byte => exact (range_byte.1 h).1
  | bool =>
    rw [range_bool] at h
    omega

theorem Range.toInt (h : k.Range v) : (BitVec.ofInt 64 v).toInt = v := State.toInt_ofInt_word h.word

theorem Range.toNat (h : k.Range v) (hk : k.unsigned) : ((BitVec.ofInt 64 v).toNat : Int) = v := by
  have hword := h.word
  have hnonneg := h.nonneg hk
  rw [BitVec.toNat_ofInt]
  omega

theorem Range.inj (ha : k.Range a) (hb : k.Range b) :
    BitVec.ofInt 64 a = BitVec.ofInt 64 b ↔ a = b := by
  refine ⟨fun h => ?_, fun h => h ▸ rfl⟩
  rw [← ha.toInt, h, hb.toInt]

theorem Range.of_smaller (ha : k.Range a) (hb : k.Range b) (hsmall : v.natAbs < b.natAbs)
    (hsign : 0 ≤ a → 0 ≤ b → 0 ≤ v) : k.Range v := by
  cases k with
  | int =>
    rw [range_int] at *
    omega
  | i32 =>
    rw [range_i32] at *
    omega
  | byte =>
    rw [range_byte] at *
    omega
  | bool =>
    rw [range_bool] at *
    omega

theorem range_tmod (ha : k.Range a) (hb : k.Range b) (hne : b ≠ 0) : k.Range (a.tmod b) := by
  refine ha.of_smaller hb ?_ fun hnonneg _ => Int.tmod_nonneg b hnonneg
  rw [Int.natAbs_tmod]
  exact Nat.mod_lt _ (by omega)

theorem range_fmod (ha : k.Range a) (hb : k.Range b) (hne : b ≠ 0) : k.Range (a.fmod b) := by
  have hlow := Int.emod_nonneg a hne
  have hhigh := Int.emod_lt a hne
  refine ha.of_smaller hb ?_ fun _ hnonneg => Int.fmod_nonneg_of_pos a (by omega)
  rw [Int.fmod_eq_emod]
  split
  case isTrue => omega
  case isFalse h =>
    have hdvd : a % b ≠ 0 := fun hzero => h (.inr (Int.dvd_of_emod_eq_zero hzero))
    omega

theorem fmod_eq (a : Int) {b : Int} (hne : b ≠ 0) : a.fmod b =
    if a.tmod b = 0 ∨ (a.tmod b < 0 ↔ b < 0) then a.tmod b else a.tmod b + b := by
  have hdvd : b ∣ a ↔ a.tmod b = 0 := Int.dvd_iff_tmod_eq_zero
  have hpos : 0 ≤ a → 0 ≤ a.tmod b := Int.tmod_nonneg b
  have hneg : a ≤ 0 → a.tmod b ≤ 0 := by
    intro h
    have hopposite := Int.tmod_nonneg b (show 0 ≤ -a by omega)
    rw [Int.neg_tmod] at hopposite
    omega
  rw [Int.fmod_eq_tmod]
  split
  · rw [if_pos (by omega)]
    omega
  · split <;> split <;> split <;> omega

theorem Range.canDivide_iff (ha : k.Range a) :
    canDivide k a b = true ↔ b ≠ 0 ∧ ¬ (a = -2 ^ 63 ∧ b = -1) := by
  have hword := ha.word
  cases k with
  | int =>
    simp [canDivide]
    tauto
  | i32 =>
    rw [range_i32] at ha
    simp [canDivide]
    omega
  | byte =>
    rw [range_byte] at ha
    simp [canDivide]
    omega
  | bool =>
    rw [range_bool] at ha
    simp [canDivide]
    omega

/-- The low bytes of the word are those of the value. -/
def Fills (k : Scalar) (w : Word) (v : Int) : Prop :=
  k.Range v ∧ (w.toNat : Int) % 256 ^ k.bytes = v % 256 ^ k.bytes

theorem holds_iff {m : Memory} {a : Word} : k.Holds m a v ↔ k.Fills (m.word a) v := by
  have hbytes : k.bytes ≤ 8 := by cases k <;> decide
  have hload : (m.word a).toNat % 256 ^ k.bytes = m.load a k.bytes := by
    have hlt := m.load_lt a 8
    rw [m.load_mod a hbytes, Memory.word, BitVec.toNat_ofNat,
      Nat.mod_eq_of_lt (show m.load a 8 < 2 ^ 64 by omega)]
  rw [Holds, Fills, ← hload]
  push_cast
  rfl

theorem fills_ofInt (hv : k.Range v) (hx : x % 256 ^ k.bytes = v % 256 ^ k.bytes) :
    k.Fills (BitVec.ofInt 64 x) v := by
  refine ⟨hv, ?_⟩
  rw [← hx, BitVec.toNat_ofInt]
  cases k <;> simp only [bytes] <;> omega

/-- Whatever is above the low bytes, they come from a number. -/
theorem Fills.exists_ofInt {w : Word} (h : k.Fills w v) :
    ∃ x, w = BitVec.ofInt 64 x ∧ x % 256 ^ k.bytes = v % 256 ^ k.bytes :=
  ⟨w.toNat, by simp, h.2⟩

theorem fills_wrap (hk : k ≠ bool) (x : Int) : k.Fills (BitVec.ofInt 64 x) (k.wrap x) :=
  fills_ofInt (range_wrap k x) (wrap_emod hk x).symm

theorem fills_truth (b : Bool) : bool.Fills (BitVec.ofInt 64 (truth b)) (truth b) :=
  fills_ofInt (by cases b <;> decide) rfl

/-- The type of the result of an operator. -/
def result (op : BinaryOp) (k : Scalar) : Scalar :=
  if op.isLogical || op.isComparison then bool else k

theorem ty_result (op : BinaryOp) (k : Scalar) :
    Typing.binaryType op k.ty = (result op k).ty := by
  unfold Typing.binaryType result
  split <;> rfl

end RegionCompiler.Semantics.Scalar

namespace RegionCompiler.Codegen

open Machine Machine.Instr Semantics

section Operators

variable {m : Image} {i : Nat} {s : State} {k r : Scalar} {a b : Int}

/-- Code that takes operands in `rax` and `rcx` and leaves the low bytes of a result in `rax`. -/
def Operates (m : Image) (k r : Scalar) (f : Int → Int → Option Int) (code : Code) : Prop :=
  ∀ i s a b, Sits m.code i code → k.Range a → k.Range b →
    s.registers .rax = BitVec.ofInt 64 a → s.registers .rcx = BitVec.ofInt 64 b →
    m.Arrives i s (Image.Yields m.Faulted (fun v j t => j = i + code.length ∧ s.Scratches t ∧
      r.Fills (t.registers .rax) v) (f a b))

theorem operates_single {op : BinaryInstr} {f : Int → Int → Int}
    (h : ∀ (s : State) a b, k.Range a → k.Range b → s.registers .rax = BitVec.ofInt 64 a →
      s.registers .rcx = BitVec.ofInt 64 b → ∃ flags w,
        s.effect m.symbols (.binary op Register.rax Register.rcx) =
          some ((s.withFlags flags).set .rax w) ∧ r.Fills w (f a b)) :
    Operates m k r (fun a b => some (f a b)) [.binary op Register.rax Register.rcx] := by
  intro i s a b hsits ha hb hrax hrcx
  obtain ⟨flags, w, heffect, hfills⟩ := h s a b ha hb hrax hrcx
  refine .step (Image.step_effect hsits.head heffect) (.here ⟨rfl, ?_, by simpa using hfills⟩)
  exact .set (by decide) (by decide) flags w

theorem arithmetic_operates {op : BinaryInstr} {f : Int → Int → Int} (hk : k ≠ .bool)
    (h : ∀ s : State, ∃ flags w, s.effect m.symbols (.binary op Register.rax Register.rcx) =
      some ((s.withFlags flags).set .rax w) ∧ ∀ a b, s.registers .rax = BitVec.ofInt 64 a →
        s.registers .rcx = BitVec.ofInt 64 b → w = BitVec.ofInt 64 (f a b)) :
    Operates m k k (fun a b => some (k.wrap (f a b))) [.binary op Register.rax Register.rcx] := by
  refine operates_single fun s a b _ _ hrax hrcx => ?_
  obtain ⟨flags, w, heffect, hw⟩ := h s
  refine ⟨flags, w, heffect, ?_⟩
  rw [hw a b hrax hrcx]
  exact Scalar.fills_wrap hk _

theorem connective_operates {op : BinaryInstr} {p : Int → Int → Bool}
    (h : ∀ s : State, ∃ flags w, s.effect m.symbols (.binary op Register.rax Register.rcx) =
      some ((s.withFlags flags).set .rax w) ∧ ∀ a b, a = 0 ∨ a = 1 → b = 0 ∨ b = 1 →
        s.registers .rax = BitVec.ofInt 64 a → s.registers .rcx = BitVec.ofInt 64 b →
          w = BitVec.ofInt 64 (truth (p a b))) :
    Operates m .bool .bool (fun a b => some (truth (p a b)))
      [.binary op Register.rax Register.rcx] := by
  refine operates_single fun s a b ha hb hrax hrcx => ?_
  obtain ⟨flags, w, heffect, hw⟩ := h s
  refine ⟨flags, w, heffect, ?_⟩
  rw [hw a b (Scalar.range_bool.1 ha) (Scalar.range_bool.1 hb) hrax hrcx]
  exact Scalar.fills_truth _

theorem division_eq (ha : k.Range a) (hb : k.Range b)
    (hrax : s.registers .rax = BitVec.ofInt 64 a) (hrcx : s.registers .rcx = BitVec.ofInt 64 b) :
    ∃ first op s₁, division k.unsigned = [first, .unary op Register.rcx] ∧
      (op = .idiv ∨ op = .div) ∧ s.effect m.symbols first = some s₁ ∧ s.Scratches s₁ ∧
      s₁.registers .rcx = BitVec.ofInt 64 b ∧
      s₁.effect m.symbols (.unary op Register.rcx) = if canDivide k a b then
        some (((s₁.withFlags .undefined).set .rax (BitVec.ofInt 64 (a.tdiv b))).set .rdx
          (BitVec.ofInt 64 (a.tmod b))) else none := by
  have hcan : canDivide k a b = true ↔ b ≠ 0 ∧ ¬ (a = -2 ^ 63 ∧ b = -1) := ha.canDivide_iff
  cases hsign : k.unsigned with
  | true =>
    obtain ⟨f, hclear⟩ := @State.effect_clear m.symbols s .rdx
    have hnonneg := ha.nonneg hsign
    have hcan' : canDivide k a b = true ↔ b ≠ 0 := by
      rw [hcan]
      omega
    have hdivide := @State.divide_unsigned ((s.withFlags f).set .rdx 0) a b
      ⟨hnonneg, by have := ha.word; omega⟩ ⟨hb.nonneg hsign, by have := hb.word; omega⟩
      (by simpa using hrax) (by simp)
    refine ⟨_, .div, _, rfl, .inr rfl, hclear, .set (by decide)
      (by decide) f 0, by simpa using hrcx, ?_⟩
    rw [State.effect_div, State.registers_set, if_neg (by decide), State.registers_withFlags, hrcx,
      hdivide]
    exact if_congr hcan'.symm rfl rfl
  | false =>
    have hdivide := @State.divide_signed
      (s.set .rdx (if (s.registers .rax).toInt < 0 then -1 else 0)) a b ha.word hb.word
      (by simpa using hrax) (by rw [State.registers_set, if_pos rfl, hrax, ha.toInt])
    refine ⟨_, .idiv, _, rfl, .inl rfl, State.effect_cqo, ?_, by simpa using hrcx, ?_⟩
    · exact .set (by decide) (by decide) s.flags _
    · have hne : Register.rcx ≠ .rdx := by decide
      rw [State.effect_idiv, State.registers_set, if_neg hne, hrcx, hdivide]
      exact if_congr hcan.symm rfl rfl

theorem division_arrives (hsits : Sits m.code i (division k.unsigned)) (ha : k.Range a)
    (hb : k.Range b) (hrax : s.registers .rax = BitVec.ofInt 64 a)
    (hrcx : s.registers .rcx = BitVec.ofInt 64 b) :
    m.Arrives i s (Image.Yields m.Faulted (fun _ j t => j = i + (division k.unsigned).length ∧
      s.Scratches t ∧ t.registers .rax = BitVec.ofInt 64 (a.tdiv b) ∧
      t.registers .rdx = BitVec.ofInt 64 (a.tmod b) ∧ t.registers .rcx = BitVec.ofInt 64 b)
      (if canDivide k a b then some () else none)) := by
  obtain ⟨first, op, s₁, hcode, hop, hfirst, hscratch, hrcx', hdivide⟩ :=
    @division_eq m s k a b ha hb hrax hrcx
  rw [hcode] at hsits ⊢
  refine .step (Image.step_effect hsits.head hfirst) ?_
  split at hdivide
  case isTrue hcan =>
    refine .step (Image.step_effect hsits.tail.head hdivide) (.here ?_)
    simp only [hcan, if_true, Image.Yields]
    refine ⟨rfl, hscratch.trans ⟨by simp, by simp, rfl, rfl,
      rfl⟩, by simp, by simp, by simpa using hrcx'⟩
  case isFalse hcan =>
    refine .here ?_
    rw [if_neg hcan]
    exact Image.faulted hop hsits.tail.head hdivide

theorem label_position (hm : (marks m.code).Nodup) {l : Label} (hi : m.code[i]? = some (.label l)) :
    positionOf m.code (.label l) = some i :=
  positionOf_eq hm hi rfl

theorem setIf_arrives (hm : (marks m.code).Nodup) {condition : Condition} {done : Label}
    (hsits : Sits m.code i (setIf condition done)) {holds : Bool}
    (h : condition.holds s.flags = some holds) :
    m.Arrives i s fun j t => j = i + 4 ∧ t = s.set .rax (BitVec.ofInt 64 (truth holds)) := by
  have hdone := label_position hm hsits.tail.tail.tail.head
  refine .step (Image.step_effect hsits.head (State.effect_movImm_register ..)) ?_
  cases holds with
  | true =>
    refine .taken hsits.tail.head h hdone ?_
    exact .step (Image.step_effect hsits.tail.tail.tail.head rfl) (.here ⟨rfl, rfl⟩)
  | false =>
    refine .notTaken hsits.tail.head h ?_
    refine .step (Image.step_effect hsits.tail.tail.head (State.effect_movImm_register ..)) ?_
    refine .step (Image.step_effect hsits.tail.tail.tail.head rfl) (.here ⟨rfl, ?_⟩)
    rw [State.set_set]
    rfl

theorem compareCode_operates (hm : (marks m.code).Nodup) {condition : Condition}
    (hcondition : condition ≠ .unordered) {p : Int → Int → Prop} [∀ a b, Decidable (p a b)]
    (h : ∀ {a b}, k.Range a → k.Range b →
      condition.compares (BitVec.ofInt 64 a) (BitVec.ofInt 64 b) = decide (p a b)) (sup : Supply) :
    Gives (compareCode condition) sup fun code _ =>
      Operates m k .bool (fun a b => some (truth (p a b))) code := by
  refine .freshLabel (.pure ?_)
  intro i s a b hsits ha hb hrax hrcx
  refine .step (Image.step_effect hsits.head (State.effect_cmp ..)) ?_
  have hholds : condition.holds (s.withFlags (.ofSub (s.registers .rax) (s.registers .rcx))).flags =
      some (decide (p a b)) := by
    rw [State.flags_withFlags, Condition.holds_ofSub hcondition, hrax, hrcx, h ha hb]
  refine (setIf_arrives hm hsits.right hholds).mono ?_
  rintro j t ⟨rfl, rfl⟩
  refine ⟨by simp [setIf], ?_, by simpa using Scalar.fills_truth _⟩
  exact .set (by decide) (by decide) _ _

theorem compares_equal (ha : k.Range a) (hb : k.Range b) :
    Condition.equal.compares (BitVec.ofInt 64 a) (BitVec.ofInt 64 b) = decide (a = b) := by
  simp [Condition.compares, ha.inj hb]

theorem compares_notEqual (ha : k.Range a) (hb : k.Range b) :
    Condition.notEqual.compares (BitVec.ofInt 64 a) (BitVec.ofInt 64 b) = decide (a ≠ b) := by
  simp [Condition.compares, ha.inj hb]

theorem ordered_operates (hm : (marks m.code).Nodup) {plain signed : Condition}
    (hplain : plain ≠ .unordered) (hsigned : signed ≠ .unordered) {p : Int → Int → Prop}
    [∀ a b, Decidable (p a b)]
    (hnat : ∀ x y : Word, plain.compares x y = decide (p x.toNat y.toNat))
    (hint : ∀ x y : Word, signed.compares x y = decide (p x.toInt y.toInt)) (sup : Supply) :
    Gives (compareCode (if k.unsigned then plain else signed)) sup fun code _ =>
      Operates m k .bool (fun a b => some (truth (p a b))) code := by
  refine compareCode_operates hm (by split <;> assumption) (fun {a b} ha hb => ?_) sup
  cases hsign : k.unsigned with
  | true => rw [if_pos rfl, hnat, ha.toNat hsign, hb.toNat hsign]
  | false => rw [if_neg (by decide), hint, ha.toInt, hb.toInt]

theorem toInt_xor_neg (x y : Word) : (x ^^^ y).toInt < 0 ↔ ¬ (x.toInt < 0 ↔ y.toInt < 0) := by
  have hmsb := @BitVec.msb_xor 64 x y
  rw [BitVec.msb_eq_toInt, BitVec.msb_eq_toInt, BitVec.msb_eq_toInt] at hmsb
  generalize (x ^^^ y).toInt = d at hmsb ⊢
  by_cases hx : x.toInt < 0 <;> by_cases hy : y.toInt < 0 <;> (simp_all; try omega)

theorem greaterOrEqual_xor (ha : k.Range a) (hb : k.Range b) :
    Condition.greaterOrEqual.holds (.ofLogic (BitVec.ofInt 64 a ^^^ BitVec.ofInt 64 b)) =
      some (decide (a < 0 ↔ b < 0)) := by
  have hsign := toInt_xor_neg (BitVec.ofInt 64 a) (BitVec.ofInt 64 b)
  rw [ha.toInt, hb.toInt] at hsign
  simp only [Condition.holds, Flags.ofLogic, Flags.ofResult, Option.pure_def, Option.bind_eq_bind,
    Option.bind_some, hsign]
  by_cases h : a < 0 ↔ b < 0 <;> simp [h]

/-- A remainder in `rdx` whose sign is not that of the divisor moves by one divisor. -/
theorem moveRemainder_arrives (hm : (marks m.code).Nodup) {done : Label}
    (hsits : Sits m.code i [mov Register.rax Register.rdx,
      .binary .test Register.rdx Register.rdx, jumpIf .equal done,
      .binary .xor_ Register.rdx Register.rcx, jumpIf .greaterOrEqual done,
      .binary .add Register.rax Register.rcx, .label done])
    (ha : k.Range a) (hb : k.Range b) (hrdx : s.registers .rdx = BitVec.ofInt 64 a)
    (hrcx : s.registers .rcx = BitVec.ofInt 64 b) :
    m.Arrives i s fun j t => j = i + 7 ∧ s.Scratches t ∧ t.registers .rax =
      BitVec.ofInt 64 (if a = 0 ∨ (a < 0 ↔ b < 0) then a else a + b) := by
  have hlast := hsits.tail.tail.tail.tail.tail.tail.head
  have hdone := label_position hm hlast
  refine .step (Image.step_effect hsits.head (State.effect_mov_register ..)) ?_
  refine .step (Image.step_effect hsits.tail.head (State.effect_test ..)) ?_
  have hzero : (BitVec.ofInt 64 a) = 0#64 ↔ a = 0 := ha.inj (show k.Range 0 by cases k <;> decide)
  by_cases h : a = 0
  · refine .taken hsits.tail.tail.head (by simp [Condition.holds, hrdx, h]) hdone ?_
    refine .step (Image.step_effect hlast rfl) (.here ⟨rfl, ?_, by simp [hrdx, h]⟩)
    exact ⟨by simp, by simp, rfl, rfl, rfl⟩
  refine .notTaken hsits.tail.tail.head (by simp [Condition.holds, hrdx, hzero, h]) ?_
  refine .step (Image.step_effect hsits.tail.tail.tail.head (State.effect_xor ..)) ?_
  by_cases hsame : a < 0 ↔ b < 0
  · refine .taken hsits.tail.tail.tail.tail.head
      (by simpa [hrdx, hrcx, hsame] using greaterOrEqual_xor ha hb) hdone ?_
    refine .step (Image.step_effect hlast rfl) (.here ⟨rfl, ?_, by simp [hrdx, hsame]⟩)
    exact ⟨by simp, by simp, rfl, rfl, rfl⟩
  · refine .notTaken hsits.tail.tail.tail.tail.head
      (by simpa [hrdx, hrcx, hsame] using greaterOrEqual_xor ha hb) ?_
    refine .step (Image.step_effect hsits.tail.tail.tail.tail.tail.head (State.effect_add ..)) ?_
    refine .step (Image.step_effect hlast rfl) (.here ⟨rfl, ?_, ?_⟩)
    · exact ⟨by simp, by simp, rfl, rfl, rfl⟩
    · simp [hrdx, hrcx, h, hsame, BitVec.ofInt_add]

theorem divides_eq (v : Int) : (if canDivide k a b then some v else none) =
    (if canDivide k a b then some () else none).bind fun _ => some v := by
  split <;> rfl

theorem flooredModulo_operates (hm : (marks m.code).Nodup) (k : Scalar) (sup : Supply) :
    Gives (flooredModulo k.unsigned) sup fun code _ =>
      Operates m k k (binaryValue .flooredModulo k) code := by
  refine .freshLabel (.pure ?_)
  intro i s a b hsits ha hb hrax hrcx
  rw [binaryValue, divides_eq]
  refine (division_arrives hsits.left ha hb hrax hrcx).andThen ?_
  rintro ⟨⟩ hcan j t ⟨rfl, hscratch, -, hrdx, hrcx'⟩
  have hne : b ≠ 0 := (ha.canDivide_iff.1 (by simpa using hcan)).1
  refine (moveRemainder_arrives hm hsits.right (Scalar.range_tmod ha hb hne) hb hrdx hrcx').mono ?_
  rintro j u ⟨rfl, hscratch', hrax'⟩
  refine ⟨by simp [Nat.add_assoc], hscratch.trans hscratch', ?_⟩
  rw [hrax', ← Scalar.fmod_eq a hne]
  exact Scalar.fills_ofInt (Scalar.range_fmod ha hb hne) rfl

theorem division_operates (k : Scalar) (hk : k ≠ .bool) :
    Operates m k k (binaryValue .divide k) (division k.unsigned) := by
  intro i s a b hsits ha hb hrax hrcx
  rw [binaryValue, divides_eq]
  refine (division_arrives hsits ha hb hrax hrcx).andThen ?_
  rintro ⟨⟩ - j t ⟨rfl, hscratch, hrax', -⟩
  refine .here ⟨rfl, hscratch, ?_⟩
  rw [hrax']
  exact Scalar.fills_wrap hk _

theorem modulo_operates (k : Scalar) : Operates m k k (binaryValue .modulo k)
    (division k.unsigned ++ [mov Register.rax Register.rdx]) := by
  intro i s a b hsits ha hb hrax hrcx
  rw [binaryValue, divides_eq]
  refine (division_arrives hsits.left ha hb hrax hrcx).andThen ?_
  rintro ⟨⟩ hcan j t ⟨rfl, hscratch, -, hrdx, -⟩
  have hne : b ≠ 0 := (ha.canDivide_iff.1 (by simpa using hcan)).1
  refine .step (Image.step_effect hsits.right.head (State.effect_mov_register ..)) (.here ?_)
  refine ⟨by simp [Nat.add_assoc], hscratch.trans (.set (by decide) (by decide) t.flags _), ?_⟩
  rw [State.registers_set, if_pos rfl, State.read_register, hrdx]
  exact Scalar.fills_ofInt (Scalar.range_tmod ha hb hne) rfl

theorem integerOperation_operates (hm : (marks m.code).Nodup) {op : BinaryOp}
    (hop : Typing.operatorDefined op k.ty) (sup : Supply) :
    Gives (integerOperation k.unsigned op) sup fun code _ =>
      Operates m k (.result op k) (binaryValue op k) code := by
  have hnumber : op.isIntegerArithmetic → k ≠ .bool := by
    rintro h rfl
    revert h hop
    cases op <;> decide
  have hconnective : op.isLogical → k = .bool := by
    intro h
    revert h hop
    cases op <;> cases k <;> decide
  cases op with
  | add =>
    refine .pure (arithmetic_operates (hnumber rfl) fun s =>
      ⟨_, _, State.effect_add .rax Register.rcx, fun a b hrax hrcx => ?_⟩)
    rw [State.read_register, hrax, hrcx, ← BitVec.ofInt_add]
  | subtract =>
    refine .pure (arithmetic_operates (hnumber rfl) fun s =>
      ⟨_, _, State.effect_sub .rax Register.rcx, fun a b hrax hrcx => ?_⟩)
    rw [State.read_register, hrax, hrcx, Int.sub_eq_add_neg, BitVec.ofInt_add, BitVec.ofInt_neg,
      BitVec.sub_eq_add_neg]
  | multiply =>
    refine .pure (arithmetic_operates (hnumber rfl) fun s =>
      ⟨_, _, State.effect_imul .rax Register.rcx, fun a b hrax hrcx => ?_⟩)
    rw [State.read_register, hrax, hrcx, ← BitVec.ofInt_mul]
  | divide => exact .pure (division_operates k (hnumber rfl))
  | modulo => exact .pure (modulo_operates k)
  | flooredModulo => exact flooredModulo_operates hm k sup
  | equal => exact compareCode_operates hm (by decide) compares_equal sup
  | notEqual => exact compareCode_operates hm (by decide) compares_notEqual sup
  | less =>
    exact ordered_operates hm (by decide) (by decide) (by simp [Condition.compares])
      (by simp [Condition.compares]) sup
  | lessOrEqual =>
    exact ordered_operates hm (by decide) (by decide) (by simp [Condition.compares])
      (by simp [Condition.compares]) sup
  | greater =>
    exact ordered_operates hm (by decide) (by decide) (by simp [Condition.compares])
      (by simp [Condition.compares]) sup
  | greaterOrEqual =>
    exact ordered_operates hm (by decide) (by decide) (by simp [Condition.compares])
      (by simp [Condition.compares]) sup
  | and_ =>
    obtain rfl := hconnective rfl
    refine .pure (connective_operates fun s =>
      ⟨_, _, State.effect_and .rax Register.rcx, fun a b ha hb hrax hrcx => ?_⟩)
    rw [State.read_register, hrax, hrcx]
    rcases ha with rfl | rfl <;> rcases hb with rfl | rfl <;> decide
  | or_ =>
    obtain rfl := hconnective rfl
    refine .pure (connective_operates fun s =>
      ⟨_, _, State.effect_or .rax Register.rcx, fun a b ha hb hrax hrcx => ?_⟩)
    rw [State.read_register, hrax, hrcx]
    rcases ha with rfl | rfl <;> rcases hb with rfl | rfl <;> decide
  | xor_ =>
    obtain rfl := hconnective rfl
    refine .pure (connective_operates fun s =>
      ⟨_, _, State.effect_xor .rax Register.rcx, fun a b ha hb hrax hrcx => ?_⟩)
    rw [State.read_register, hrax, hrcx]
    rcases ha with rfl | rfl <;> rcases hb with rfl | rfl <;> decide

end Operators

end RegionCompiler.Codegen
