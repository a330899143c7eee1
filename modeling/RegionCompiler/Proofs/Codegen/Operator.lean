import RegionCompiler.Codegen.Expr
import RegionCompiler.Proofs.Codegen.Foreign
import RegionCompiler.Proofs.Codegen.Gives

/-! What the code of operators and of places does to the stack. -/
namespace RegionCompiler.Codegen

open Machine Machine.Instr Typing

/-- Code that pushes a number of bytes, from any aligned state. -/
def Pushes (n m : Nat) (code : Code) (bytes : Nat) : Prop :=
  ∀ (C : (Label → Spot) → Prop) (a : Spot), a.Aligned → Piece C n m a code (a.lower bytes)

/-- Code that leaves the stack as it was. -/
def Keeps (n m : Nat) (code : Code) : Prop :=
  ∀ (C : (Label → Spot) → Prop) (a : Spot), a.Aligned → Piece C n m a code a

theorem dvd_slot (size : Nat) : 16 ∣ slot size := dvd_alignUp (by omega)

section Straight

variable {C : (Label → Spot) → Prop} {n m : Nat} {a : Spot}

theorem pushRax_piece (a : Spot) : Piece C n n a pushRax (a.lower 16) :=
  .append (.lower a 16) (.plain (by decide))

theorem popRax_piece (a : Spot) : Piece C n n (a.lower 16) popRax a :=
  .append (.plain (by decide)) (.raise a 16)

theorem pushImmediate_piece (value : Int) (a : Spot) :
    Piece C n n a (pushImmediate value) (a.lower 16) := by
  refine .append (.plain fun i hi => ?_) (pushRax_piece a)
  rw [List.mem_singleton.1 hi]
  rfl

theorem pushNull_piece (a : Spot) : Piece C n n a pushNull (a.lower 16) :=
  .append (.lower a 16) (.plain (zero_plain _ _))

theorem pushAddress_piece (address : Address) (a : Spot) :
    Piece C n n a (pushAddress address) (a.lower 16) := by
  refine .append (.plain fun i hi => ?_) (pushRax_piece a)
  rw [List.mem_singleton.1 hi]
  rfl

theorem argumentRegisters_free (c : Convention) :
    ∀ r ∈ c.argumentRegisters, r.isFrame = false := by
  cases c <;> decide

theorem callC_piece (platform : Platform) {symbol : String} (hsymbol : IsName symbol)
    (arguments : List Operand) (ha : a.Aligned) :
    Piece C n n a (Collector.callC platform symbol arguments) a := by
  have henter : symbol ≠ Collector.enterSymbol := by
    rintro rfl
    exact hsymbol (by decide)
  have hexit : symbol ≠ Collector.exitSymbol := by
    rintro rfl
    exact hsymbol (by decide)
  have hmoves : ∀ f : Register × Operand → Instr, (∀ r x, f (r, x) = mov r x) →
      ∀ i ∈ (platform.convention.argumentRegisters.zip arguments).map f, i.isPlain := by
    intro f hf i hi
    obtain ⟨⟨r, x⟩, hrx, rfl⟩ := List.mem_map.1 hi
    have hr := argumentRegisters_free _ r (List.of_mem_zip hrx).1
    simp [hf, isPlain, mov, Operand.isFrame, hr]
  unfold Collector.callC
  dsimp only
  split
  · exact .append (.plain (hmoves _ fun _ _ => rfl)) (.append (.append (.lower a 32)
      (.call (ha.lower (by decide)) henter hexit)) (.raise a 32))
  · exact .append (.plain (hmoves _ fun _ _ => rfl)) (.call ha henter hexit)

theorem checkAllocation_piece : Piece C n n a Collector.checkAllocation a :=
  .append (.plain (by decide) : Piece C n n a
    [.binary .test Register.rax Register.rax] a) (.trap (.inl rfl))

theorem allocate_piece (platform : Platform) (count : Operand) (size : Nat) (ha : a.Aligned) :
    Piece C n n a (allocate platform count size) a :=
  .append (.append (callC_piece platform (by simp [IsName]) _ ha) checkAllocation_piece)
    (.call ha (by decide) (by decide))

theorem stringCode_piece (platform : Platform) (symbol : String) (length : Nat) (ha : a.Aligned) :
    Piece C n n a (stringCode platform symbol length) (a.lower 16) := by
  refine .append (.append (.append (allocate_piece platform _ _ ha) (pushRax_piece a))
    (.plain fun i hi => ?_)) (.plain fun i hi => ?_)
  · rw [List.mem_singleton.1 hi]
    rfl
  · split at hi
    · cases hi
    · simp only [List.mem_cons, List.not_mem_nil, or_false] at hi
      rcases hi with rfl | rfl | rfl | rfl <;> rfl

theorem allocationCode_piece (platform : Platform) (size : Nat) (ha : a.Aligned) :
    Piece C n n a (allocationCode platform size) a :=
  .append (.append (.plain (by decide)) (allocate_piece platform _ _ ha)) (.plain (by decide))

theorem indexCode_piece (size : Nat) (a : Spot) :
    Piece C n n (a.lower 16) (indexCode size) a := by
  refine .append (.append (.plain (by decide)) (.raise a 16)) ?_
  refine .append (.append (.plain (by decide) : Piece C n n a
    [mov Register.rax top, .binary .cmp Register.rcx (Address.at_ .rax 8)] a)
    (.trap (.inr rfl))) (.plain fun i hi => ?_)
  simp only [List.mem_cons, List.not_mem_nil, or_false] at hi
  rcases hi with rfl | rfl | rfl | rfl <;> rfl

theorem dereferenceCode_plain : ∀ i ∈ dereferenceCode, i.isPlain := by decide

theorem memberCode_plain (offset : Nat) : ∀ i ∈ memberCode offset, i.isPlain := by
  intro i hi
  unfold memberCode at hi
  split at hi
  · cases hi
  · rw [List.mem_singleton.1 hi]
    rfl

theorem storeBelow_piece (offset size : Nat) (a : Spot) :
    Piece C n n (a.lower (slot size)) (storeBelow offset size) a :=
  .append (.plain (copy_plain _ _ _)) (.raise _ _)

theorem collapse_piece (slot drop : Nat) (a : Spot) :
    Piece C n n (a.lower drop) (collapse slot drop) a := by
  unfold collapse
  split
  · rename_i h
    subst h
    rw [Spot.lower_zero]
    exact .nil
  · refine .append (.plain fun i hi => ?_) (.raise _ _)
    obtain ⟨k, -, hi⟩ := List.mem_flatMap.1 hi
    simp only [List.mem_cons, List.not_mem_nil, or_false] at hi
    rcases hi with rfl | rfl <;> rfl

theorem valueAt_piece {size kept : Nat} {place : Code}
    (h : Piece C n m a place (a.lower (16 + kept))) :
    Piece C n m a (valueAt size place kept) (a.lower (slot size)) := by
  refine .append (.append (.append (.append h (.plain ?_)) (.lower _ _))
    (.plain (copy_plain _ _ _))) ?_
  · decide
  · rw [Spot.lower_lower, Nat.add_comm (16 + kept), ← Spot.lower_lower]
    exact collapse_piece _ _ _

theorem unaryCode_piece (op : UnaryOp) (ty : Ty) (ha : a.Aligned) :
    Piece C n n a (unaryCode op ty) a := by
  cases op with
  | not_ =>
    unfold unaryCode
    dsimp only
    split
    · exact .plain (by decide)
    · exact .plain (by decide)
  | negate =>
    unfold unaryCode
    dsimp only
    split <;> exact .plain (by decide)
  | release =>
    exact .append (.plain (by decide) : Piece C n n a [mov Register.rax top] a)
      (.call ha (by decide) (by decide))

theorem division_plain (unsigned : Bool) : ∀ i ∈ division unsigned, i.isPlain := by
  cases unsigned <;> decide

theorem conversionCode_plain (source target : Ty) (size : Nat) :
    ∀ i ∈ conversionCode source target size, i.isPlain := by
  have hload : (loadInteger .rax top size source).isPlain := loadSized_plain rfl _ _ _
  unfold conversionCode
  split
  · exact List.forall_mem_cons.2 ⟨hload, by decide⟩
  · exact List.forall_mem_cons.2 ⟨hload, by simp [isPlain]⟩
  · simp [isPlain, mov, Operand.isFrame, Register.isFrame]
  · split <;> simp [isPlain]

theorem promote_plain : ∀ i ∈ promote, i.isPlain := by decide

theorem setIf_piece (condition : Condition) (a : Spot) :
    Piece (fun labels => C labels ∧ labels ⟨n + 1⟩ = a) (n + 1) (n + 1) a
      (setIf condition ⟨n + 1⟩) a := by
  refine .append (.plain (by decide) : Piece _ _ _ a [movImm Register.rax 1] a)
    (.append (.jumpIf fun _ h => h.2 : Piece _ _ _ a [jumpIf condition _] a)
      (.append (.plain (by decide) : Piece _ _ _ a [movImm Register.rax 0] a)
        (.label fun _ h => h.2)))

end Straight

section Operators

variable {s : Supply}

theorem compareCode_gives (condition : Condition) :
    Gives (compareCode condition) s fun code s' => Keeps s.labels s'.labels code := by
  refine .freshLabel (.pure fun C a _ => .fresh a ?_)
  exact .append (.plain (by decide)) (setIf_piece condition a)

theorem flooredModulo_gives (unsigned : Bool) :
    Gives (flooredModulo unsigned) s fun code s' => Keeps s.labels s'.labels code := by
  refine .freshLabel (.pure fun C a _ => .fresh a ?_)
  refine .append (.plain (division_plain unsigned)) (.append (.plain (by decide) :
    Piece _ _ _ a [mov Register.rax Register.rdx, .binary .test Register.rdx Register.rdx] a)
    (.append (.jumpIf fun _ h => h.2 : Piece _ _ _ a [_] a) (.append (.plain (by decide) :
      Piece _ _ _ a [.binary .xor_ Register.rdx Register.rcx] a)
      (.append (.jumpIf fun _ h => h.2 : Piece _ _ _ a [_] a) (.append (.plain (by decide) :
        Piece _ _ _ a [.binary .add Register.rax Register.rcx] a) (.label fun _ h => h.2))))))

theorem keeps_of_plain {n : Nat} {code : Code} (h : ∀ i ∈ code, i.isPlain) : Keeps n n code :=
  fun _ _ _ => .plain h

theorem integerOperation_gives (unsigned : Bool) (op : BinaryOp) :
    Gives (integerOperation unsigned op) s fun code s' => Keeps s.labels s'.labels code := by
  cases op with
  | add | subtract | multiply | and_ | or_ | xor_ => exact .pure (keeps_of_plain (by decide))
  | divide => exact .pure (keeps_of_plain (division_plain unsigned))
  | modulo =>
    refine .pure fun C a _ => .append (.plain (division_plain unsigned)) (.plain (by decide))
  | flooredModulo => exact flooredModulo_gives unsigned
  | equal | notEqual | less | lessOrEqual | greater | greaterOrEqual =>
    exact compareCode_gives _

theorem integerBinary_gives (op : BinaryOp) (lhs rhs : Ty) (lhsSize rhsSize : Nat) :
    Gives (integerBinary op lhs rhs lhsSize rhsSize) s fun code s' =>
      ∀ C a, a.Aligned → Piece C s.labels s'.labels (a.lower 16) code a := by
  refine .bind (integerOperation_gives _ op) fun operation s' hop => .pure fun C a ha => ?_
  refine .append (.append (.append (.plain fun i hi => ?_) (.raise a 16)) (hop C a ha))
    (.plain (by decide))
  simp only [List.mem_cons, List.not_mem_nil, or_false] at hi
  rcases hi with rfl | rfl <;> exact loadSized_plain rfl _ _ _

theorem floatCompare_gives (precision : Precision) (condition : Condition) (unordered : Int) :
    Gives (floatCompare precision condition unordered) s fun code s' =>
      Keeps s.labels s'.labels code := by
  refine .freshLabel (.pure fun C a _ => .fresh a ?_)
  refine .append (.append (.append (.plain fun i hi => ?_ : Piece _ _ _ a
    [.compareFloat precision ⟨0⟩ ⟨1⟩, movImm Register.rax unordered] a)
    (.jumpIf fun _ h => h.2)) (setIf_piece condition a)) (.plain (by decide))
  simp only [List.mem_cons, List.not_mem_nil, or_false] at hi
  rcases hi with rfl | rfl <;> rfl

theorem floatArithmetic_plain (op : FloatOp) (precision : Precision) :
    ∀ i ∈ floatArithmetic op precision, i.isPlain := by
  simp [floatArithmetic, isPlain]

theorem floatOperation_gives (precision : Precision) {op : BinaryOp}
    (hop : op.isFloatingArithmetic ∨ op.isComparison) :
    Gives (floatOperation precision op) s fun code s' => Keeps s.labels s'.labels code := by
  cases op with
  | add | subtract | multiply | divide =>
    exact .pure (keeps_of_plain (floatArithmetic_plain _ precision))
  | equal | notEqual | less | lessOrEqual | greater | greaterOrEqual =>
    exact floatCompare_gives precision _ _
  | modulo | flooredModulo | and_ | or_ | xor_ =>
    simp [BinaryOp.isFloatingArithmetic, BinaryOp.isComparison] at hop

theorem floatBinary_gives (precision : Precision) {op : BinaryOp}
    (hop : op.isFloatingArithmetic ∨ op.isComparison) :
    Gives (floatBinary op precision) s fun code s' =>
      ∀ C a, a.Aligned → Piece C s.labels s'.labels (a.lower 16) code a := by
  refine .bind (floatOperation_gives precision hop) fun operation s' hoperation =>
    .pure fun C a ha => ?_
  refine .append (.append (.plain fun i hi => ?_) (.raise a 16)) (hoperation C a ha)
  simp only [List.mem_cons, List.not_mem_nil, or_false] at hi
  rcases hi with rfl | rfl <;> rfl

end Operators

end RegionCompiler.Codegen
