import RegionCompiler.Proofs.Codegen.Stmt

/-! The routines of the collector and the entry point keep to the stack like functions do. The traps
are entered from anywhere and end the program. -/
namespace RegionCompiler.Codegen

open Machine Machine.Instr

section Routines

variable {C : (Label → Spot) → Prop} {n m : Nat} {a : Spot}

/-- Instructions that neither jump nor move the frame, known by looking. -/
theorem Piece.visible {code : Code} (h : code.all Instr.isPlain) : Piece C n n a code a :=
  .plain (List.all_eq_true.1 h)

theorem symbol_piece {name : String} (h : ¬ isTrap name) :
    Piece C n n .entry [.symbol name] .entry :=
  .single fun _ _ => ⟨h, rfl, rfl⟩

theorem head_piece {name : String} (h : ¬ isTrap name) :
    Piece C n n .entry ([.symbol name] ++ Collector.prologue) (inFrame 0) :=
  .append (symbol_piece h) (prologue_piece 0)

theorem push_piece (platform : Platform) :
    Piece C n (n + 1) .entry (Collector.push platform ⟨n + 1⟩) .entry := by
  have hin : ((inFrame 0).lower 16).Aligned := rfl
  refine .fresh ((inFrame 0).lower 16) ?_
  refine .append (.append (m := n + 1) (.append (.append (.append (head_piece ?_) ?_)
    (callC_piece platform (by simp [IsName]) _ hin)) checkAllocation_piece) ?_)
    (epilogue_piece (a := (inFrame 0).lower 16) rfl rfl)
  · rintro (h | h) <;> exact absurd h (by decide)
  · refine .append (.of fun _ _ => .cons (b := (inFrame 0).lower 8) ⟨rfl, rfl, rfl⟩
      (.single ⟨rfl, rfl, rfl⟩) : Piece _ _ _ _
      [.push .rax, .binary .sub Register.rsp (.immediate 8)] ((inFrame 0).lower 16)) ?_
    refine .append (.visible rfl : Piece _ _ _ _ [mov Register.rcx Collector.length,
      .binary .cmp Register.rcx Collector.capacity] _) ?_
    exact .append (.jumpIf fun labels h => h.2) (.visible rfl)
  · exact .append (.visible rfl : Piece _ _ _ _ [mov Collector.entries Register.rax] _)
      (.append (.label fun labels h => h.2) (.visible rfl))

theorem enterRoutine_piece : Piece C n n .entry Collector.enter .entry := by
  have hin : (inFrame 0).Aligned := rfl
  refine .append (.append (head_piece ?_) ?_) (epilogue_piece (a := inFrame 0) rfl rfl)
  · rintro (h | h) <;> exact absurd h (by decide)
  · exact .append (.visible rfl : Piece C n n _ [movImm Register.rax Collector.marker] _)
      (.call hin (by decide) (by decide))

theorem exitRoutine_piece (platform : Platform) :
    Piece C n (n + 2) .entry (Collector.exit platform ⟨n + 1⟩ ⟨n + 2⟩) .entry := by
  have hin : (inFrame 0).Aligned := rfl
  refine .fresh (inFrame 0) (.fresh (inFrame 0) ?_)
  refine .append (.append (m := n + 2) (.append (.append (head_piece ?_) ?_)
    (callC_piece platform (by simp [IsName]) _ hin)) ?_) (epilogue_piece (a := inFrame 0) rfl rfl)
  · rintro (h | h) <;> exact absurd h (by decide)
  · refine .append (.label fun labels h => h.1.2) ?_
    refine .append (.visible rfl : Piece _ _ _ _ [mov Register.rcx Collector.length,
      .binary .test Register.rcx Register.rcx] _) ?_
    refine .append (.jumpIf fun labels h => h.2) ?_
    refine .append (.visible rfl : Piece _ _ _ _ [.unary .dec Register.rcx,
      mov Collector.length Register.rcx, mov Register.rdx Collector.entries,
      mov Register.rax (Address.entry .rdx .rcx 0),
      .binary .cmp Register.rax (.immediate Collector.marker)] _) ?_
    refine .append (.jumpIf fun labels h => h.2) ?_
    refine .append (.visible rfl : Piece _ _ _ _ [.binary .test Register.rax Register.rax] _) ?_
    exact .append (.jumpIf fun labels h => h.1.2) (.visible rfl)
  · exact .append (.jump fun labels h => h.1.2) (.label fun labels h => h.2)

theorem ret_piece {b : Spot} : Piece C n n .entry [.ret] b :=
  .single fun _ _ => ⟨rfl, rfl⟩

theorem release_piece : Piece C n (n + 1) .entry (Collector.release ⟨n + 1⟩) .entry := by
  refine .fresh .entry ?_
  refine .append (symbol_piece ?_) ?_
  · rintro (h | h) <;> exact absurd h (by decide)
  refine .append (.visible rfl : Piece _ _ _ _ [movImm Collector.moved 0,
    mov Register.rcx Collector.length, .binary .test Register.rcx Register.rcx] _) ?_
  refine .append (.jumpIf fun labels h => h.2) ?_
  refine .append (.visible rfl : Piece _ _ _ _ [mov Register.rdx Collector.entries,
    .binary .cmp Register.rax (Address.entry .rdx .rcx (-8))] _) ?_
  refine .append (.jumpIf fun labels h => h.2) ?_
  refine .append (.visible rfl : Piece _ _ _ _ [.unary .dec Collector.length,
    mov Collector.moved Register.rax] _) ?_
  exact .append (.label fun labels h => h.2) ret_piece

theorem adopt_piece : Piece C n (n + 1) .entry (Collector.adopt ⟨n + 1⟩) .entry := by
  refine .fresh .entry ?_
  refine .append (symbol_piece ?_) ?_
  · rintro (h | h) <;> exact absurd h (by decide)
  refine .append (.visible rfl : Piece _ _ _ _ [mov Register.rax Collector.moved,
    .binary .test Register.rax Register.rax] _) ?_
  refine .append (.jumpIf fun labels h => h.2) ?_
  refine .append (.visible rfl : Piece _ _ _ _ [movImm Collector.moved 0] _) ?_
  refine .append (.single fun _ _ => rfl : Piece _ _ _ .entry
    [.jmp (.symbol Collector.pushSymbol)] .entry) ?_
  exact .append (.label fun labels h => h.2) ret_piece

theorem collectRoutine_piece (platform : Platform) :
    Piece C n (n + 2) .entry (Collector.collect platform ⟨n + 1⟩ ⟨n + 2⟩) .entry := by
  have hin : (inFrame 0).Aligned := rfl
  refine .fresh (inFrame 0) (.fresh (inFrame 0) ?_)
  refine .append (.append (.append (head_piece ?_) ?_)
    (callC_piece platform (by simp [IsName]) _ hin)) (epilogue_piece (a := inFrame 0) rfl rfl)
  · rintro (h | h) <;> exact absurd h (by decide)
  · refine .append (.visible rfl : Piece _ _ _ _ [mov Register.rcx Collector.length,
      mov Register.rdx Collector.entries] _) ?_
    refine .append (.label fun labels h => h.1.2) ?_
    refine .append (.visible rfl : Piece _ _ _ _ [.binary .test Register.rcx Register.rcx] _) ?_
    refine .append (.jumpIf fun labels h => h.2) ?_
    refine .append (.visible rfl : Piece _ _ _ _ [.unary .dec Register.rcx,
      .binary .cmp Register.rax (Address.entry .rdx .rcx 0)] _) ?_
    refine .append (.jumpIf fun labels h => h.1.2) ?_
    refine .append (.visible rfl : Piece _ _ _ _ [movImm (Address.entry .rdx .rcx 0) 0] _) ?_
    exact .append (.label fun labels h => h.2) (.visible rfl)

theorem entryPoint_piece (resultSize : Nat) :
    Piece C n n .entry (Collector.entryPoint resultSize) .entry := by
  have hsaved : Piece C n n .entry ([.comment "entry point", .symbol "main"] ++ Collector.prologue
      ++ [.push .rsi, .push .rdi]) ((inFrame 0).lower 16) := by
    refine .append (.append (.append (.visible rfl : Piece C n n .entry [.comment "entry point"] _)
      (symbol_piece ?_)) (prologue_piece 0)) ?_
    · rintro (h | h) <;> exact absurd h (by decide)
    · exact .of fun _ _ => .cons (b := (inFrame 0).lower 8) ⟨rfl, rfl, rfl⟩
        (.single ⟨rfl, rfl, rfl⟩)
  have hrestored : ∀ a : Spot, a.rbp = some (-8) → a.frames = 0 → Piece C n n a
      [.lea .rsp (Address.frame (-16)), .pop .rdi, .pop .rsi, .pop .rbp, .ret] .entry := by
    rintro ⟨⟨rsp, rbp⟩, frames⟩ rfl rfl
    exact .of fun _ _ => .cons (b := (inFrame 0).lower 16) ⟨rfl, rfl, rfl⟩
      (.cons (b := (inFrame 0).lower 8) ⟨rfl, rfl, rfl⟩ (.cons (b := inFrame 0) ⟨rfl, rfl, rfl⟩
      (.cons (b := .entry) ⟨rfl, rfl, rfl⟩ (.single ⟨rfl, rfl⟩))))
  -- The result is reserved unless there is none.
  unfold Collector.entryPoint
  dsimp only
  split
  · rename_i hsize
    subst hsize
    have ha : ((inFrame 0).lower 16).Aligned := rfl
    exact .append (.append (.append (.append hsaved .nil) (.call ha (by decide) (by decide)))
      (.visible rfl)) (hrestored _ rfl rfl)
  · have ha : (((inFrame 0).lower 16).lower 16).Aligned := rfl
    refine .append (.append (.append (.append hsaved (.lower _ 16))
      (.call ha (by decide) (by decide))) (.plain fun i hi => ?_)) (hrestored _ rfl rfl)
    rw [List.mem_singleton.1 hi]
    split <;> rfl

/-- All routines before the traps. -/
def untrapped (platform : Platform) (resultSize : Nat) : Code :=
  Collector.entryPoint resultSize ++ Collector.push platform ⟨1⟩ ++ Collector.enter
    ++ Collector.exit platform ⟨2⟩ ⟨3⟩ ++ Collector.release ⟨4⟩ ++ Collector.adopt ⟨5⟩
    ++ Collector.collect platform ⟨6⟩ ⟨7⟩

theorem untrapped_piece (platform : Platform) (resultSize : Nat) :
    Piece C 0 Collector.labelCount .entry (untrapped platform resultSize) .entry :=
  .append (.append (.append (.append (.append (.append (entryPoint_piece resultSize)
    (push_piece platform)) enterRoutine_piece) (exitRoutine_piece platform)) release_piece)
    adopt_piece) (collectRoutine_piece platform)

end Routines

section Traps

variable {labels : Label → Spot}

theorem chain_ret {pre : Code} {a b : Spot} (h : Chain (Instr.flows labels) a (pre ++ [.ret]) b)
    (k : Arrival) : Chain (Instr.informs labels) (.relative a) (pre ++ [.ret]) k := by
  induction pre generalizing a with
  | nil =>
    cases h with | cons hret _
    exact .single ⟨_, hret, by rintro ⟨⟩⟩
  | cons i pre ih =>
    cases h with | cons hi hrest
    exact .cons (informs_of_flows hi) (ih hrest)

theorem trap_chain (platform : Platform) {symbol : String} (h : isTrap symbol) (exitCode : Int)
    (k : Arrival) :
    Chain (Instr.informs labels) .anywhere (Collector.trap platform symbol exitCode) k := by
  have hstart : Chain (Instr.informs labels) .anywhere
      [.symbol symbol, .binary .and_ Register.rsp (.immediate (-16))] (.ending ⟨8, none⟩) :=
    .cons (.inl ⟨symbol, rfl, h, rfl⟩) (.single (.inr ⟨rfl, rfl⟩))
  refine hstart.append ?_
  have hmoves : ∀ f : Register × Operand → Instr, (∀ r x, f (r, x) = mov r x) →
      Chain (Instr.informs labels) (.ending ⟨8, none⟩)
        ((platform.convention.argumentRegisters.zip [Operand.immediate exitCode]).map f)
        (.ending ⟨8, none⟩) := by
    intro f hf
    refine .const fun i hi => ?_
    obtain ⟨⟨r, x⟩, hrx, rfl⟩ := List.mem_map.1 hi
    have hr := argumentRegisters_free _ r (List.of_mem_zip hrx).1
    rw [hf]
    exact .inr ⟨_, _, _, _, rfl, rfl, by simp [mov, moves, Operand.isFrame, hr], rfl⟩
  unfold Collector.callC
  dsimp only
  split
  · refine (hmoves _ fun _ _ => rfl).append (.cons (b := .ending ⟨-24, none⟩) ?_
      (.cons (b := .nowhere) ?_
      (.single ?_)))
    · exact .inr ⟨_, _, _, _, rfl, rfl, rfl, rfl⟩
    · exact .inl ⟨rfl, rfl⟩
    · exact ⟨by rintro l ⟨⟩, by rintro name ⟨⟩⟩
  · exact (hmoves _ fun _ _ => rfl).append (.single (.inl ⟨rfl, rfl⟩))

theorem collector_chain (platform : Platform) (resultSize : Nat) {a b : Spot}
    (h : Chain (Instr.flows labels) a (untrapped platform resultSize) b) (k : Arrival) :
    Chain (Instr.informs labels) (.relative a) (Collector.code platform resultSize) k := by
  refine .append (.append (b := .anywhere) ?_ (trap_chain platform (.inl rfl) _ .anywhere))
    (trap_chain platform (.inr rfl) _ k)
  have hret : (untrapped platform resultSize).getLast? = some .ret := by
    rw [untrapped, Collector.collect, ← List.append_assoc, List.getLast?_append]
    rfl
  have hsplit := List.dropLast_append_getLast? Instr.ret hret
  rw [← hsplit] at h
  have hchain := chain_ret h .anywhere
  rw [hsplit] at hchain
  exact hchain

end Traps

end RegionCompiler.Codegen
