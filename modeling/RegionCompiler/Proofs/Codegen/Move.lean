import RegionCompiler.Codegen.Move
import RegionCompiler.Proofs.Machine.Run

/-! What moving values does to memory. A copy takes its bytes from the memory that was there
before, as long as it does not write over what it has yet to read. -/
namespace RegionCompiler.Machine

namespace Memory

variable {m : Memory} {a dst src : Word} {n k : Nat} {offsets others : List Nat}

theorem load_mod (m : Memory) (a : Word) (hk : k ≤ n) : m.load a k = m.load a n % 256 ^ k := by
  induction k generalizing a n with
  | zero => rw [load, Nat.pow_zero, Nat.mod_one]
  | succ k ih =>
    obtain ⟨n, rfl⟩ : ∃ n', n = n' + 1 := ⟨n - 1, by omega⟩
    have hbyte := (m a).isLt
    have hmod : ((m a).toNat + 256 * m.load (a + 1) n) % 256 = (m a).toNat := by omega
    have hdiv : ((m a).toNat + 256 * m.load (a + 1) n) / 256 = m.load (a + 1) n := by omega
    rw [load, load, ih (a + 1) (show k ≤ n by omega), Nat.pow_succ, Nat.mul_comm (256 ^ k),
      Nat.mod_mul, hmod, hdiv]

theorem load_byte (m : Memory) (a : Word) (hk : k < n) :
    BitVec.ofNat 8 (m.load a n / 256 ^ k) = m (a + BitVec.ofNat 64 k) := by
  induction k generalizing a n with
  | zero =>
    obtain ⟨n, rfl⟩ : ∃ n', n = n' + 1 := ⟨n - 1, by omega⟩
    have hbyte := (m a).isLt
    apply BitVec.eq_of_toNat_eq
    simp only [load, Nat.pow_zero, Nat.div_one, BitVec.toNat_ofNat, BitVec.add_zero]
    omega
  | succ k ih =>
    obtain ⟨n, rfl⟩ : ∃ n', n = n' + 1 := ⟨n - 1, by omega⟩
    have hbyte := (m a).isLt
    have hdiv : ((m a).toNat + 256 * m.load (a + 1) n) / 256 = m.load (a + 1) n := by omega
    have hnext : a + 1 + BitVec.ofNat 64 k = a + BitVec.ofNat 64 (k + 1) := by
      rw [Nat.add_comm k 1, BitVec.ofNat_add, BitVec.add_assoc]
      rfl
    rw [load, Nat.pow_succ, Nat.mul_comm (256 ^ k), ← Nat.div_div_eq_div_mul, hdiv,
      ih (a + 1) (by omega), hnext]

/-- Memory after the bytes at some offsets of one address were copied to another. -/
def copied (m : Memory) (dst src : Word) (offsets : List Nat) : Memory := fun x =>
  if (x - dst).toNat ∈ offsets then m (src + (x - dst)) else m x

@[simp] theorem copied_nil : m.copied dst src [] = m := by
  funext x
  simp [copied]

theorem copied_append (h : ∀ k ∈ others, (src + BitVec.ofNat 64 k - dst).toNat ∉ offsets) :
    (m.copied dst src offsets).copied dst src others = m.copied dst src (offsets ++ others) := by
  funext x
  by_cases hx : (x - dst).toNat ∈ others
  · have hback := h _ hx
    rw [BitVec.ofNat_toNat, BitVec.setWidth_eq] at hback
    simp only [copied, hx, hback, List.mem_append, or_true, if_true, if_false]
  · simp only [copied, hx, List.mem_append, or_false, if_false]

theorem store_load (m : Memory) (dst src : Word) {offset : Nat} (h : offset + n ≤ 2 ^ 64) :
    m.store (dst + BitVec.ofNat 64 offset) n (m.load (src + BitVec.ofNat 64 offset) n) =
      m.copied dst src (List.range' offset n) := by
  funext x
  have hoffset : (x - (dst + BitVec.ofNat 64 offset)).toNat =
      ((x - dst).toNat + (2 ^ 64 - offset)) % 2 ^ 64 := by
    rw [← BitVec.sub_sub, BitVec.toNat_sub, BitVec.toNat_ofNat, Nat.add_comm]
    omega
  have hbound := (x - dst).isLt
  simp only [store, copied, hoffset, List.mem_range'_1]
  by_cases hin : offset ≤ (x - dst).toNat ∧ (x - dst).toNat < offset + n
  · have hk : ((x - dst).toNat + (2 ^ 64 - offset)) % 2 ^ 64 = (x - dst).toNat - offset := by
      omega
    have hsum : BitVec.ofNat 64 offset + BitVec.ofNat 64 ((x - dst).toNat - offset) = x - dst := by
      rw [← BitVec.ofNat_add, show offset + ((x - dst).toNat - offset) = (x - dst).toNat by omega,
        BitVec.ofNat_toNat, BitVec.setWidth_eq]
    rw [hk, if_pos (by omega), if_pos hin, load_byte _ _ (by omega), BitVec.add_assoc, hsum]
  · rw [if_neg (by omega), if_neg hin]

/-- One place has the bytes that another one had before, and all other memory is as it was. -/
structure Moves (m m' : Memory) (dst src : Word) (size : Nat) : Prop where
  moved : ∀ k < size, m' (dst + BitVec.ofNat 64 k) = m (src + BitVec.ofNat 64 k)
  others : ∀ x, (∀ k < size, x ≠ dst + BitVec.ofNat 64 k) → m' x = m x

theorem moves_copied (m : Memory) (dst src : Word) {size : Nat}
    (hoffsets : ∀ k, k ∈ offsets ↔ k < size) : m.Moves (m.copied dst src offsets) dst src size where
  moved k hk := by
    have hback : dst + BitVec.ofNat 64 k - dst = BitVec.ofNat 64 k := by
      rw [BitVec.add_comm, BitVec.add_sub_cancel]
    have hlt : (BitVec.ofNat 64 k).toNat < size := by
      rw [BitVec.toNat_ofNat]
      exact (Nat.mod_le ..).trans_lt hk
    rw [copied, hback, if_pos ((hoffsets _).2 hlt)]
  others x hx := by
    exact if_neg fun hin => hx _ ((hoffsets _).1 hin) (add_ofNat_sub dst x).symm

theorem moves_refl (m : Memory) (a : Word) (size : Nat) : m.Moves m a a size :=
  ⟨fun _ _ => rfl, fun _ _ => rfl⟩

def zeroed (m : Memory) (a : Word) (size : Nat) : Memory := fun x =>
  if (x - a).toNat < size then 0#8 else m x

theorem zeroed_byte (m : Memory) (a : Word) {size k : Nat} (hk : k < size) :
    m.zeroed a size (a + BitVec.ofNat 64 k) = 0#8 := by
  refine if_pos ?_
  rw [BitVec.add_comm, BitVec.add_sub_cancel, BitVec.toNat_ofNat]
  exact (Nat.mod_le ..).trans_lt hk

theorem put_zeroed (m : Memory) (a : Word) {size : Nat} (hsize : size + 8 ≤ 2 ^ 64) :
    (m.zeroed a size).put (a + BitVec.ofNat 64 size) 0#64 = m.zeroed a (size + 8) := by
  funext x
  have hoffset : (x - (a + BitVec.ofNat 64 size)).toNat =
      ((x - a).toNat + (2 ^ 64 - size)) % 2 ^ 64 := by
    rw [← BitVec.sub_sub, BitVec.toNat_sub, BitVec.toNat_ofNat, Nat.add_comm]
    omega
  have hbound := (x - a).isLt
  simp only [put, store, zeroed, hoffset]
  by_cases hlow : (x - a).toNat < size
  · rw [if_neg (by omega), if_pos hlow, if_pos (by omega)]
  · by_cases hnew : (x - a).toNat < size + 8
    · rw [if_pos (by omega), if_pos hnew]
      simp
    · rw [if_neg (by omega), if_neg hlow, if_neg hnew]

end Memory

/-- Addresses that do not depend on a register. -/
def Address.Avoids (a : Address) (r : Register) : Prop :=
  a.base ≠ .register r ∧ ∀ scale, a.index ≠ some (r, scale)

theorem Address.avoids_at {r base : Register} (h : r ≠ base) (displacement : Int) :
    (Address.at_ base displacement).Avoids r := by
  constructor <;> simp [Address.at_, h.symm]

theorem Address.avoids_stack {r : Register} (h : r ≠ .rsp) (offset : Nat) :
    (Address.stack offset).Avoids r :=
  avoids_at h offset

namespace State

variable {symbols : String → Word} {s s' : State} {a : Address} {r : Register}

theorem address_offset (s : State) (a : Address) (n : Nat) :
    s.address symbols (a.offset n) = s.address symbols a + BitVec.ofNat 64 n := by
  simp only [address, Address.offset]
  rw [displace_add]

theorem address_congr (h : a.Avoids r)
    (hregisters : ∀ r', r' ≠ r → s'.registers r' = s.registers r') :
    s'.address symbols a = s.address symbols a := by
  obtain ⟨base, index, displacement⟩ := a
  obtain ⟨hbase, hindex⟩ := h
  have hfirst : ∀ r', base = .register r' → s'.registers r' = s.registers r' := by
    rintro r' rfl
    exact hregisters r' fun heq => hbase (by rw [heq])
  have hsecond : ∀ r' scale, index = some (r', scale) → s'.registers r' = s.registers r' := by
    rintro r' scale rfl
    exact hregisters r' fun heq => hindex scale (by rw [heq])
  cases base <;> rcases index with _ | ⟨r', scale⟩ <;> simp_all [address]

theorem effect_mov (dst src : Operand) :
    s.effect symbols (.mov dst src) = s.write symbols (s.read symbols src) dst := (rfl)

/-- Of a register only the low bytes are read. -/
theorem toNat_read_register (r : Register) (width : Width) :
    (s.read symbols (.register r width)).toNat = (s.registers r).toNat % 256 ^ width.bytes := by
  have hbound := (s.registers r).isLt
  cases width <;> simp only [read, Width.bytes, BitVec.toNat_ofNat] <;> omega

theorem toNat_read_memory (a : Address) (width : Width) :
    (s.read symbols (.memory width a)).toNat =
      s.memory.load (s.address symbols a) width.bytes := by
  have hbound := s.memory.load_lt (s.address symbols a) width.bytes
  cases width <;> simp only [read, Width.bytes, BitVec.toNat_ofNat] at hbound ⊢ <;> omega

theorem write_register (value : Word) (r : Register) (width : Width) : ∃ v,
    s.write symbols value (.register r width) = some (s.set r v) ∧
      v.toNat % 256 ^ width.bytes = value.toNat % 256 ^ width.bytes := by
  have hbound := (s.registers r).isLt
  have hvalue := value.isLt
  cases width with
  | qword => exact ⟨value, rfl, rfl⟩
  | dword =>
    refine ⟨_, rfl, ?_⟩
    simp only [Width.bytes, BitVec.toNat_ofNat]
    omega
  | word =>
    refine ⟨_, rfl, ?_⟩
    simp only [Width.bytes, BitVec.toNat_ofNat]
    omega
  | byte =>
    refine ⟨_, rfl, ?_⟩
    simp only [Width.bytes, BitVec.toNat_ofNat]
    omega

theorem write_memory (value : Word) (a : Address) (width : Width) :
    s.write symbols value (.memory width a) =
      some (s.withMemory (s.memory.store (s.address symbols a) width.bytes value.toNat)) := (rfl)

end State

end RegionCompiler.Machine

namespace RegionCompiler.Codegen

open Machine Machine.Instr

variable {symbols : String → Word} {s : State} {dst src : Address}

theorem straight_chunk (hdst : dst.Avoids .r11) (width : Width) : ∃ v,
    straight symbols [mov (.register .r11 width) (.memory width src),
      mov (.memory width dst) (.register .r11 width)] s =
    some ((s.set .r11 v).withMemory (s.memory.store (s.address symbols dst) width.bytes
      (s.memory.load (s.address symbols src) width.bytes))) := by
  have hload := s.memory.load_lt (s.address symbols src) width.bytes
  obtain ⟨v, hwrite, hv⟩ := s.write_register (s.read symbols (.memory width src)) .r11 width
  have haddress : (s.set .r11 v).address symbols dst = s.address symbols dst :=
    State.address_congr hdst fun r hr => by simp [hr]
  refine ⟨v, ?_⟩
  rw [straight_cons, State.effect_mov, hwrite, bind_straight, straight_cons, State.effect_mov,
    State.write_memory, bind_straight, straight_nil, State.toNat_read_register, haddress]
  simp only [State.registers_set, if_true, hv, State.toNat_read_memory, State.memory_set]
  rw [Nat.mod_eq_of_lt hload]

/-- Code that moves chunks one after the other. It may write over what it has read already, but not
over what it has yet to read. -/
theorem straight_chunks (hdst : dst.Avoids .r11) (hsrc : src.Avoids .r11)
    (cs : List (Nat × Width)) (hbound : ∀ c ∈ cs, c.1 + c.2.bytes ≤ 2 ^ 64)
    (hapart : cs.Pairwise fun c c' => ∀ k ∈ List.range' c'.1 c'.2.bytes,
      (s.address symbols src + BitVec.ofNat 64 k - s.address symbols dst).toNat ∉
        List.range' c.1 c.2.bytes) : ∃ v,
    straight symbols (cs.flatMap fun c =>
      [mov (.register .r11 c.2) (.memory c.2 (src.offset c.1)),
        mov (.memory c.2 (dst.offset c.1)) (.register .r11 c.2)]) s =
    some ((s.set .r11 v).withMemory (s.memory.copied (s.address symbols dst)
      (s.address symbols src) (cs.flatMap fun c => List.range' c.1 c.2.bytes))) := by
  induction cs generalizing s with
  | nil => exact ⟨s.registers .r11, by simp; rfl⟩
  | cons c cs ih =>
    obtain ⟨offset, width⟩ := c
    have hoffset : (dst.offset offset).Avoids .r11 := hdst
    obtain ⟨v, hchunk⟩ : ∃ v, straight symbols
        [mov (.register .r11 width) (.memory width (src.offset offset)),
          mov (.memory width (dst.offset offset)) (.register .r11 width)] s =
        some ((s.set .r11 v).withMemory (s.memory.copied (s.address symbols dst)
          (s.address symbols src) (List.range' offset width.bytes))) := by
      rw [← Memory.store_load _ _ _ (hbound _ List.mem_cons_self), ← State.address_offset,
        ← State.address_offset]
      exact straight_chunk hoffset width
    have hsame (a : Address) (ha : a.Avoids .r11) (m : Memory) :
        ((s.set .r11 v).withMemory m).address symbols a = s.address symbols a :=
      State.address_congr ha fun r hr => by simp [hr]
    obtain ⟨hfirst, hothers⟩ := List.pairwise_cons.1 hapart
    have hrest := @ih ((s.set .r11 v).withMemory (s.memory.copied (s.address symbols dst)
      (s.address symbols src) (List.range' offset width.bytes)))
      fun c hc => hbound c (List.mem_cons_of_mem _ hc)
    rw [hsame _ hsrc, hsame _ hdst] at hrest
    obtain ⟨v', hrun⟩ := hrest hothers
    have hunread : ∀ k ∈ cs.flatMap fun c => List.range' c.1 c.2.bytes,
        (s.address symbols src + BitVec.ofNat 64 k - s.address symbols dst).toNat ∉
          List.range' offset width.bytes := by
      intro k hk
      obtain ⟨c, hc, hin⟩ := List.mem_flatMap.1 hk
      exact hfirst c hc k hin
    refine ⟨v', ?_⟩
    rw [List.flatMap_cons, straight_append, hchunk, bind_straight, hrun, List.flatMap_cons,
      State.memory_withMemory, Memory.copied_append hunread]
    rw [State.set_withMemory, State.withMemory_withMemory, State.set_set]

theorem straight_copy (hdst : dst.Avoids .r11) (hsrc : src.Avoids .r11) {size : Nat}
    (hsize : size ≤ 2 ^ 64)
    (hapart : ∀ k < size,
      size ≤ (s.address symbols src + BitVec.ofNat 64 k - s.address symbols dst).toNat) :
    ∃ v, straight symbols (copy dst src size) s =
      some ((s.set .r11 v).withMemory (s.memory.copied (s.address symbols dst)
        (s.address symbols src) (List.range size))) := by
  have hin : ∀ c ∈ chunks size, ∀ k ∈ List.range' c.1 c.2.bytes, k < size := by
    intro c hc k hk
    rw [← List.mem_range, ← flatMap_chunks size]
    exact List.mem_flatMap.2 ⟨c, hc, hk⟩
  have hbound : ∀ c ∈ chunks size, c.1 + c.2.bytes ≤ 2 ^ 64 := by
    intro c hc
    have hpositive : 0 < c.2.bytes := by cases c.2 <;> decide
    have hlast := hin c hc (c.1 + (c.2.bytes - 1)) (List.mem_range'_1.2 ⟨by omega, by omega⟩)
    omega
  have hpairs : (chunks size).Pairwise fun c c' => ∀ k ∈ List.range' c'.1 c'.2.bytes,
      (s.address symbols src + BitVec.ofNat 64 k - s.address symbols dst).toNat ∉
        List.range' c.1 c.2.bytes := by
    refine List.pairwise_of_forall_mem_list fun c hc c' hc' k hk hback => ?_
    have hle := hapart k (hin c' hc' k hk)
    have hlt := hin c hc _ hback
    omega
  have hrun := straight_chunks hdst hsrc (chunks size) hbound hpairs
  rw [flatMap_chunks size] at hrun
  exact hrun

theorem straight_zero (symbols : String → Word) (s : State) (dst : Address) {count : Nat}
    (hfits : 8 * count ≤ 2 ^ 64) : straight symbols (zero dst (8 * count)) s =
      some (s.withMemory (s.memory.zeroed (s.address symbols dst) (8 * count))) := by
  have hcount : (8 * count + 7) / 8 = count := by omega
  rw [zero, hcount]
  clear hcount
  induction count with
  | zero =>
    have hnone (a : Word) : s.memory.zeroed a 0 = s.memory :=
      funext fun x => if_neg (Nat.not_lt_zero _)
    rw [Nat.mul_zero, hnone]
    rfl
  | succ count ih =>
    have hsame (m : Memory) : (s.withMemory m).address symbols dst = s.address symbols dst := rfl
    rw [List.range_succ, List.map_append, straight_append, ih (by omega), bind_straight,
      List.map_singleton, straight_cons, State.effect_movImm_memory, bind_straight, straight_nil,
      State.address_offset, hsame]
    have hput := s.memory.put_zeroed (s.address symbols dst) (show 8 * count + 8 ≤ 2 ^ 64 by omega)
    exact congrArg (fun m => some (s.withMemory m)) hput

theorem straight_lower (symbols : String → Word) (s : State) (bytes : Nat) : ∃ f,
    straight symbols (lower bytes) s =
      some ((s.withFlags f).set .rsp (displace (s.registers .rsp) (-bytes))) := by
  unfold lower
  split
  case isTrue h =>
    refine ⟨s.flags, ?_⟩
    have hsame : displace (s.registers .rsp) (-(bytes : Int)) = s.registers .rsp := by simp [h]
    rw [straight_nil, hsame]
    exact congrArg some (s.set_self .rsp).symm
  case isFalse =>
    refine ⟨.ofSub (s.registers .rsp) (BitVec.ofNat 64 bytes), ?_⟩
    simp [← sub_ofInt]

theorem straight_raise (symbols : String → Word) (s : State) (bytes : Nat) : ∃ f,
    straight symbols (raise bytes) s =
      some ((s.withFlags f).set .rsp (displace (s.registers .rsp) bytes)) := by
  unfold raise
  split
  case isTrue h =>
    refine ⟨s.flags, ?_⟩
    have hsame : displace (s.registers .rsp) (bytes : Int) = s.registers .rsp := by simp [h]
    rw [straight_nil, hsame]
    exact congrArg some (s.set_self .rsp).symm
  case isFalse =>
    refine ⟨.ofAdd (s.registers .rsp) (BitVec.ofNat 64 bytes), ?_⟩
    simp [displace]

/-- The quadwords of a slot from the highest to the lowest. -/
def descending (count : Nat) : List (Nat × Width) :=
  (List.range count).reverse.map fun i => (8 * i, .qword)

theorem mem_descending {count : Nat} {c : Nat × Width} (hc : c ∈ descending count) :
    ∃ i < count, c = (8 * i, .qword) := by
  obtain ⟨i, hi, rfl⟩ := List.mem_map.1 hc
  exact ⟨i, List.mem_range.1 (List.mem_reverse.1 hi), rfl⟩

theorem mem_bytes_descending {count k : Nat} :
    k ∈ (descending count).flatMap (fun c => List.range' c.1 c.2.bytes) ↔ k < 8 * count := by
  constructor
  · intro hk
    obtain ⟨c, hc, hin⟩ := List.mem_flatMap.1 hk
    obtain ⟨i, hi, rfl⟩ := mem_descending hc
    simp only [Width.bytes, List.mem_range'_1] at hin
    omega
  · intro hk
    have hi : k / 8 ∈ (List.range count).reverse :=
      List.mem_reverse.2 (List.mem_range.2 (by omega))
    refine List.mem_flatMap.2 ⟨_, List.mem_map_of_mem hi, ?_⟩
    simp only [Width.bytes, List.mem_range'_1]
    omega

theorem collapse_eq {count drop : Nat} (hdrop : drop ≠ 0) :
    collapse (8 * count) drop = ((descending count).flatMap fun c =>
      [mov (.register .r11 c.2) (.memory c.2 ((Address.stack 0).offset c.1)),
        mov (.memory c.2 ((Address.stack drop).offset c.1)) (.register .r11 c.2)]) ++
      raise drop := by
  have hcount : (8 * count + 7) / 8 = count := by omega
  rw [collapse, if_neg hdrop, hcount, descending, List.flatMap_map]
  simp [Address.offset, Address.stack, Address.at_, Int.add_comm]

/-- A place that is written over has been read already, since the highest quadwords go first. The
two places lie less than the rest of memory apart. -/
theorem straight_collapse (symbols : String → Word) (s : State) {count drop : Nat}
    (hdrop : drop ≠ 0) (hfits : 8 * count + drop ≤ 2 ^ 64) : ∃ v f,
    straight symbols (collapse (8 * count) drop) s =
      some ((((s.set .r11 v).withMemory (s.memory.copied (displace (s.registers .rsp) drop)
        (s.registers .rsp) ((descending count).flatMap fun c =>
          List.range' c.1 c.2.bytes))).withFlags
          f).set .rsp (displace (s.registers .rsp) drop)) := by
  have hsrc : s.address symbols (Address.stack 0) = s.registers .rsp := by simp
  have hdst : s.address symbols (Address.stack drop) = displace (s.registers .rsp) drop := by simp
  have hbound : ∀ c ∈ descending count, c.1 + c.2.bytes ≤ 2 ^ 64 := by
    intro c hc
    obtain ⟨i, hi, rfl⟩ := mem_descending hc
    simp only [Width.bytes]
    omega
  have hpairs : (descending count).Pairwise fun c c' => ∀ k ∈ List.range' c'.1 c'.2.bytes,
      (s.address symbols (Address.stack 0) + BitVec.ofNat 64 k -
        s.address symbols (Address.stack drop)).toNat ∉ List.range' c.1 c.2.bytes := by
    rw [descending, List.pairwise_map, List.pairwise_reverse]
    refine List.pairwise_lt_range.imp_of_mem fun {i j} hi hj hlt k hk hback => ?_
    have hcount : j < count := List.mem_range.1 hj
    have hdistance : (s.address symbols (Address.stack 0) + BitVec.ofNat 64 k -
        s.address symbols (Address.stack drop)).toNat = (k + (2 ^ 64 - drop)) % 2 ^ 64 := by
      rw [hsrc, hdst]
      simp only [displace, BitVec.toNat_sub, BitVec.toNat_add, BitVec.toNat_ofInt,
        BitVec.toNat_ofNat]
      omega
    simp only [Width.bytes, List.mem_range'_1] at hk hback
    omega
  obtain ⟨v, hmove⟩ := straight_chunks (Address.avoids_stack (by decide) drop)
    (Address.avoids_stack (by decide) 0) (descending count) hbound hpairs
  rw [hsrc, hdst] at hmove
  obtain ⟨f, hraise⟩ := straight_raise symbols _ drop
  refine ⟨v, f, ?_⟩
  rw [collapse_eq hdrop, straight_append, hmove, bind_straight, hraise]
  simp

/-- Places that do not overlap. No byte of the one lies within the other. -/
theorem outside_of_disjoint {dst src : Word} {size : Nat}
    (hdisjoint : ∀ j < size, ∀ k < size, dst + BitVec.ofNat 64 j ≠ src + BitVec.ofNat 64 k) :
    size ≤ 2 ^ 64 ∧ ∀ k < size, size ≤ (src + BitVec.ofNat 64 k - dst).toNat := by
  have houtside : ∀ k < size, size ≤ (src + BitVec.ofNat 64 k - dst).toNat := by
    intro k hk
    by_contra hlt
    exact hdisjoint _ (by omega) k hk (add_ofNat_sub ..)
  refine ⟨?_, houtside⟩
  by_contra hlarge
  have hfirst := houtside 0 (by omega)
  have hlt := (src + BitVec.ofNat 64 0 - dst).isLt
  omega

/-- A copy between places that do not overlap. -/
theorem copy_moves (hdst : dst.Avoids .r11) (hsrc : src.Avoids .r11) {size : Nat}
    (hdisjoint : ∀ j < size, ∀ k < size, s.address symbols dst + BitVec.ofNat 64 j ≠
      s.address symbols src + BitVec.ofNat 64 k) :
    ∃ v memory, straight symbols (copy dst src size) s =
        some ((s.set .r11 v).withMemory memory) ∧
      s.memory.Moves memory (s.address symbols dst) (s.address symbols src) size := by
  obtain ⟨hsize, houtside⟩ := outside_of_disjoint hdisjoint
  obtain ⟨v, hrun⟩ := straight_copy hdst hsrc hsize houtside
  exact ⟨v, _, hrun, s.memory.moves_copied _ _ fun _ => List.mem_range⟩

/-- Moves of values are exact. A copy makes its destination what its source was; a slot at the top
moves up as it is, also where it moves over itself. Nothing else changes but `r11` and, for a slot,
the stack pointer and the flags. -/
theorem moves_exact (symbols : String → Word) (s : State) :
    (∀ (dst src : Address) (size : Nat), dst.Avoids .r11 → src.Avoids .r11 →
      (∀ j < size, ∀ k < size, s.address symbols dst + BitVec.ofNat 64 j ≠
        s.address symbols src + BitVec.ofNat 64 k) →
      ∃ v memory, straight symbols (copy dst src size) s =
          some ((s.set .r11 v).withMemory memory) ∧
        s.memory.Moves memory (s.address symbols dst) (s.address symbols src) size) ∧
    ∀ slot drop : Nat, 8 ∣ slot → 8 ∣ drop → slot + drop ≤ 2 ^ 64 →
      ∃ v f memory, straight symbols (collapse slot drop) s =
          some ((((s.set .r11 v).withMemory memory).withFlags f).set .rsp
            (displace (s.registers .rsp) drop)) ∧
        s.memory.Moves memory (displace (s.registers .rsp) drop) (s.registers .rsp) slot ∧
        ∀ x, slot + drop ≤ (x - s.registers .rsp).toNat → memory x = s.memory x := by
  constructor
  · intro dst src size hdst hsrc hdisjoint
    exact copy_moves hdst hsrc hdisjoint
  · rintro slot drop ⟨count, rfl⟩ - hfits
    rcases Nat.eq_zero_or_pos drop with rfl | hdrop
    · refine ⟨s.registers .r11, s.flags, s.memory, ?_, ?_, fun _ _ => rfl⟩
      · rw [collapse, if_pos rfl, straight_nil, State.set_self, Int.natCast_zero, displace_zero]
        exact congrArg some (s.set_self .rsp).symm
      · rw [Int.natCast_zero, displace_zero]
        exact s.memory.moves_refl _ _
    · obtain ⟨v, f, hrun⟩ := straight_collapse symbols s (by omega) hfits
      have hmoves := s.memory.moves_copied (displace (s.registers .rsp) drop) (s.registers .rsp)
        fun k => @mem_bytes_descending count k
      refine ⟨v, f, _, hrun, hmoves, fun x hx => hmoves.others x fun k hk hin => ?_⟩
      have hdistance : (x - s.registers .rsp).toNat = (k + drop) % 2 ^ 64 := by
        rw [hin]
        simp only [displace, BitVec.toNat_sub, BitVec.toNat_add, BitVec.toNat_ofInt,
          BitVec.toNat_ofNat]
        omega
      omega

/-- Every byte of memory is the lowest byte of its address. -/
def numbered : State where
  registers r := if r = .rsp then 0x1000#64 else 0#64
  vectors _ := 0#64
  memory a := a.setWidth 8
  flags := .undefined
  blocks _ := none
  calls := []

/-- Fifteen bytes are copied, and two quadwords move up by one, over themselves. -/
theorem moves_exact_numbered :
    (∃ v memory, straight (fun _ => 0#64) (copy (Address.stack 0) (Address.stack 16) 15) numbered =
        some ((numbered.set .r11 v).withMemory memory) ∧
      numbered.memory.Moves memory 0x1000#64 0x1010#64 15) ∧
    ∃ v f memory, straight (fun _ => 0#64) (collapse 16 8) numbered =
        some ((((numbered.set .r11 v).withMemory memory).withFlags f).set .rsp 0x1008#64) ∧
      numbered.memory.Moves memory 0x1008#64 0x1000#64 16 ∧
      ∀ x, 24 ≤ (x - 0x1000#64).toNat → memory x = numbered.memory x := by
  have hexact := moves_exact (fun _ => 0#64) numbered
  have hdisjoint : ∀ j < 15, ∀ k < 15,
      numbered.address (fun _ => 0#64) (Address.stack 0) + BitVec.ofNat 64 j ≠
        numbered.address (fun _ => 0#64) (Address.stack 16) + BitVec.ofNat 64 k := by
    intro j hj k hk heq
    have hnumber := congrArg BitVec.toNat heq
    simp only [State.address_stack, numbered, if_true, displace, BitVec.toNat_add,
      BitVec.toNat_ofInt, BitVec.toNat_ofNat] at hnumber
    omega
  exact ⟨hexact.1 _ _ 15 (Address.avoids_stack (by decide) 0) (Address.avoids_stack (by decide) 16)
    hdisjoint, hexact.2 16 8 (by decide) (by decide) (by decide)⟩

end RegionCompiler.Codegen
