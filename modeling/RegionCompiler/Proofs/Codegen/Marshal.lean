import RegionCompiler.Codegen.Foreign
import RegionCompiler.Proofs.Codegen.Move
import RegionCompiler.Proofs.Codegen.Plan

/-! The moves of a foreign call. From any state they lead to one in which every argument is where
the plan has put it. -/
namespace RegionCompiler.Machine

open Convention

theorem displace_natCast (a : Word) (n : Nat) : displace a n = a + BitVec.ofNat 64 n := by
  rw [displace, BitVec.ofInt_natCast]

theorem toNat_add_sub (b x : Word) (n : Nat) :
    (x - (b + BitVec.ofNat 64 n)).toNat = ((x - b).toNat + (2 ^ 64 - n % 2 ^ 64)) % 2 ^ 64 := by
  rw [← BitVec.sub_sub, BitVec.toNat_sub, BitVec.toNat_ofNat, Nat.add_comm]

theorem toNat_offset (b : Word) {n : Nat} (h : n < 2 ^ 64) :
    (b + BitVec.ofNat 64 n - b).toNat = n := by
  rw [BitVec.add_comm, BitVec.add_sub_cancel, BitVec.toNat_ofNat, Nat.mod_eq_of_lt h]

/-- What a register holds. -/
def State.slot (s : State) : Slot → Word
  | .general r => s.registers r
  | .vector x => s.vectors x

end RegionCompiler.Machine

namespace RegionCompiler.Codegen

open Machine Machine.Instr Convention

/-- The bytes of a value in its eight bytes with the given number. -/
def part (size j : Nat) : Nat := min 8 (size - 8 * j)

/-- Registers that hold the value at an address. -/
structure InSlots (t : State) (shape : Shape) (m : Memory) (source : Word) (slots : List Slot) :
    Prop where
  low : ∀ j slot, slots[j]? = some slot → (t.slot slot).toNat % 256 ^ part shape.size j =
    m.load (source + BitVec.ofNat 64 (8 * j)) (part shape.size j)
  signed : ∀ r, slots = [.general r] → shape.size = 4 → shape.precision = none →
    t.registers r = (BitVec.ofNat 32 (m.load source 4)).signExtend 64
  unsigned : ∀ r, slots = [.general r] → shape.size = 1 ∨ shape.size = 2 →
    (t.registers r).toNat = m.load source shape.size

/-- A state in which the value at an address of some memory is where a placement wants it. -/
def Realised (t : State) (copies : Nat) (shape : Shape) (m : Memory) (source : Word) :
    Placement → Prop
  | .registers slots => InSlots t shape m source slots
  | .both x r => (t.vectors x).toNat % 256 ^ shape.size = m.load source shape.size ∧
      (t.registers r).toNat % 256 ^ shape.size = m.load source shape.size
  | .stack offset => ∀ k < shape.size,
      t.memory (t.registers .rsp + BitVec.ofNat 64 (offset + k)) = m (source + BitVec.ofNat 64 k)
  | .reference offset pointer =>
    (∀ k < shape.size, t.memory (t.registers .rsp + BitVec.ofNat 64 (copies + offset + k)) =
      m (source + BitVec.ofNat 64 k)) ∧
    match pointer with
    | .register r => t.registers r = t.registers .rsp + BitVec.ofNat 64 (copies + offset)
    | .stack word => t.memory.word (t.registers .rsp + BitVec.ofNat 64 word) =
        t.registers .rsp + BitVec.ofNat 64 (copies + offset)

/-- Nothing has changed but some registers, those that moves need, and some bytes above the stack
pointer. -/
structure Touches (generals : List Register) (vectors : List Xmm) (bytes : Nat → Prop)
    (s t : State) : Prop where
  registers : ∀ r, r ∉ generals → r ≠ .rax → r ≠ .r11 → t.registers r = s.registers r
  vectors : ∀ x, x ∉ vectors → t.vectors x = s.vectors x
  memory : ∀ a, ¬ bytes (a - s.registers .rsp).toNat → t.memory a = s.memory a

namespace Touches

variable {generals generals' : List Register} {vectors vectors' : List Xmm}
  {bytes bytes' : Nat → Prop} {s s₁ t : State}

theorem refl (s : State) : Touches [] [] (fun _ => False) s s :=
  ⟨fun _ _ _ _ => rfl, fun _ _ => rfl, fun _ _ => rfl⟩

theorem rsp (h : Touches generals vectors bytes s t) (hrsp : .rsp ∉ generals) :
    t.registers .rsp = s.registers .rsp :=
  h.registers _ hrsp (by decide) (by decide)

theorem trans (h : Touches generals vectors bytes s s₁) (hrsp : .rsp ∉ generals)
    (h' : Touches generals' vectors' bytes' s₁ t) :
    Touches (generals ++ generals') (vectors ++ vectors') (fun n => bytes n ∨ bytes' n) s t := by
  constructor
  case registers =>
    intro r hr hrax hr11
    rw [List.mem_append, not_or] at hr
    rw [h'.registers r hr.2 hrax hr11, h.registers r hr.1 hrax hr11]
  case vectors =>
    intro x hx
    rw [List.mem_append, not_or] at hx
    rw [h'.vectors x hx.2, h.vectors x hx.1]
  case memory =>
    intro a ha
    rw [not_or] at ha
    rw [h'.memory a (by rw [h.rsp hrsp]; exact ha.2), h.memory a ha.1]

theorem mono (h : Touches generals vectors bytes s t) (hgenerals : generals ⊆ generals')
    (hvectors : vectors ⊆ vectors') (hbytes : ∀ n, bytes n → bytes' n) :
    Touches generals' vectors' bytes' s t where
  registers r hr := h.registers r fun hin => hr (hgenerals hin)
  vectors x hx := h.vectors x fun hin => hx (hvectors hin)
  memory a ha := h.memory a fun hin => ha (hbytes _ hin)

end Touches

section Copies

variable {symbols : String → Word} {s : State} {size d σ : Nat}

theorem copy_runs (hd : ∀ n, d ≤ n ∧ n < d + size → n < σ) (hσ : σ + size ≤ 2 ^ 64) : ∃ v m,
    straight symbols (copy (Address.stack d) (Address.stack σ) size) s =
      some ((s.set .r11 v).withMemory m) ∧
    (∀ k < size, m (s.registers .rsp + BitVec.ofNat 64 (d + k)) =
      s.memory (s.registers .rsp + BitVec.ofNat 64 (σ + k))) ∧
    ∀ a, ¬ (d ≤ (a - s.registers .rsp).toNat ∧ (a - s.registers .rsp).toNat < d + size) →
      m a = s.memory a := by
  have hbelow : 0 < size → d + size ≤ σ := by
    intro hpositive
    have hlast := hd (d + size - 1) (by omega)
    omega
  have hapart : ∀ k < size, size ≤ (s.address symbols (Address.stack σ) + BitVec.ofNat 64 k -
      s.address symbols (Address.stack d)).toNat := by
    intro k hk
    have hlow := hbelow (by omega)
    have hoffset := toNat_offset (s.registers .rsp) (show σ + k < 2 ^ 64 by omega)
    rw [State.address_stack, State.address_stack, displace_natCast, displace_natCast,
      BitVec.add_assoc, ← BitVec.ofNat_add, toNat_add_sub, hoffset]
    omega
  obtain ⟨v, hrun⟩ := straight_copy (Address.avoids_stack (by decide) d)
    (Address.avoids_stack (by decide) σ) (by omega) hapart
  simp only [State.address_stack, displace_natCast] at hrun
  refine ⟨v, _, hrun, ?_, ?_⟩
  · intro k hk
    have hdistance : s.registers .rsp + BitVec.ofNat 64 (d + k) -
        (s.registers .rsp + BitVec.ofNat 64 d) = BitVec.ofNat 64 k := by
      rw [BitVec.ofNat_add, ← BitVec.add_assoc, BitVec.add_comm _ (BitVec.ofNat 64 k),
        BitVec.add_sub_cancel]
    have hin : (BitVec.ofNat 64 k).toNat ∈ List.range size := by
      rw [BitVec.toNat_ofNat, List.mem_range]
      omega
    rw [Memory.copied, hdistance, if_pos hin, BitVec.add_assoc, ← BitVec.ofNat_add]
  · intro a ha
    refine if_neg fun hin => ha ?_
    have hlow := hbelow (by rw [List.mem_range] at hin; omega)
    have hbound := (a - s.registers .rsp).isLt
    rw [List.mem_range, toNat_add_sub] at hin
    omega

end Copies

section Slots

variable {symbols : String → Word} {s t : State} {shape : Shape} {σ : Nat}

theorem toNat_load (m : Memory) (a : Word) {n : Nat} (hn : n ≤ 8) :
    (BitVec.ofNat 64 (m.load a n)).toNat = m.load a n := by
  have hload := m.load_lt a n
  have hpow : 256 ^ n ≤ 256 ^ 8 := Nat.pow_le_pow_right (by decide) hn
  rw [BitVec.toNat_ofNat]
  omega

theorem toNat_load_mod (m : Memory) (a : Word) {n k : Nat} (hn : n ≤ 8) (hk : k ≤ n) :
    (BitVec.ofNat 64 (m.load a n)).toNat % 256 ^ k = m.load a k := by
  rw [toNat_load m a hn, ← m.load_mod a hk]

theorem loadSized_runs (r : Register) (a : Address) (size : Nat) (signed : Bool) : ∃ v,
    s.effect symbols (loadSized r a size signed) = some (s.set r v) ∧
    v.toNat % 256 ^ min 8 size = s.memory.load (s.address symbols a) (min 8 size) ∧
    (size = 4 → signed →
      v = (BitVec.ofNat 32 (s.memory.load (s.address symbols a) 4)).signExtend 64) ∧
    (size = 1 ∨ size = 2 → v.toNat = s.memory.load (s.address symbols a) size) := by
  unfold loadSized
  split
  case h_1 =>
    exact ⟨_, rfl, toNat_load_mod _ _ (by decide) (by decide), by simp,
      fun _ => toNat_load _ _ (by decide)⟩
  case h_2 =>
    exact ⟨_, rfl, toNat_load_mod _ _ (by decide) (by decide), by simp,
      fun _ => toNat_load _ _ (by decide)⟩
  case h_3 =>
    refine ⟨_, rfl, ?_, fun _ _ => rfl, by simp⟩
    have hload := s.memory.load_lt (s.address symbols a) 4
    have hmin : min 8 4 = 4 := rfl
    rw [hmin, BitVec.toNat_signExtend, BitVec.toNat_setWidth, BitVec.toNat_ofNat]
    split <;> omega
  case h_4 =>
    obtain ⟨v, hwrite, hv⟩ := @State.write_register symbols s
      (s.read symbols (.memory .dword a)) r .dword
    refine ⟨v, hwrite, ?_, by simp, by simp⟩
    rw [State.toNat_read_memory] at hv
    exact hv.trans (Nat.mod_eq_of_lt (s.memory.load_lt _ _))
  case h_5 =>
    exact ⟨_, rfl, toNat_load_mod _ _ (by decide) (Nat.min_le_left _ _), by simp_all, by simp_all⟩

/-- The state after a register was set. -/
def put (s : State) (v : Word) : Slot → State
  | .general r => s.set r v
  | .vector x => s.setVector x v

theorem fillSlot_runs (hprecision : ∀ p, shape.precision = some p → shape.size = p.width.bytes)
    {single : Bool} {size : Nat} (hsize : single → size = shape.size) (a : Address)
    (slot : Slot) : ∃ v,
    s.effect symbols (fillSlot shape single a slot) = some (put s v slot) ∧
    v.toNat % 256 ^ min 8 size = s.memory.load (s.address symbols a) (min 8 size) ∧
    (single → ∀ r, slot = .general r → shape.size = 4 → shape.precision = none →
      v = (BitVec.ofNat 32 (s.memory.load (s.address symbols a) 4)).signExtend 64) ∧
    (single → ∀ r, slot = .general r → shape.size = 1 ∨ shape.size = 2 →
      v.toNat = s.memory.load (s.address symbols a) shape.size) := by
  cases slot with
  | general r =>
    cases single with
    | true =>
      obtain ⟨v, hrun, hlow, hsigned, hunsigned⟩ := @loadSized_runs symbols s r a shape.size
        (shape.size == 4 && shape.precision.isNone)
      rw [← hsize rfl] at hlow
      refine ⟨v, hrun, hlow, ?_, fun _ _ _ => hunsigned⟩
      intro _ _ _ hfour hnone
      exact hsigned hfour (by simp [hfour, hnone])
    | false =>
      exact ⟨_, rfl, toNat_load_mod _ _ (by decide) (Nat.min_le_left _ _), by simp, by simp⟩
  | vector x =>
    refine ⟨_, rfl, toNat_load_mod _ _ ?_ ?_, by simp, by simp⟩
    · generalize (if single then shape.precision.getD .double else .double) = p
      cases p <;> decide
    · cases single with
      | false => exact Nat.min_le_left _ _
      | true =>
        rw [hsize rfl]
        cases hp : shape.precision with
        | none => exact Nat.min_le_left _ _
        | some p =>
          rw [hprecision p hp]
          exact Nat.min_le_right _ _

theorem touches_put (s : State) (v : Word) (slot : Slot) :
    Touches slot.generals slot.vectors (fun _ => False) s (put s v slot) := by
  cases slot <;> constructor <;> simp +contextual [put, Slot.generals, Slot.vectors]

@[simp] theorem slot_put (s : State) (v : Word) (slot : Slot) : (put s v slot).slot slot = v := by
  cases slot <;> simp [put, State.slot]

/-- Registers that are not touched keep what they hold. -/
theorem Touches.slot {generals : List Register} {vectors : List Xmm} {bytes : Nat → Prop}
    (h : Touches generals vectors bytes s t) {slot : Slot}
    (hgenerals : ∀ r ∈ slot.generals, r ∉ generals ∧ r ≠ .rax ∧ r ≠ .r11)
    (hvectors : ∀ x ∈ slot.vectors, x ∉ vectors) : t.slot slot = s.slot slot := by
  cases slot with
  | general r =>
    obtain ⟨hr, hrax, hr11⟩ := hgenerals r List.mem_cons_self
    exact h.registers r hr hrax hr11
  | vector x => exact h.vectors x (hvectors x List.mem_cons_self)

theorem fillSlots_runs (hprecision : ∀ p, shape.precision = some p → shape.size = p.width.bytes)
    {single : Bool} {size : Nat} {slots : List Slot}
    (hsingle : single → slots ≠ [] → slots.length = 1 ∧ size = shape.size)
    (hgenerals : (slots.flatMap Slot.generals).Nodup)
    (hvectors : (slots.flatMap Slot.vectors).Nodup)
    (hscratch : ∀ r ∈ slots.flatMap Slot.generals, r ≠ .rax ∧ r ≠ .r11 ∧ r ≠ .rsp) : ∃ t,
    straight symbols (fillSlots shape single (Address.stack σ) slots) s = some t ∧
    Touches (slots.flatMap Slot.generals) (slots.flatMap Slot.vectors) (fun _ => False) s t ∧
    (∀ j slot, slots[j]? = some slot → (t.slot slot).toNat % 256 ^ part size j =
      s.memory.load (s.registers .rsp + BitVec.ofNat 64 (σ + 8 * j)) (part size j)) ∧
    (single → ∀ r, slots = [.general r] → shape.size = 4 → shape.precision = none →
      t.registers r = (BitVec.ofNat 32
        (s.memory.load (s.registers .rsp + BitVec.ofNat 64 σ) 4)).signExtend 64) ∧
    (single → ∀ r, slots = [.general r] → shape.size = 1 ∨ shape.size = 2 →
      (t.registers r).toNat =
        s.memory.load (s.registers .rsp + BitVec.ofNat 64 σ) shape.size) := by
  induction slots generalizing s σ size with
  | nil => exact ⟨s, rfl, .refl s, by simp, by simp, by simp⟩
  | cons slot rest ih =>
    rw [List.flatMap_cons] at hgenerals hvectors hscratch
    obtain ⟨v, hrun, hlow, hsigned, hunsigned⟩ := @fillSlot_runs symbols s shape hprecision single
      size (fun h => (hsingle h (by simp)).2) (Address.stack σ) slot
    have htouch := touches_put s v slot
    have hrsp : (put s v slot).registers .rsp = s.registers .rsp :=
      htouch.rsp fun hin => (hscratch .rsp (List.mem_append_left _ hin)).2.2 rfl
    have hmemory : (put s v slot).memory = s.memory := funext fun a => htouch.memory a not_false
    have hlast : single → rest ≠ [] → rest.length = 1 ∧ size - 8 = shape.size := by
      intro h hne
      have hlength := (hsingle h (by simp)).1
      rw [List.length_cons, Nat.add_eq_right, List.length_eq_zero_iff] at hlength
      exact absurd hlength hne
    obtain ⟨t, hrest, htouch', hlow', -, -⟩ := @ih (put s v slot) (σ + 8) (size - 8) hlast
      (List.nodup_append.1 hgenerals).2.1 (List.nodup_append.1 hvectors).2.1
      (fun r hr => hscratch r (List.mem_append_right _ hr))
    rw [hmemory, hrsp] at hlow'
    have hkept : t.slot slot = v := by
      rw [← slot_put s v slot]
      refine htouch'.slot (fun r hr => ?_) fun x hx hin => ?_
      · obtain ⟨hrax, hr11, -⟩ := hscratch r (List.mem_append_left _ hr)
        exact ⟨fun hin => (List.nodup_append.1 hgenerals).2.2 r hr r hin rfl, hrax, hr11⟩
      · exact (List.nodup_append.1 hvectors).2.2 x hx x hin rfl
    rw [State.address_stack, displace_natCast] at hlow hsigned hunsigned
    refine ⟨t, ?_, ?_, ?_, ?_, ?_⟩
    · rw [fillSlots, straight_cons, hrun, bind_straight]
      exact hrest
    · exact (htouch.trans (fun hin => (hscratch .rsp (List.mem_append_left _ hin)).2.2 rfl)
        htouch').mono (fun r hr => hr) (fun x hx => hx) (by simp)
    · intro j other hother
      cases j with
      | zero =>
        obtain rfl : slot = other := by simpa using hother
        rw [hkept]
        exact hlow
      | succ j =>
        have hsecond := hlow' j other (by simpa using hother)
        rw [show σ + 8 + 8 * j = σ + 8 * (j + 1) by omega] at hsecond
        rw [show part (size - 8) j = part size (j + 1) by simp only [part]; omega] at hsecond
        exact hsecond
    · rintro h r ⟨⟩ hfour hnone
      rw [← hsigned h r rfl hfour hnone]
      exact hkept
    · rintro h r ⟨⟩ hsmall
      rw [← hunsigned h r rfl hsmall]
      exact congrArg BitVec.toNat hkept

end Slots

section Arguments

variable {symbols : String → Word} {s : State} {shape : Shape} {copies area σ : Nat}

/-- The code that places an argument runs to its end, touches what the placement names, and leaves
the argument there. -/
def Places (symbols : String → Word) (s : State) (copies σ : Nat) (shape : Shape)
    (p : Placement) : Prop :=
  ∃ t, straight symbols (placeArgument copies shape (Address.stack σ) p) s = some t ∧
    Touches p.generals p.vectors (p.Covers copies shape.size) s t ∧
    Realised t copies shape s.memory (s.registers .rsp + BitVec.ofNat 64 σ) p

theorem places_registers {slots : List Slot} (hshape : shape.Regular)
    (hgenerals : (Placement.registers slots).generals.Nodup)
    (hvectors : (Placement.registers slots).vectors.Nodup)
    (hscratch : ∀ r ∈ (Placement.registers slots).generals, r ≠ .rax ∧ r ≠ .r11 ∧ r ≠ .rsp) :
    Places symbols s copies σ shape (.registers slots) := by
  have hsingle : (slots.length == 1) = true → slots ≠ [] →
      slots.length = 1 ∧ shape.size = shape.size := fun h _ => ⟨by simpa using h, rfl⟩
  obtain ⟨t, hrun, htouch, hlow, hsigned, hunsigned⟩ := @fillSlots_runs symbols s shape σ
    hshape.precision _ _ slots hsingle hgenerals hvectors hscratch
  refine ⟨t, hrun, htouch.mono (fun _ h => h) (fun _ h => h) (fun _ h => h.elim), ?_, ?_, ?_⟩
  · intro j slot hslot
    rw [BitVec.add_assoc, ← BitVec.ofNat_add]
    exact hlow j slot hslot
  · exact fun r hr => hsigned (by simp [hr]) r hr
  · exact fun r hr => hunsigned (by simp [hr]) r hr

theorem places_both {x : Xmm} {r : Register}
    (hfits : (Placement.both x r).Fits copies shape.size) :
    Places symbols s copies σ shape (.both x r) := by
  have hrun : straight symbols (placeArgument copies shape (Address.stack σ) (.both x r)) s =
      some ((s.setVector x (s.memory.word (s.registers .rsp + BitVec.ofNat 64 σ))).set r
        (s.memory.word (s.registers .rsp + BitVec.ofNat 64 σ))) := by
    rw [placeArgument, straight_cons, State.effect_loadFloat, bind_straight, straight_cons,
      State.effect_mov_register, bind_straight, straight_nil, State.address_stack,
      displace_natCast]
    simp [displace_natCast, Memory.word, Precision.width, Width.bytes]
  refine ⟨_, hrun, ⟨?_, ?_, ?_⟩, ?_, ?_⟩
  · intro r' hr' _ _
    have hne : r' ≠ r := by simpa [Placement.generals] using hr'
    simp [hne]
  · intro x' hx'
    have hne : x' ≠ x := by simpa [Placement.vectors] using hx'
    simp [hne]
  · simp
  · rw [State.vectors_set, State.vectors_setVector, if_pos rfl]
    exact toNat_load_mod _ _ (by decide) hfits
  · rw [State.registers_set, if_pos rfl]
    exact toNat_load_mod _ _ (by decide) hfits

theorem places_stack {offset : Nat}
    (hbelow : ∀ n, offset ≤ n ∧ n < offset + alignUp shape.size 8 → n < σ)
    (hσ : σ + alignUp shape.size 8 ≤ 2 ^ 64) : Places symbols s copies σ shape (.stack offset) := by
  have hround := le_alignUp shape.size 8
  obtain ⟨v, m, hrun, hcopied, hkept⟩ := @copy_runs symbols s _ _ _ hbelow hσ
  refine ⟨_, hrun, ⟨?_, ?_, hkept⟩, ?_⟩
  · intro r _ _ hr11
    simp [hr11]
  · simp
  · intro k hk
    have hbyte := hcopied k (by omega)
    simpa [BitVec.add_assoc, ← BitVec.ofNat_add] using hbyte

section Reference

variable {offset : Nat}
  (hbelow : ∀ n, copies + offset ≤ n ∧ n < copies + offset + shape.size → n < σ)
  (hσ : σ + shape.size ≤ 2 ^ 64)

include hbelow hσ

theorem places_reference_register {r : Register} (hrsp : r ≠ .rsp) :
    Places symbols s copies σ shape (.reference offset (.register r)) := by
  obtain ⟨v, m, hrun, hcopied, hkept⟩ := @copy_runs symbols s _ _ _ hbelow hσ
  have hrun' : straight symbols (placeArgument copies shape (Address.stack σ)
      (.reference offset (.register r))) s =
      some (((s.set .r11 v).withMemory m).set r
        (s.registers .rsp + BitVec.ofNat 64 (copies + offset))) := by
    rw [placeArgument, straight_append, hrun, bind_straight, straight_cons,
      State.effect_lea, bind_straight, straight_nil, State.address_stack, displace_natCast]
    simp
  refine ⟨_, hrun', ⟨?_, ?_, hkept⟩, ?_, ?_⟩
  · intro r' hr' _ hr11'
    have hne : r' ≠ r := by simpa [Placement.generals] using hr'
    simp [hne, hr11']
  · simp
  · intro k hk
    simpa [Ne.symm hrsp, BitVec.add_assoc, ← BitVec.ofNat_add] using hcopied k hk
  · simp [Ne.symm hrsp]

theorem places_reference_stack {word : Nat} (hword : word + 8 ≤ copies)
    (hlast : word + 7 < 2 ^ 64) :
    Places symbols s copies σ shape (.reference offset (.stack word)) := by
  obtain ⟨v, m, hrun, hcopied, hkept⟩ := @copy_runs symbols s _ _ _ hbelow hσ
  have hrun' : straight symbols (placeArgument copies shape (Address.stack σ)
      (.reference offset (.stack word))) s =
      some ((((s.set .r11 v).withMemory m).set .rax
        (s.registers .rsp + BitVec.ofNat 64 (copies + offset))).put
          (s.registers .rsp + BitVec.ofNat 64 word)
          (s.registers .rsp + BitVec.ofNat 64 (copies + offset))) := by
    rw [placeArgument, straight_append, hrun, bind_straight, straight_cons,
      State.effect_lea, bind_straight, straight_cons, State.effect_mov_memory, bind_straight,
      straight_nil, State.address_stack, State.address_stack, displace_natCast,
      displace_natCast]
    simp
  have hother {n : Nat} {a : Word} (hn : (a - s.registers .rsp).toNat = n)
      (hout : ¬ (word ≤ n ∧ n < word + 8)) :
      8 ≤ (a - (s.registers .rsp + BitVec.ofNat 64 word)).toNat := by
    have hbound := (a - s.registers .rsp).isLt
    rw [toNat_add_sub, hn]
    omega
  refine ⟨_, hrun', ⟨?_, ?_, ?_⟩, ?_, ?_⟩
  · intro r' _ hrax hr11'
    simp [hrax, hr11']
  · simp
  · intro a ha
    obtain ⟨hcopy, hout⟩ := not_or.1 ha
    rw [State.memory_put, Memory.put_other (hother rfl hout)]
    exact hkept a hcopy
  · intro k hk
    have hin : copies + offset + k < 2 ^ 64 := by
      have hlow := hbelow (copies + offset + k) (by omega)
      omega
    have hrsp : ((((s.set .r11 v).withMemory m).set .rax
        (s.registers .rsp + BitVec.ofNat 64 (copies + offset))).put
          (s.registers .rsp + BitVec.ofNat 64 word)
          (s.registers .rsp + BitVec.ofNat 64 (copies + offset))).registers .rsp =
        s.registers .rsp := by
      simp
    rw [hrsp, State.memory_put, Memory.put_other (hother (toNat_offset _ hin) (by omega))]
    simpa [BitVec.add_assoc, ← BitVec.ofNat_add] using hcopied k hk
  · simp

end Reference

theorem placeArgument_runs {p : Placement} (hshape : shape.Regular)
    (hfits : p.Fits copies shape.size) (hgenerals : p.generals.Nodup) (hvectors : p.vectors.Nodup)
    (hscratch : ∀ r ∈ p.generals, r ≠ .rax ∧ r ≠ .r11 ∧ r ≠ .rsp)
    (hinside : ∀ n, p.Covers copies shape.size n → n < area) (harea : area ≤ σ)
    (hσ : σ + alignUp shape.size 8 ≤ 2 ^ 64) : Places symbols s copies σ shape p := by
  have hround := le_alignUp shape.size 8
  have hbelow (n : Nat) (hn : p.Covers copies shape.size n) : n < σ :=
    Nat.lt_of_lt_of_le (hinside n hn) harea
  cases p with
  | registers slots => exact places_registers hshape hgenerals hvectors hscratch
  | both x r => exact places_both hfits
  | stack offset => exact places_stack hbelow hσ
  | reference offset pointer =>
    cases pointer with
    | register r =>
      obtain ⟨-, -, hrsp⟩ := hscratch r List.mem_cons_self
      exact places_reference_register hbelow (by omega) hrsp
    | stack word =>
      have hlast := hbelow (word + 7) (.inr (by omega))
      exact places_reference_stack (fun n hn => hbelow n (.inl hn)) (by omega) hfits (by omega)

end Arguments

end RegionCompiler.Codegen
