import RegionCompiler.Proofs.Codegen.Operation

/-! The stack of a running function. Its bytes are counted from some base downwards. Code works on
those below the top, up to a limit, and keeps all others. -/
namespace RegionCompiler.Machine

theorem Sits.cast {code part : Code} {i j : Nat} (h : Sits code i part) (hj : i = j) :
    Sits code j part :=
  hj ▸ h

/-- How far a byte lies below an address. Bytes that lie above it are the farthest. -/
def depth (a x : Word) : Nat := (a - 1#64 - x).toNat

theorem depth_lt (a x : Word) : depth a x < 2 ^ 64 := (a - 1#64 - x).isLt

theorem toNat_sub_displace (a x : Word) (e : Nat) :
    (x - displace a (-e)).toNat = (e + (2 ^ 64 - 1 - depth a x)) % 2 ^ 64 := by
  simp only [depth, displace, BitVec.toNat_sub, BitVec.toNat_add, BitVec.toNat_ofInt,
    BitVec.toNat_ofNat]
  omega

theorem depth_displace (a : Word) {e k : Nat} (hk : k < e) (he : e ≤ 2 ^ 64) :
    depth a (displace a (-e) + BitVec.ofNat 64 k) = e - 1 - k := by
  simp only [depth, displace, BitVec.toNat_sub, BitVec.toNat_add, BitVec.toNat_ofInt,
    BitVec.toNat_ofNat]
  omega

/-- The stack from a base downwards, beside memory that belongs to others. -/
structure StackArea where
  base : Word
  /-- The base pointer. -/
  frame : Word
  limit : Nat
  limit_lt : limit < 2 ^ 64
  /-- The bytes of others. -/
  owned : Word → Prop
  /-- What the others rely on. -/
  Good : State → Prop
  apart : ∀ x, owned x → limit ≤ depth base x
  good_congr : ∀ {s t : State}, Good s → (∀ x, owned x → t.memory x = s.memory x) →
    t.blocks = s.blocks → t.calls = s.calls → Good t

namespace StackArea

variable {w : StackArea} {d e n : Nat} {s t u : State} {x v : Word} {P Q : Word → Prop}

/-- A byte that code keeps when the stack has the given height. -/
def Safe (w : StackArea) (d : Nat) (x : Word) : Prop :=
  ¬ w.owned x ∧ (depth w.base x < d ∨ w.limit ≤ depth w.base x)

theorem Safe.mono (h : w.Safe d x) (hd : d ≤ e) : w.Safe e x :=
  ⟨h.1, h.2.imp_left (lt_of_lt_of_le · hd)⟩

def Keeps (w : StackArea) (d : Nat) (s t : State) : Prop :=
  ∀ x, w.Safe d x → t.memory x = s.memory x

theorem Keeps.trans (h : w.Keeps d s t) (h' : w.Keeps d t u) : w.Keeps d s u :=
  fun x hx => (h' x hx).trans (h x hx)

theorem Keeps.mono (h : w.Keeps e s t) (hd : d ≤ e) : w.Keeps d s t :=
  fun x hx => h x (hx.mono hd)

/-- The stack has the given height. -/
structure At (w : StackArea) (d : Nat) (s : State) : Prop where
  rsp : s.registers .rsp = displace w.base (-d)
  rbp : s.registers .rbp = w.frame
  good : w.Good s

/-- The place of a slot, with the stack below it that high. -/
abbrev place (w : StackArea) (d : Nat) : Word := displace w.base (-d)

theorem place_add (w : StackArea) {d n : Nat} (h : n ≤ d) :
    displace (w.place d) n = w.place (d - n) := by
  rw [place, displace_displace]
  congr 1
  omega

theorem safe_place (h : w.Safe d x) (hn : d + n ≤ e) (he : e ≤ w.limit) :
    n ≤ (x - w.place e).toNat := by
  have hlimit := w.limit_lt
  have hdepth := depth_lt w.base x
  rw [toNat_sub_displace]
  rcases h.2 with h | h <;> omega

theorem owned_place (h : w.owned x) (hn : n ≤ e) (he : e ≤ w.limit) :
    n ≤ (x - w.place e).toNat := by
  have hlimit := w.limit_lt
  have hdepth := depth_lt w.base x
  have hapart := w.apart x h
  rw [toNat_sub_displace]
  omega

theorem safe_slot (w : StackArea) {d k : Nat} (hk : k < d) (hd : d ≤ w.limit) :
    w.Safe d (w.place d + BitVec.ofNat 64 k) := by
  have hlimit := w.limit_lt
  have hdepth : depth w.base (w.place d + BitVec.ofNat 64 k) = d - 1 - k :=
    depth_displace w.base hk (by omega)
  refine ⟨fun howned => ?_, .inl ?_⟩
  · have hapart := w.apart _ howned
    omega
  · omega

theorem apart_place (w : StackArea) (hd : 8 ≤ d) (he : d + 8 ≤ e) (hlimit : e ≤ w.limit) :
    Memory.Apart (w.place d) (w.place e) := by
  have hlt := w.limit_lt
  simp only [Memory.Apart, place, displace, BitVec.toNat_sub, BitVec.toNat_add, BitVec.toNat_ofInt]
  omega

theorem Keeps.word (h : w.Keeps d s t) (hd : 8 ≤ d) (hlimit : d ≤ w.limit) :
    t.memory.word (w.place d) = s.memory.word (w.place d) :=
  Memory.word_congr fun k hk => h _ (w.safe_slot (by omega) hlimit)

namespace At

theorem change (h : w.At d s) (hrsp : t.registers .rsp = displace w.base (-n))
    (hrbp : t.registers .rbp = s.registers .rbp)
    (hmemory : ∀ x, w.owned x → t.memory x = s.memory x) (hblocks : t.blocks = s.blocks)
    (hcalls : t.calls = s.calls) : w.At n t :=
  ⟨hrsp, hrbp.trans h.rbp, w.good_congr h.good hmemory hblocks hcalls⟩

theorem scratch (h : w.At d s) (ht : s.Scratches t) : w.At d t :=
  h.change (ht.rsp.trans h.rsp) ht.rbp (fun x _ => by rw [ht.memory]) ht.blocks ht.calls

theorem put (h : w.At d s) (he : 8 ≤ e) (hlimit : e ≤ w.limit) (v : Word) :
    w.At d (s.put (w.place e) v) :=
  h.change h.rsp rfl (fun _ hx => Memory.put_other (owned_place hx he hlimit)) rfl rfl

end At

theorem keeps_put (hd : d + 8 ≤ e) (he : e ≤ w.limit) (s : State) (v : Word) :
    w.Keeps d s (s.put (w.place e) v) :=
  fun _ hx => Memory.put_other (safe_place hx hd he)

theorem Keeps.of_scratch (h : s.Scratches t) : w.Keeps d s t := fun x _ => by rw [h.memory]

/-- A slot more, with a word in it. -/
structure Pushes (w : StackArea) (d : Nat) (P : Word → Prop) (s t : State) : Prop where
  at_ : w.At (d + 16) t
  kept : w.Keeps d s t
  word : P (t.memory.word (w.place (d + 16)))

theorem Pushes.after (h : w.Pushes d P t u) (hs : w.Keeps d s t) : w.Pushes d P s u :=
  ⟨h.at_, hs.trans h.kept, h.word⟩

theorem Pushes.replace (h : w.Pushes d P s t) (hd : d + 16 ≤ w.limit) (ht : t.Scratches u)
    {v : Word} (hv : Q v) : w.Pushes d Q s (u.put (w.place (d + 16)) v) :=
  ⟨(h.at_.scratch ht).put (by omega) hd v,
    h.kept.trans ((Keeps.of_scratch ht).trans (keeps_put (by omega) hd u v)), by simpa using hv⟩

end StackArea

end RegionCompiler.Machine

namespace RegionCompiler.Codegen

open Machine Machine.Instr

variable {m : Image} {w : StackArea} {d n i : Nat} {s t : State} {P : Word → Prop}

theorem lower_arrives (hsits : Sits m.code i (lower n)) (h : w.At d s) :
    m.Arrives i s fun j t => j = i + (lower n).length ∧ w.At (d + n) t ∧ w.Keeps d s t ∧
      ∀ r, r ≠ .rsp → t.registers r = s.registers r := by
  obtain ⟨f, hrun⟩ := straight_lower m.symbols s n
  refine .straight hsits hrun (.here ⟨rfl, ?_, fun _ _ => rfl, fun r hr => by simp [hr]⟩)
  refine h.change ?_ (by simp) (fun _ _ => rfl) rfl rfl
  rw [State.registers_set, if_pos rfl, h.rsp, displace_displace]
  congr 1
  omega

theorem raise_arrives (hsits : Sits m.code i (raise n)) (h : w.At (d + n) s) :
    m.Arrives i s fun j t => j = i + (raise n).length ∧ w.At d t ∧ t.memory = s.memory ∧
      ∀ r, r ≠ .rsp → t.registers r = s.registers r := by
  obtain ⟨f, hrun⟩ := straight_raise m.symbols s n
  refine .straight hsits hrun (.here ⟨rfl, ?_, rfl, fun r hr => by simp [hr]⟩)
  refine h.change ?_ (by simp) (fun _ _ => rfl) rfl rfl
  rw [State.registers_set, if_pos rfl, h.rsp, displace_displace]
  congr 1
  omega

theorem address_top (h : w.At d s) : s.address m.symbols top = w.place d := by
  simp [top, h.rsp]

theorem pushRax_arrives (hsits : Sits m.code i pushRax) (h : w.At d s) (hd : d + 16 ≤ w.limit)
    (hP : P (s.registers .rax)) :
    m.Arrives i s fun j t => j = i + pushRax.length ∧ w.Pushes d P s t := by
  refine (lower_arrives hsits.left h).bind ?_
  rintro _ t ⟨rfl, hat, hkept, hregisters⟩
  refine .step (Image.step_effect hsits.right.head (State.effect_mov_memory ..)) (.here ⟨rfl, ?_⟩)
  rw [address_top hat, State.read_register, hregisters .rax (by decide)]
  exact ⟨hat.put (by omega) hd _, hkept.trans (StackArea.keeps_put (by omega) hd t _), by simpa⟩

theorem address_slot (h : w.At d s) (hn : n ≤ d) :
    s.address m.symbols (Address.stack n) = w.place (d - n) := by
  rw [State.address_stack, h.rsp]
  exact w.place_add hn

theorem collapse_arrives (hsits : Sits m.code i (collapse 16 16)) (h : w.At (d + 32) s)
    (hd : d + 32 ≤ w.limit) (hP : P (s.memory.word (w.place (d + 32)))) :
    m.Arrives i s fun j t => j = i + (collapse 16 16).length ∧ w.Pushes d P s t := by
  have hcode : collapse 16 16 = [mov Register.r11 (Address.stack 8),
      mov (Address.stack 24) Register.r11, mov Register.r11 (Address.stack 0),
      mov (Address.stack 16) Register.r11] ++ raise 16 := rfl
  rw [hcode] at hsits ⊢
  obtain ⟨high, hhigh⟩ : ∃ v, v = s.memory.word (w.place (d + 24)) := ⟨_, rfl⟩
  obtain ⟨low, hlow⟩ : ∃ v, v = s.memory.word (w.place (d + 32)) := ⟨_, rfl⟩
  rw [← hlow] at hP
  have h₁ : w.At (d + 32) (s.set .r11 high) :=
    h.scratch (.load (by decide) (by decide) s high)
  have h₂ := h₁.put (show 8 ≤ d + 8 by omega) (by omega) high
  have h₃ : w.At (d + 32) (((s.set .r11 high).put (w.place (d + 8)) high).set .r11 low) :=
    h₂.scratch (.load (by decide) (by decide) _ low)
  have h₄ := h₃.put (show 8 ≤ d + 16 by omega) (by omega) low
  refine .step (Image.step_effect hsits.left.head (State.effect_mov_register ..)) ?_
  rw [State.read_memory, address_slot h (by omega), show d + 32 - 8 = d + 24 by omega, ← hhigh]
  refine .step (Image.step_effect hsits.left.tail.head (State.effect_mov_memory ..)) ?_
  rw [State.read_register, address_slot h₁ (by omega), show d + 32 - 24 = d + 8 by omega,
    State.registers_set, if_pos rfl]
  refine .step (Image.step_effect hsits.left.tail.tail.head (State.effect_mov_register ..)) ?_
  rw [State.read_memory, address_slot h₂ (by omega), Nat.sub_zero, State.memory_put,
    Memory.word_put_apart (w.apart_place (by omega) (by omega) hd), State.memory_set, ← hlow]
  refine .step (Image.step_effect hsits.left.tail.tail.tail.head (State.effect_mov_memory ..)) ?_
  rw [State.read_register, address_slot h₃ (by omega), show d + 32 - 16 = d + 16 by omega,
    State.registers_set, if_pos rfl]
  refine (raise_arrives hsits.right (d := d + 16) h₄).mono ?_
  rintro j t ⟨rfl, hat, hmemory, -⟩
  refine ⟨by simp [Nat.add_comm 4, Nat.add_assoc], hat, fun x hx => ?_, ?_⟩
  · rw [hmemory, StackArea.keeps_put (d := d) (by omega) (by omega) _ _ x hx]
    exact StackArea.keeps_put (d := d) (by omega) (by omega) _ _ x hx
  · rw [hmemory, State.memory_put, Memory.word_put]
    exact hP

/-- Bytes go from one place to another that does not overlap it. -/
theorem copy_arrives {dst src : Address} {size : Nat} (hsits : Sits m.code i (copy dst src size))
    (hdst : dst.Avoids .r11) (hsrc : src.Avoids .r11) (hsize : size < 2 ^ 64)
    (hapart : ∀ k < size, size ≤
      (s.address m.symbols src + BitVec.ofNat 64 k - s.address m.symbols dst).toNat) :
    m.Arrives i s fun j t => j = i + (copy dst src size).length ∧
      (∀ r, r ≠ .r11 → t.registers r = s.registers r) ∧
      t.memory.load (s.address m.symbols dst) size =
        s.memory.load (s.address m.symbols src) size ∧
      (∀ x, size ≤ (x - s.address m.symbols dst).toNat → t.memory x = s.memory x) ∧
      t.blocks = s.blocks ∧ t.calls = s.calls := by
  obtain ⟨v, hrun⟩ := straight_copy hdst hsrc hsize.le hapart
  refine .straight hsits hrun (.here ⟨rfl, fun r hr => by simp [hr], ?_, fun x hx => ?_, rfl, rfl⟩)
  · refine Memory.load_congr fun k hk => ?_
    have hoffset : s.address m.symbols dst + BitVec.ofNat 64 k - s.address m.symbols dst =
        BitVec.ofNat 64 k := by
      rw [BitVec.add_comm, BitVec.add_sub_cancel]
    have hin : (BitVec.ofNat 64 k).toNat ∈ List.range size := by
      rw [List.mem_range, BitVec.toNat_ofNat, Nat.mod_eq_of_lt (by omega)]
      exact hk
    rw [State.memory_withMemory, Memory.copied, hoffset, if_pos hin]
  · rw [State.memory_withMemory, Memory.copied, if_neg (by rw [List.mem_range]; omega)]

end RegionCompiler.Codegen
