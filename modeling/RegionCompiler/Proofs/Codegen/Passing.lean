import RegionCompiler.Proofs.Codegen.Agreement
import RegionCompiler.Proofs.Codegen.Marshal
import RegionCompiler.Proofs.Convention

/-! Calls of C functions, from the evaluated arguments to the result in its slot. Arguments are
moved one after the other; none of the moves undoes an earlier one or changes what is still to be
moved. -/
namespace RegionCompiler.Convention

open Machine

def ResultPlacement.slots : ResultPlacement → List Slot
  | .registers slots => slots
  | .nothing | .hidden _ => []

theorem SystemV.vectors_le {arguments : List ForeignArgument} {result : Option Shape} {plan : Plan}
    (h : ∀ a ∈ arguments, a.shape.Regular) (hplan : SystemV.plan? arguments result = .ok plan) :
    plan.vectors ≤ 8 := by
  obtain ⟨placed, -, rfl, -⟩ := SystemV.plan?_eq_ok hplan
  have hcount (first : Nat) : (SystemV.placeArguments ⟨first, 0, 0⟩ arguments).2.vector ≤ 8 := by
    have htakes : SystemV.TakesAll ⟨first, 0, 0⟩ _ arguments _ := SystemV.placeArguments_takes h
    have hlength := congrArg List.length htakes.vectors
    have hfree : (SystemV.freeVectors ⟨first, 0, 0⟩).length = 8 := rfl
    rw [List.length_append, hfree] at hlength
    have hvector := htakes.count
    dsimp only at hvector
    omega
  exact hcount _

theorem slots_of_plan {c : Convention} {arguments : List ForeignArgument} {result : Option Shape}
    {plan : Plan} (hplan : c.plan? arguments result = .ok plan)
    (hregular : ∀ shape, result = some shape → shape.Regular) (hne : plan.result.slots ≠ []) :
    ∃ shape, result = some shape ∧ 0 < shape.size ∧ shape.size ≤ 8 * plan.result.slots.length ∧
      plan.result.slots.length ≤ 2 := by
  cases c with
  | systemV =>
    obtain ⟨placed, hplaced, rfl, -⟩ := SystemV.plan?_eq_ok hplan
    cases result with
    | none =>
      cases hplaced
      exact absurd rfl hne
    | some shape =>
      simp only [SystemV.placeResult?] at hplaced
      split at hplaced
      · cases hplaced
        exact absurd rfl hne
      · split at hplaced
        · cases hplaced
          exact absurd rfl hne
        · rename_i hsize hmemory
          obtain ⟨slots, hslots, rfl⟩ := Option.map_eq_some_iff.1 hplaced
          obtain ⟨hlength, -⟩ := SystemV.assign_takes hslots
          have hshort : shape.size ≤ 16 := by
            simp [Shape.isMemory] at hmemory
            omega
          obtain ⟨hfits, htwo⟩ := (hregular shape rfl).classes hshort
          have hslots : (SystemV.plan arguments (.registers slots)).result.slots.length =
            shape.classes.length := hlength
          exact ⟨shape, rfl, by omega, by omega, by omega⟩
  | microsoft =>
    obtain ⟨rfl, -⟩ := checked_eq_ok.1 hplan
    cases result with
    | none => exact absurd rfl hne
    | some shape =>
      simp only [Microsoft.plan, Microsoft.placeResult] at hne ⊢
      split at hne
      · exact absurd rfl hne
      · split at hne
        · exact absurd rfl hne
        · rename_i hzero hsize
          have hshort := Microsoft.isRegisterSize_le (by simpa using hsize)
          rw [if_neg hzero, if_neg hsize]
          refine ⟨shape, rfl, by omega, ?_, ?_⟩ <;> split <;>
            simp only [ResultPlacement.slots, List.length_singleton] <;> omega

end RegionCompiler.Convention

namespace RegionCompiler.Codegen

open Machine Machine.Instr Convention Typing

section Realised

variable {t u : State} {shape : Shape} {m m' : Memory} {source : Word} {copies : Nat}
  {p : Placement}

/-- Only the bytes of the argument matter. -/
theorem Realised.congr_source (h : Realised t copies shape m source p)
    (hm : ∀ k < shape.size, m (source + BitVec.ofNat 64 k) = m' (source + BitVec.ofNat 64 k)) :
    Realised t copies shape m' source p := by
  have hload : ∀ n ≤ shape.size, m.load source n = m'.load source n := fun n hn =>
    Memory.load_congr fun k hk => hm k (by omega)
  cases p with
  | registers slots =>
    refine ⟨fun j slot hslot => ?_, fun r hr hfour hnone => ?_, fun r hr hsmall => ?_⟩
    · rw [h.low j slot hslot]
      refine Memory.load_congr fun k hk => ?_
      rw [BitVec.add_assoc, ← BitVec.ofNat_add]
      simp only [part] at hk
      exact hm _ (by omega)
    · rw [h.signed r hr hfour hnone, hload 4 (by omega)]
    · rw [h.unsigned r hr hsmall, hload _ (Nat.le_refl _)]
  | both x r =>
    rw [Realised, ← hload _ (Nat.le_refl _)]
    exact h
  | stack offset => exact fun k hk => (h k hk).trans (hm k hk)
  | reference offset pointer => exact ⟨fun k hk => (h.1 k hk).trans (hm k hk), h.2⟩

theorem Realised.kept {generals : List Register} {vectors : List Xmm} {bytes : Nat → Prop}
    (h : Realised t copies shape m source p) (htouch : Touches generals vectors bytes t u)
    (hrsp : .rsp ∉ generals) (hgenerals : ∀ r ∈ p.generals, r ∉ generals ∧ r ≠ .rax ∧ r ≠ .r11)
    (hvectors : ∀ x ∈ p.vectors, x ∉ vectors)
    (hbytes : ∀ n, p.Covers copies shape.size n → n < 2 ^ 64 ∧ ¬ bytes n) :
    Realised u copies shape m source p := by
  have hround := le_alignUp shape.size 8
  have hbyte : ∀ n, p.Covers copies shape.size n →
      u.memory (u.registers .rsp + BitVec.ofNat 64 n) =
        t.memory (t.registers .rsp + BitVec.ofNat 64 n) := by
    intro n hn
    rw [htouch.rsp hrsp]
    refine htouch.memory _ ?_
    rw [toNat_offset _ (hbytes n hn).1]
    exact (hbytes n hn).2
  cases p with
  | registers slots =>
    have hslot : ∀ slot ∈ slots, u.slot slot = t.slot slot := fun slot hslot =>
      htouch.slot (fun r hr => hgenerals r (List.mem_flatMap.2 ⟨slot, hslot, hr⟩))
        fun x hx => hvectors x (List.mem_flatMap.2 ⟨slot, hslot, hx⟩)
    refine ⟨fun j slot hj => ?_, fun r hr => ?_, fun r hr => ?_⟩
    · rw [hslot slot (List.mem_of_getElem? hj)]
      exact h.low j slot hj
    · have hsame : u.registers r = t.registers r := hslot (.general r) (by simp [hr])
      rw [hsame]
      exact h.signed r hr
    · have hsame : u.registers r = t.registers r := hslot (.general r) (by simp [hr])
      rw [hsame]
      exact h.unsigned r hr
  | both x r =>
    obtain ⟨hr, hrax, hr11⟩ := hgenerals r List.mem_cons_self
    rw [Realised, htouch.vectors x (hvectors x List.mem_cons_self), htouch.registers r hr hrax hr11]
    exact h
  | stack offset =>
    intro k hk
    rw [hbyte (offset + k) ⟨by omega, by omega⟩]
    exact h k hk
  | reference offset pointer =>
    cases pointer with
    | register r =>
      obtain ⟨hr, hrax, hr11⟩ := hgenerals r List.mem_cons_self
      refine ⟨fun k hk => ?_, ?_⟩
      · rw [hbyte (copies + offset + k) ⟨by omega, by omega⟩]
        exact h.1 k hk
      · have hpointer : t.registers r = _ := h.2
        change u.registers r = _
        rw [htouch.registers r hr hrax hr11, hpointer, htouch.rsp hrsp]
    | stack word =>
      refine ⟨fun k hk => ?_, ?_⟩
      · rw [hbyte (copies + offset + k) (.inl ⟨by omega, by omega⟩)]
        exact h.1 k hk
      · have hpointer : t.memory.word _ = _ := h.2
        change u.memory.word _ = _
        rw [htouch.rsp hrsp, ← hpointer]
        refine Memory.word_congr fun k hk => ?_
        have hin := hbyte (word + k) (.inr ⟨by omega, by omega⟩)
        rw [htouch.rsp hrsp] at hin
        rw [BitVec.add_assoc, ← BitVec.ofNat_add]
        exact hin

end Realised

/-- Arguments with places that fit them and that no two of them share. -/
structure Laid (copies area : Nat) (ps : List Placement) (passed : List Passed) : Prop where
  length : ps.length = passed.length
  regular : ∀ a ∈ passed, a.argument.shape.Regular
  slots : ∀ a ∈ passed, alignUp a.argument.shape.size 8 ≤ a.slot
  fits : ∀ x ∈ ps.zip passed, x.1.Fits copies x.2.argument.shape.size
  generals : (ps.flatMap Placement.generals).Nodup
  vectors : (ps.flatMap Placement.vectors).Nodup
  scratch : ∀ r ∈ ps.flatMap Placement.generals, r ≠ .rax ∧ r ≠ .r11 ∧ r ≠ .rsp
  apart : (ps.zip passed).Pairwise fun x y => ∀ n,
    x.1.Covers copies x.2.argument.shape.size n → ¬ y.1.Covers copies y.2.argument.shape.size n
  inside : ∀ x ∈ ps.zip passed, ∀ n, x.1.Covers copies x.2.argument.shape.size n → n < area

theorem Laid.tail {copies area : Nat} {p : Placement} {ps : List Placement} {a : Passed}
    {passed : List Passed} (h : Laid copies area (p :: ps) (a :: passed)) :
    Laid copies area ps passed where
  length := Nat.succ.inj h.length
  regular b hb := h.regular b (List.mem_cons_of_mem _ hb)
  slots b hb := h.slots b (List.mem_cons_of_mem _ hb)
  fits x hx := h.fits x (List.mem_cons_of_mem _ hx)
  generals := (List.nodup_append.1 h.generals).2.1
  vectors := (List.nodup_append.1 h.vectors).2.1
  scratch r hr := h.scratch r (List.mem_append_right _ hr)
  apart := (List.pairwise_cons.1 h.apart).2
  inside x hx := h.inside x (List.mem_cons_of_mem _ hx)

theorem laid_of_sound {plan : Plan} {passed : List Passed}
    (h : plan.Sound (passed.map Passed.argument))
    (hregular : ∀ a ∈ passed, a.argument.shape.Regular)
    (hslots : ∀ a ∈ passed, alignUp a.argument.shape.size 8 ≤ a.slot) :
    Laid plan.stack plan.area plan.arguments passed := by
  have hzip : plan.arguments.zip (passed.map Passed.argument) =
      (plan.arguments.zip passed).map fun x => (x.1, x.2.argument) := by
    rw [List.zip_map_right]
    rfl
  have hmem : ∀ x ∈ plan.arguments.zip passed,
      (x.1, x.2.argument) ∈ plan.arguments.zip (passed.map Passed.argument) := by
    intro x hx
    rw [hzip]
    exact List.mem_map_of_mem hx
  have hgenerals := (List.nodup_append.1 h.generals).2.1
  have hapart := h.apart
  rw [Convention.Placed.Apart, hzip, List.pairwise_map] at hapart
  constructor
  case length => simpa using h.length
  case regular => exact hregular
  case slots => exact hslots
  case fits => exact fun x hx => h.fits _ (hmem x hx)
  case generals => exact hgenerals
  case vectors => exact h.vectors
  case scratch =>
    intro r hr
    obtain ⟨hrax, hr11, hrsp, -⟩ := h.scratch r (List.mem_append_right _ hr)
    exact ⟨hrax, hr11, hrsp⟩
  case apart => exact hapart
  case inside => exact fun x hx => h.inside _ (hmem x hx)

theorem slotsSize_append (first rest : List Passed) :
    slotsSize (first ++ rest) = slotsSize first + slotsSize rest := by
  induction first with
  | nil => simp [slotsSize]
  | cons a first ih => simp [slotsSize, ih, Nat.add_assoc]

theorem placeArguments_runs {symbols : String → Word} {copies area : Nat} {ps : List Placement}
    {passed : List Passed} (h : Laid copies area ps passed)
    (hroom : area + slotsSize passed ≤ 2 ^ 64) (s : State) : ∃ t,
    straight symbols (placeArguments copies area ps passed) s = some t ∧
    Touches (ps.flatMap Placement.generals) (ps.flatMap Placement.vectors)
      (fun n => ∃ x ∈ ps.zip passed, x.1.Covers copies x.2.argument.shape.size n) s t ∧
    ∀ first a rest p, passed = first ++ a :: rest → ps[first.length]? = some p →
      Realised t copies a.argument.shape s.memory
        (s.registers .rsp + BitVec.ofNat 64 (area + slotsSize rest)) p := by
  induction ps generalizing passed s with
  | nil =>
    refine ⟨s, rfl, (Touches.refl s).mono (by simp) (by simp) (fun _ h => h.elim), ?_⟩
    simp
  | cons p ps ih =>
    cases passed with
    | nil => cases h.length
    | cons a passed =>
      have hslot := h.slots a List.mem_cons_self
      have hround := le_alignUp a.argument.shape.size 8
      rw [slotsSize] at hroom
      obtain ⟨hgenerals, -, hothers⟩ := List.nodup_append.1 h.generals
      obtain ⟨hvectors, -, hothers'⟩ := List.nodup_append.1 h.vectors
      obtain ⟨hapart, -⟩ := List.pairwise_cons.1 h.apart
      obtain ⟨s₁, hfirst, htouch, hrealised⟩ := @placeArgument_runs symbols s
        a.argument.shape copies area (area + slotsSize passed) p (h.regular a List.mem_cons_self)
          (h.fits (p, a) List.mem_cons_self) hgenerals hvectors
        (fun r hr => h.scratch r (List.mem_append_left _ hr))
        (h.inside (p, a) List.mem_cons_self) (by omega) (by omega)
      obtain ⟨t, hrest, htouch', hall⟩ := ih h.tail (by omega) s₁
      have hrsp : Register.rsp ∉ p.generals := fun hin =>
        (h.scratch _ (List.mem_append_left _ hin)).2.2 rfl
      have hrsp' : Register.rsp ∉ ps.flatMap Placement.generals := fun hin =>
        (h.tail.scratch _ hin).2.2 rfl
      refine ⟨t, ?_, (htouch.trans hrsp htouch').mono (fun _ hr => hr) (fun _ hx => hx) ?_, ?_⟩
      · rw [placeArguments, straight_append, hfirst, bind_straight, hrest]
      · rintro n (hn | ⟨x, hx, hn⟩)
        · exact ⟨(p, a), List.mem_cons_self, hn⟩
        · exact ⟨x, List.mem_cons_of_mem _ hx, hn⟩
      · intro first b rest q hsplit hq
        cases first with
        | nil =>
          obtain ⟨rfl, rfl⟩ := List.cons.inj hsplit
          obtain rfl : p = q := by simpa using hq
          refine hrealised.kept htouch' hrsp' (fun r hr => ?_) (fun x hx hin => ?_) fun n hn => ?_
          · obtain ⟨hrax, hr11, -⟩ := h.scratch r (List.mem_append_left _ hr)
            exact ⟨fun hin => hothers r hr r hin rfl, hrax, hr11⟩
          · exact hothers' x hx x hin rfl
          · have hlt := h.inside (p, a) List.mem_cons_self n hn
            refine ⟨by omega, ?_⟩
            rintro ⟨x, hx, hcovers⟩
            exact hapart x hx n hn hcovers
        | cons c first =>
          obtain ⟨rfl, hpassed⟩ := List.cons.inj hsplit
          obtain rfl : passed = first ++ b :: rest := hpassed
          have hrealised' := hall first b rest q rfl (by simpa using hq)
          rw [htouch.rsp hrsp] at hrealised'
          -- The argument lies above everything that was written.
          refine hrealised'.congr_source fun k hk => htouch.memory _ fun hcovers => ?_
          have hlt := h.inside (p, a) List.mem_cons_self _ hcovers
          have hb := h.slots b (by simp)
          have hb' := le_alignUp b.argument.shape.size 8
          have hsum : slotsSize (first ++ b :: rest) =
              slotsSize first + (b.slot + slotsSize rest) :=
            slotsSize_append first (b :: rest)
          rw [BitVec.add_assoc, ← BitVec.ofNat_add, toNat_offset _ (by omega)] at hlt
          omega

/-- What stands between the arguments and the call. -/
def setup (convention : Convention) (plan : Plan) (passed : List Passed) : Code :=
  lower plan.area ++ placeArguments plan.stack plan.area plan.arguments passed
    ++ plan.result.hidden?.map (.lea · (Address.stack (plan.area + slotsSize passed)))
    ++ if convention = .systemV then [movImm (.register .rax .dword) plan.vectors] else []

/-- What stands behind the call. -/
def finish (plan : Plan) (passed : List Passed) (result : Option Shape) : Code :=
  storeSlots ((result.bind Shape.precision).getD .double)
    (Address.stack (plan.area + slotsSize passed)) plan.result.slots
    ++ raise (plan.area + slotsSize passed)

theorem callForeign_eq (convention : Convention) (plan : Plan) (passed : List Passed)
    (symbol : String) (result : Option Shape) :
    callForeign convention plan passed symbol result =
      setup convention plan passed ++ .call symbol :: finish plan passed result := by
  unfold callForeign setup finish
  cases plan.result <;> cases convention <;>
    simp [ResultPlacement.hidden?, ResultPlacement.slots, storeSlots]

/-- The state in which a C function is called. -/
structure Ready (convention : Convention) (plan : Plan) (passed : List Passed) (s t : State) :
    Prop where
  rsp : t.registers .rsp = displace (s.registers .rsp) (-plan.area)
  arguments : ∀ first a rest p, passed = first ++ a :: rest →
    plan.arguments[first.length]? = some p → Realised t plan.stack a.argument.shape s.memory
      (s.registers .rsp + BitVec.ofNat 64 (slotsSize rest)) p
  /-- The slots of the arguments, and all that lies above them, are left alone. -/
  memory : ∀ a, plan.area ≤ (a - t.registers .rsp).toNat → t.memory a = s.memory a
  hidden : ∀ r, plan.result = .hidden r →
    t.registers r = s.registers .rsp + BitVec.ofNat 64 (slotsSize passed)
  vectors : convention = .systemV →
    t.registers .rax = BitVec.ofNat 64 (plan.arguments.flatMap Placement.vectors).length

theorem displace_lowered (a : Word) (area n : Nat) :
    displace a (-area) + BitVec.ofNat 64 (area + n) = a + BitVec.ofNat 64 n := by
  rw [displace_add, ← displace_natCast]
  congr 1
  push_cast
  omega

theorem setup_ends {symbols : String → Word} {convention : Convention} {plan : Plan}
    (hscratch : ∀ r ∈ plan.result.hidden?, r ≠ .rax ∧ r ≠ .rsp)
    (hvectors : convention = .systemV → plan.vectors < 2 ^ 32) (above : Nat) (s : State) : ∃ t,
    straight symbols (plan.result.hidden?.map (.lea · (Address.stack above))
      ++ if convention = .systemV then [movImm (.register .rax .dword) plan.vectors] else []) s =
        some t ∧
    Touches plan.result.hidden? [] (fun _ => False) s t ∧
    (∀ r, plan.result = .hidden r →
      t.registers r = s.registers .rsp + BitVec.ofNat 64 above) ∧
    (convention = .systemV → t.registers .rax = BitVec.ofNat 64 plan.vectors) := by
  obtain ⟨s₁, hlea, htouch, hpointer⟩ : ∃ s₁,
      straight symbols (plan.result.hidden?.map (.lea · (Address.stack above))) s = some s₁ ∧
      Touches plan.result.hidden? [] (fun _ => False) s s₁ ∧
      ∀ r, plan.result = .hidden r → s₁.registers r = s.registers .rsp + BitVec.ofNat 64 above := by
    cases hresult : plan.result with
    | nothing => exact ⟨s, rfl, .refl s, by simp⟩
    | registers slots => exact ⟨s, rfl, .refl s, by simp⟩
    | hidden r =>
      refine ⟨s.set r (s.registers .rsp + BitVec.ofNat 64 above), ?_, ⟨?_, by simp, by simp⟩, ?_⟩
      · simp [ResultPlacement.hidden?, State.effect, displace_natCast]
      · intro r' hr' _ _
        have hne : r' ≠ r := by simpa [ResultPlacement.hidden?] using hr'
        simp [hne]
      · rintro r' ⟨rfl⟩
        simp
  split
  case isFalse hmicrosoft =>
    exact ⟨s₁, by rw [List.append_nil, hlea], htouch, hpointer, fun h => absurd h hmicrosoft⟩
  case isTrue hsystemV =>
    have hbound := hvectors hsystemV
    have hcount : s₁.effect symbols (movImm (.register .rax .dword) plan.vectors) =
        some (s₁.set .rax (BitVec.ofNat 64 plan.vectors)) := by
      have hvalue : (BitVec.ofInt 64 (plan.vectors : Int)).toNat % 256 ^ 4 = plan.vectors := by
        rw [BitVec.ofInt_natCast, BitVec.toNat_ofNat]
        omega
      change some (s₁.set .rax (BitVec.ofNat 64
        ((BitVec.ofInt 64 (plan.vectors : Int)).toNat % 256 ^ 4))) = _
      rw [hvalue]
    refine ⟨s₁.set .rax (BitVec.ofNat 64 plan.vectors), ?_, ?_, ?_, by simp⟩
    · rw [straight_append, hlea, bind_straight, straight_cons, hcount, bind_straight, straight_nil]
    · refine ⟨fun r hr hrax hr11 => ?_, htouch.vectors, htouch.memory⟩
      rw [State.registers_set, if_neg hrax]
      exact htouch.registers r hr hrax hr11
    · intro r hr
      rw [State.registers_set, if_neg (hscratch r (by rw [hr]; exact List.mem_cons_self)).1]
      exact hpointer r hr

theorem setup_runs {convention : Convention} {plan : Plan} {passed : List Passed}
    (hsound : plan.Sound (passed.map Passed.argument))
    (hregular : ∀ a ∈ passed, a.argument.shape.Regular)
    (hslots : ∀ a ∈ passed, alignUp a.argument.shape.size 8 ≤ a.slot)
    (hvectors : convention = .systemV → plan.vectors < 2 ^ 32 ∧
      plan.vectors = (plan.arguments.flatMap Placement.vectors).length)
    (hroom : plan.area + slotsSize passed ≤ 2 ^ 64) (symbols : String → Word) (s : State) : ∃ t,
    straight symbols (setup convention plan passed) s = some t ∧
      Ready convention plan passed s t := by
  have hlaid := laid_of_sound hsound hregular hslots
  obtain ⟨f, hlower⟩ := straight_lower symbols s plan.area
  obtain ⟨s₁, hs₁⟩ : ∃ s₁, s₁ = (s.withFlags f).set .rsp
    (displace (s.registers .rsp) (-plan.area)) := ⟨_, rfl⟩
  have hrsp₁ : s₁.registers .rsp = displace (s.registers .rsp) (-plan.area) := by simp [hs₁]
  have hmemory₁ : s₁.memory = s.memory := by simp [hs₁]
  obtain ⟨s₂, hplace, htouch, hall⟩ := @placeArguments_runs symbols _ _ _ _ hlaid hroom s₁
  have hscratch : ∀ r ∈ plan.result.hidden?, r ≠ .rax ∧ r ≠ .rsp := by
    intro r hr
    obtain ⟨hrax, -, hrsp, -⟩ := hsound.scratch r (List.mem_append_left _ hr)
    exact ⟨hrax, hrsp⟩
  obtain ⟨t, hends, htouch', hhidden, hcount⟩ := @setup_ends symbols _ _ hscratch
    (fun h => (hvectors h).1) (plan.area + slotsSize passed) s₂
  have hrsp₂ : s₂.registers .rsp = s₁.registers .rsp :=
    htouch.rsp fun hin => (hlaid.scratch _ hin).2.2 rfl
  have hrsp₃ : Register.rsp ∉ plan.result.hidden? := fun hin => (hscratch _ hin).2 rfl
  have hrsp : t.registers .rsp = displace (s.registers .rsp) (-plan.area) := by
    rw [htouch'.rsp hrsp₃, hrsp₂, hrsp₁]
  refine ⟨t, ?_, hrsp, ?_, ?_, ?_, ?_⟩
  · rw [setup, List.append_assoc, List.append_assoc, straight_append, hlower, bind_straight,
      ← hs₁, straight_append, hplace, bind_straight, hends]
  · intro first a rest p hsplit hp
    have hrealised := hall first a rest p hsplit hp
    rw [hmemory₁, hrsp₁, displace_lowered] at hrealised
    have hmem : (p, a) ∈ plan.arguments.zip passed := by
      refine List.mem_iff_getElem?.2 ⟨first.length, ?_⟩
      rw [List.getElem?_zip_eq_some]
      exact ⟨hp, by simp [hsplit]⟩
    have hpmem : p ∈ plan.arguments := (List.of_mem_zip hmem).1
    refine hrealised.kept htouch' hrsp₃ (fun r hr => ?_) (by simp) fun n hn => ?_
    · have hr' := List.mem_flatMap.2 ⟨p, hpmem, hr⟩
      obtain ⟨hrax, hr11, -⟩ := hlaid.scratch r hr'
      exact ⟨fun hin => (List.nodup_append.1 hsound.generals).2.2 r hin r hr' rfl, hrax, hr11⟩
    · have hlt := hlaid.inside _ hmem n hn
      exact ⟨by omega, not_false⟩
  · intro a ha
    rw [htouch'.memory a not_false, htouch.memory a ?_, hmemory₁]
    rintro ⟨x, hx, hn⟩
    have hlt := hlaid.inside x hx _ hn
    rw [hrsp₁, ← hrsp] at hlt
    omega
  · intro r hr
    rw [hhidden r hr, hrsp₂, hrsp₁, displace_lowered]
  · intro h
    rw [hcount h, (hvectors h).2]

theorem storeSlots_runs {symbols : String → Word} {precision : Precision} {size σ : Nat}
    (hprecision : min 8 size ≤ precision.width.bytes) (slots : List Slot)
    (hσ : σ + 8 * slots.length ≤ 2 ^ 64) (s : State) : ∃ m,
    straight symbols (storeSlots precision (Address.stack σ) slots) s = some (s.withMemory m) ∧
    (∀ j slot, slots[j]? = some slot →
      m.load (s.registers .rsp + BitVec.ofNat 64 (σ + 8 * j)) (part size j) =
        (s.slot slot).toNat % 256 ^ part size j) ∧
    ∀ a, ¬ (σ ≤ (a - s.registers .rsp).toNat ∧
      (a - s.registers .rsp).toNat < σ + 8 * slots.length) → m a = s.memory a := by
  induction slots generalizing s σ size with
  | nil => exact ⟨s.memory, rfl, by simp, fun _ _ => rfl⟩
  | cons slot rest ih =>
    rw [List.length_cons] at hσ
    -- What is stored first lies in the eight bytes before all others.
    obtain ⟨n, hn, hpart, hstore⟩ : ∃ n ≤ 8, min 8 size ≤ n ∧
        straight symbols (storeSlots precision (Address.stack σ) (slot :: rest)) s =
          straight symbols (storeSlots precision (Address.stack (σ + 8)) rest)
            (s.withMemory (s.memory.store (s.registers .rsp + BitVec.ofNat 64 σ) n
              (s.slot slot).toNat)) := by
      have hnext : (Address.stack σ).offset 8 = Address.stack (σ + 8) := rfl
      cases slot with
      | general r =>
        refine ⟨8, Nat.le_refl 8, Nat.min_le_left _ _, ?_⟩
        rw [storeSlots, straight_cons, State.effect_mov_memory, bind_straight, hnext,
          State.address_stack, displace_natCast]
        rfl
      | vector x =>
        refine ⟨precision.width.bytes, by cases precision <;> decide, hprecision, ?_⟩
        rw [storeSlots, straight_cons, hnext]
        simp only [State.effect, bind_straight, State.address_stack, displace_natCast]
        rfl
    obtain ⟨m, hrun, hall, hkept⟩ := ih (σ := σ + 8)
      (show min 8 (size - 8) ≤ precision.width.bytes by omega) (by omega)
        (s.withMemory (s.memory.store (s.registers .rsp + BitVec.ofNat 64 σ) n
        (s.slot slot).toNat))
    rw [State.registers_withMemory] at hall hkept
    refine ⟨m, ?_, ?_, ?_⟩
    · rw [hstore, hrun, State.withMemory_withMemory]
    · intro j other hj
      cases j with
      | zero =>
        obtain rfl : slot = other := by simpa using hj
        have hsame : m.load (s.registers .rsp + BitVec.ofNat 64 σ) (part size 0) =
            (s.memory.store (s.registers .rsp + BitVec.ofNat 64 σ) n (s.slot slot).toNat).load
              (s.registers .rsp + BitVec.ofNat 64 σ) (part size 0) := by
          refine Memory.load_congr fun k hk => ?_
          have hk8 : k < 8 := by simp only [part] at hk; omega
          refine hkept _ fun hin => ?_
          rw [BitVec.add_assoc, ← BitVec.ofNat_add, toNat_offset _ (by omega)] at hin
          omega
        have hpart' : part size 0 ≤ n := by simpa [part] using hpart
        rw [Nat.mul_zero, Nat.add_zero, hsame,
          Memory.load_store _ _ _ (by omega) hpart']
      | succ j =>
        have hsecond := hall j other (by simpa using hj)
        rw [show σ + 8 + 8 * j = σ + 8 * (j + 1) by omega] at hsecond
        rw [show part (size - 8) j = part size (j + 1) by simp only [part]; omega] at hsecond
        exact hsecond
    · intro a ha
      rw [List.length_cons] at ha
      rw [hkept a (by omega)]
      refine Memory.store_other ?_
      have hbound := (a - s.registers .rsp).isLt
      rw [toNat_add_sub]
      omega

/-- What is left of a call: the result in its slot, at the top of the stack. -/
structure Returned (plan : Plan) (passed : List Passed) (size : Nat) (s t : State) : Prop where
  rsp : t.registers .rsp = displace (s.registers .rsp) (plan.area + slotsSize passed : Nat)
  result : ∀ slots, plan.result = .registers slots → ∀ j slot, slots[j]? = some slot →
    t.memory.load (t.registers .rsp + BitVec.ofNat 64 (8 * j)) (part size j) =
      (s.slot slot).toNat % 256 ^ part size j
  memory : ∀ a, Codegen.slot size ≤ (a - t.registers .rsp).toNat → t.memory a = s.memory a

theorem finish_runs {plan : Plan} {passed : List Passed} {result : Option Shape} {size : Nat}
    (hslots : plan.result.slots ≠ [] → ∃ shape, result = some shape ∧ shape.size = size ∧
      0 < size ∧ plan.result.slots.length ≤ 2 ∧
      ∀ p, shape.precision = some p → shape.size = p.width.bytes)
    (hroom : plan.area + slotsSize passed + Codegen.slot size ≤ 2 ^ 64) (symbols : String → Word)
    (s : State) : ∃ t, straight symbols (finish plan passed result) s = some t ∧
      Returned plan passed size s t := by
  obtain ⟨m, hstore, hall, hkept⟩ : ∃ m,
      straight symbols (storeSlots ((result.bind Shape.precision).getD .double)
        (Address.stack (plan.area + slotsSize passed)) plan.result.slots) s =
        some (s.withMemory m) ∧
      (∀ j slot, plan.result.slots[j]? = some slot →
        m.load (s.registers .rsp + BitVec.ofNat 64 (plan.area + slotsSize passed + 8 * j))
          (part size j) = (s.slot slot).toNat % 256 ^ part size j) ∧
      ∀ a, ¬ (plan.area + slotsSize passed ≤ (a - s.registers .rsp).toNat ∧
        (a - s.registers .rsp).toNat < plan.area + slotsSize passed + Codegen.slot size) →
        m a = s.memory a := by
    by_cases hnil : plan.result.slots = []
    · rw [hnil]
      exact ⟨s.memory, rfl, by simp, fun _ _ => rfl⟩
    · obtain ⟨shape, rfl, rfl, hpositive, htwo, hprecision⟩ := hslots hnil
      have hslot : 16 ≤ Codegen.slot shape.size :=
        Nat.le_of_dvd (Nat.lt_of_lt_of_le hpositive (le_alignUp _ _)) (dvd_slot _)
      have hmin : min 8 shape.size ≤
          (((some shape).bind Shape.precision).getD .double).width.bytes := by
        rw [Option.bind_some]
        cases hp : shape.precision with
        | none => exact Nat.min_le_left _ _
        | some p =>
          rw [hprecision p hp]
          exact Nat.min_le_right _ _
      obtain ⟨m, hstore, hall, hkept⟩ := @storeSlots_runs symbols _ _
        (plan.area + slotsSize passed) hmin plan.result.slots (by omega) s
      exact ⟨m, hstore, hall, fun a ha => hkept a (by omega)⟩
  obtain ⟨f, hraise⟩ := straight_raise symbols (s.withMemory m) (plan.area + slotsSize passed)
  rw [State.registers_withMemory] at hraise
  have hrsp : (((s.withMemory m).withFlags f).set .rsp
      (displace (s.registers .rsp) (plan.area + slotsSize passed : Nat))).registers .rsp =
      displace (s.registers .rsp) (plan.area + slotsSize passed : Nat) := by
    simp
  refine ⟨_, ?_, hrsp, ?_, ?_⟩
  · rw [finish, straight_append, hstore, bind_straight, hraise]
  · intro slots hresult j slot hj
    rw [hrsp, displace_natCast, BitVec.add_assoc, ← BitVec.ofNat_add]
    exact hall j slot (by rw [hresult]; exact hj)
  · intro a ha
    rw [hrsp, displace_natCast, toNat_add_sub] at ha
    refine hkept a fun hin => ?_
    omega

theorem effect_storeFloat (symbols : String → Word) (s : State) (p : Precision) (a : Address)
    (x : Xmm) : s.effect symbols (.storeFloat p a x) = some (s.withMemory
      (s.memory.store (s.address symbols a) p.width.bytes (s.vectors x).toNat)) := (rfl)

theorem effect_convertFloat (symbols : String → Word) (s : State) (x y : Xmm) :
    s.effect symbols (.convertFloat .single x y) =
      some (s.setVector x (BitVec.ofNat 64 (widen ((s.vectors y).toNat % 2 ^ 32)))) := (rfl)

theorem promote_runs (symbols : String → Word) (s : State) : ∃ t,
    straight symbols promote s = some t ∧ t.registers = s.registers ∧
    t.memory.load (s.registers .rsp) 8 = widen (s.memory.load (s.registers .rsp) 4) % 2 ^ 64 ∧
    ∀ a, 8 ≤ (a - s.registers .rsp).toNat → t.memory a = s.memory a := by
  have hload := s.memory.load_lt (s.registers .rsp) 4
  obtain ⟨bits, hbits⟩ : ∃ bits, bits = s.memory.load (s.registers .rsp) 4 := ⟨_, rfl⟩
  have hrun : straight symbols promote s = some (((s.setVector ⟨0⟩ (BitVec.ofNat 64 bits)).setVector
      ⟨0⟩ (BitVec.ofNat 64 (widen bits))).withMemory (s.memory.store (s.registers .rsp) 8
        (BitVec.ofNat 64 (widen bits)).toNat)) := by
    have hlow : (BitVec.ofNat 64 bits).toNat % 2 ^ 32 = bits := by
      rw [BitVec.toNat_ofNat]
      omega
    have hconvert : (s.setVector ⟨0⟩ (BitVec.ofNat 64 bits)).effect symbols
        (.convertFloat .single ⟨0⟩ ⟨0⟩) = some ((s.setVector ⟨0⟩ (BitVec.ofNat 64 bits)).setVector
          ⟨0⟩ (BitVec.ofNat 64 (widen bits))) := by
      rw [effect_convertFloat, State.vectors_setVector, if_pos rfl, hlow]
    rw [promote, straight_cons, State.effect_loadFloat, bind_straight, straight_cons, top,
      State.address_stack, Nat.cast_zero, displace_zero, Precision.width, Width.bytes, ← hbits,
      hconvert, bind_straight, straight_cons, effect_storeFloat, bind_straight, straight_nil,
      State.address_stack, Nat.cast_zero, displace_zero]
    rfl
  refine ⟨_, hrun, rfl, ?_, fun a ha => Memory.store_other ha⟩
  rw [State.memory_withMemory, Memory.load_store _ _ _ (by omega) (Nat.le_refl 8),
    BitVec.toNat_ofNat, ← hbits]
  omega

section Calls

variable {env : Env} {D : Decls}

/-- Arguments of a C function in code, one pushed behind the other; the first `fixed` of them have
parameters. Others that are floats are promoted as soon as they are pushed. -/
inductive Pushed (env : Env) : Nat → List Expr → Code → List Passed → Prop
  | nil {fixed} : Pushed env fixed [] [] []
  | cons {fixed argument rest value values passed t l promoted} {s s' : Supply} :
      exprCode env argument s = .ok (value, s') → argument.ty = some t →
      env.layouts.layoutOf t = .ok l → promoted = (fixed == 0 && t.isPlain "float") →
      Pushed env (fixed - 1) rest values passed →
      Pushed env fixed (argument :: rest) (value ++ (if promoted then promote else []) ++ values)
        (⟨⟨if promoted then .double else .of t l, fixed == 0⟩, Codegen.slot l.size⟩ :: passed)

theorem Delivers.and {α : Type} {g : Gen α} {s : Supply} {P Q : α → Supply → Prop}
    (h : Delivers g s P) (h' : Delivers g s Q) : Delivers g s fun a s' => P a s' ∧ Q a s' := by
  refine h.imp_left fun ⟨a, s', hrun, hP⟩ => ?_
  rcases h' with ⟨b, s'', hrun', hQ⟩ | hover
  · cases hrun.symm.trans hrun'
    exact ⟨a, s', hrun, hP, hQ⟩
  · cases hrun.symm.trans hover

theorem foreignArgumentsCode_pushed (hE : env.Fits D) {arguments : List Expr} :
    ∀ {parameters : List Ty} {variadic : Bool}, Takes D parameters variadic arguments →
    ∀ (fixed : Nat) (s : Supply), Delivers (foreignArgumentsCode env fixed arguments) s
      fun r _ => Pushed env fixed arguments r.1 r.2 := by
  induction arguments with
  | nil =>
    intro parameters variadic _ fixed s
    rw [foreignArgumentsCode]
    exact .pure .nil
  | cons argument rest ih =>
    intro parameters variadic htakes fixed s
    obtain ⟨t, parameters', h, hrest⟩ := htakes.uncons
    obtain ⟨l, hl, hl', -⟩ := layoutOf_of_known (hE.known (h.known hE.sound))
    rw [foreignArgumentsCode]
    refine .lift (by rw [h.ty_eq]; rfl) (.bind (exprCode_delivers hE argument h s).run
      fun value s' hvalue => .lift hl (.bind (ih hrest (fixed - 1) s') fun r s'' hr => .pure ?_))
    exact .cons hvalue.1 h.ty_eq hl' rfl hr

theorem Pushed.regular (hgrown : env.layouts.Grown) {fixed : Nat} {arguments : List Expr}
    {code : Code} {passed : List Passed} (h : Pushed env fixed arguments code passed) :
    ∀ a ∈ passed, a.argument.shape.Regular ∧ alignUp a.argument.shape.size 8 ≤ a.slot := by
  induction h with
  | nil => simp
  | @cons fixed argument rest value values passed t l promoted s s' _ _ hl hpromoted _ ih =>
    have hlays := hgrown.lays hl
    intro a ha
    rcases List.mem_cons.1 ha with rfl | ha
    · have hregular := Convention.regular_of_layout hgrown hl
      cases promoted with
      | false =>
        refine ⟨hregular, ?_⟩
        change alignUp l.size 8 ≤ alignUp l.size 16
        simp [alignUp]
        omega
      | true =>
        have hsize : l.size = Precision.single.width.bytes := by
          refine hregular.precision .single ?_
          have hfloat : t.isPlain "float" := by simp_all
          have hne : t.isPlain "double" = false := by
            cases t <;> simp_all [Ty.isPlain]
          simp [Shape.of, Ty.precision?, hne, hfloat]
        refine ⟨Convention.regular_double, ?_⟩
        change alignUp 8 8 ≤ Codegen.slot l.size
        rw [hsize]
        decide
    · exact ih a ha

/-- A call of a C function. The arguments are moved to their places and the result is stored in its
slot, from any state in which the values have room. -/
def Marshals (env : Env) (mangled : String) (result : Ty) (arguments : List Expr) (code : Code) :
    Prop :=
  ∃ callee l pushed passed plan, env.foreignFunction mangled = .ok callee ∧
    env.layouts.layoutOf result = .ok l ∧
    Pushed env (callee.parameters.countP (·.ty?.isSome)) arguments pushed passed ∧
    env.platform.convention.plan? (passed.map Passed.argument)
      (if result.isVoid then none else some (.of result l)) = .ok plan ∧
    code = lower (Codegen.slot l.size) ++ pushed ++ (setup env.platform.convention plan passed ++
      .call callee.linkName :: finish plan passed
        (if result.isVoid then none else some (.of result l))) ∧
    LowersAt code (lower (Codegen.slot l.size) ++ pushed).length
      (Codegen.slot l.size + slotsSize passed) ∧
    plan.Sound (passed.map Passed.argument) ∧
    (plan.area + slotsSize passed + Codegen.slot l.size ≤ 2 ^ 64 → ∀ symbols s,
      (∃ t, straight symbols (setup env.platform.convention plan passed) s = some t ∧
        Ready env.platform.convention plan passed s t) ∧
      ∃ t, straight symbols (finish plan passed
          (if result.isVoid then none else some (.of result l))) s = some t ∧
        Returned plan passed l.size s t)

theorem callCode_marshals (hE : env.Fits D) (hgrown : env.layouts.Grown) {mangled : String}
    {result : Ty} {parameters : List Ty} {variadic foreign : Bool}
    (hdecl : D.declares ⟨mangled, .foreignFunction⟩ (.function result parameters variadic foreign))
    {arguments : List Expr} (htakes : Takes D parameters variadic arguments) (s : Supply) :
    Delivers (callCode env ⟨mangled, .foreignFunction⟩ result arguments) s fun code _ =>
      Marshals env mangled result arguments code := by
  obtain ⟨callee, _, _, _, hcallee, -, hlink⟩ := hE.foreign hdecl
  obtain ⟨l, hl, hl', -⟩ := layoutOf_of_known (hE.known (hE.sound.result hdecl))
  have hregular : ∀ shape, (if result.isVoid then none else some (Shape.of result l)) = some shape →
      shape.Regular ∧ shape.size = l.size ∧ shape.classes.length ≤ 2 := by
    intro shape hshape
    split at hshape
    · cases hshape
    · cases hshape
      refine ⟨Convention.regular_of_layout hgrown hl', rfl, ?_⟩
      change l.classes.length ≤ 2
      rcases (hgrown.lays hl').classes with ⟨-, hclasses⟩ | ⟨hsize, hlength, -⟩
      · rw [hclasses]
        decide
      · omega
  unfold callCode callWith
  refine .lift hcallee (.lift hl (.bind ((foreignArgumentsCode_delivers hE arguments htakes _ s).and
    (foreignArgumentsCode_pushed hE htakes _ s)) fun r s' hr => ?_))
  obtain ⟨pushed, passed⟩ := r
  obtain ⟨⟨haligned, hpushes⟩, hpushed⟩ := hr
  obtain ⟨plan, hchecked, hfair⟩ := Convention.plan_fair env.platform.convention
    (passed.map Passed.argument) fun shape hshape => (hregular shape hshape).2.2
  dsimp only
  by_cases hfits : plan.fits
  case neg =>
    rw [hchecked, Convention.Plan.checked, if_neg hfits]
    exact .overflow
  have hplan := hchecked.trans (Convention.checked_eq_ok.2 ⟨rfl, hfits⟩)
  have harguments : ∀ a ∈ passed.map Passed.argument, a.shape.Regular := by
    intro a ha
    obtain ⟨x, hx, rfl⟩ := List.mem_map.1 ha
    exact (hpushed.regular hgrown x hx).1
  have hsound := Convention.plan_sound harguments hplan
  rw [hplan]
  refine .pure ⟨callee, l, pushed, passed, plan, hcallee, hl', hpushed, hplan, ?_, ?_, hsound, ?_⟩
  · rw [callForeign_eq]
  · have hbelow : Pushes s.labels s'.labels (lower (Codegen.slot l.size) ++ pushed)
        (Codegen.slot l.size + slotsSize passed) := by
      intro C a ha
      rw [← Spot.lower_lower]
      exact .append (.lower _ _) (hpushes C _ (ha.lower (dvd_slot l.size)))
    refine lowersAt_of_pieces hbelow fun a ha =>
      (?_ : Piece _ s'.labels s'.labels _ _ (a.lower (Codegen.slot l.size)))
    rw [← Spot.lower_lower]
    exact callForeign_piece _ hfair haligned hlink _ (ha.lower (dvd_slot l.size))
  · intro hroom symbols s
    refine ⟨setup_runs hsound (fun a ha => (hpushed.regular hgrown a ha).1)
      (fun a ha => (hpushed.regular hgrown a ha).2) (fun hsystemV => ?_) (by omega) symbols s,
      finish_runs (fun hne => ?_) hroom symbols s⟩
    · rw [hsystemV] at hplan
      have hvectors := SystemV.vectors_le harguments hplan
      obtain ⟨placed, hplaced, rfl, -⟩ := SystemV.plan?_eq_ok hplan
      exact ⟨by omega, (SystemV.plan_sound harguments hplaced).2⟩
    · obtain ⟨shape, hshape, hpositive, -, htwo⟩ :=
        slots_of_plan hplan (fun shape hshape => (hregular shape hshape).1) hne
      obtain ⟨hshapes, hsize, -⟩ := hregular shape hshape
      exact ⟨shape, hshape, hsize, hsize ▸ hpositive, htwo, hshapes.precision⟩

end Calls

end RegionCompiler.Codegen

namespace RegionCompiler

open Machine Codegen Typing

section Accepted

variable {isFile : String → Bool} {platform : Platform} {path text : String} {layouts : Registry}
  {p : Program} {out : Codegen.Output}

/-- Calls of C functions do what their plans say. Every call of an accepted program moves its
arguments to their places without spoiling any of them, and stores what comes back in the slot that
was kept for it. Floats without a parameter are widened in their slots before. -/
theorem foreign_calls_marshal (h : Accepted isFile platform path text layouts p out) :
    (∀ symbols s, ∃ t, straight symbols promote s = some t ∧ t.registers = s.registers ∧
      t.memory.load (s.registers .rsp) 8 = widen (s.memory.load (s.registers .rsp) 4) % 2 ^ 64 ∧
      ∀ a, 8 ≤ (a - s.registers .rsp).toNat → t.memory a = s.memory a) ∧
    ∀ r ∈ out.routines, ∀ (st : Stmt) (depth : Nat) (inLoop : Bool),
      st.Occurs depth inLoop r.function.body.statements (bodyDepth r.function) false →
      ∀ (head : Head) (accessors : List Accessor) (g : Codegen.Env → Gen Code),
        st.Refers head accessors g → ∀ (node : Node) (arguments : List Expr),
        .call node arguments ∈ accessors → ∀ mangled : String,
        head.binding = some ⟨mangled, .foreignFunction⟩ → ∀ s : Supply,
        Gives (g (envOf platform layouts p out.routines r)) s fun code _ =>
          Starts (fun code => ∃ result, node.ty = some result ∧
            Marshals (envOf platform layouts p out.routines r) mangled result arguments code)
            code := by
  refine ⟨promote_runs, ?_⟩
  intro r hr st depth inLoop hocc head accessors g hrefers node arguments hcall mangled hbinding s
  obtain ⟨f, -, -, hE, hbody⟩ := h.source hr
  refine (refers_starts hE (StmtsOk.occurs hocc hbody).1 hrefers hcall ?_ s).gives
    (h.refers_counts hr hocc hrefers s)
  intro binding result parameters variadic foreign hbinding' hty hdecl htakes s
  rw [hbinding] at hbinding'
  cases hbinding'
  exact (callCode_marshals hE h.grown hdecl htakes s).mono fun code _ hcode => ⟨result, hty, hcode⟩

/-- A variadic call with arguments of each kind. -/
def printingText : String :=
  "cfn printf(byte@ f, *) i32 fn main() i32 { ret printf(null, 5, 2 -> float) }"

theorem printingText_passes :
    passes (fun _ => false) (Compilation.baseDirectory "main.bz") "main.bz"
      printingText (fun p _ =>
        p.functions.any fun f => f.body.statements.any fun st =>
          st.returnedCall = some (⟨"printf", .foreignFunction⟩, 3)) = true := by
  have htext : printingText.toList = _ := String.toList_ofList
  rw [passes, Parse.source, Token.lex, htext]
  decide +kernel

theorem foreign_calls_marshal_printf :
    (∃ layouts p out, Accepted (fun _ => false) .linux "main.bz" printingText layouts p out ∧
      ∃ r ∈ out.routines, ∃ e, ∀ s, Gives (exprCode (envOf .linux layouts p out.routines r) e) s
        fun code _ => Starts (fun code => ∃ result arguments, arguments.length = 3 ∧
          Marshals (envOf .linux layouts p out.routines r) "printf" result arguments code) code) ∧
    ∃ layouts p out, Accepted (fun _ => false) .windows "main.bz" printingText layouts p out ∧
      ∃ r ∈ out.routines, ∃ e, ∀ s, Gives (exprCode (envOf .windows layouts p out.routines r) e) s
        fun code _ => Starts (fun code => ∃ result arguments, arguments.length = 3 ∧
          Marshals (envOf .windows layouts p out.routines r) "printf" result arguments code)
          code := by
  have hall : ∀ platform, platform = .linux ∨ platform = .windows → ∃ layouts p out,
      Accepted (fun _ => false) platform "main.bz" printingText layouts p out ∧
      ∃ r ∈ out.routines, ∃ e, ∀ s, Gives (exprCode (envOf platform layouts p out.routines r) e) s
        fun code _ => Starts (fun code => ∃ result arguments, arguments.length = 3 ∧
          Marshals (envOf platform layouts p out.routines r) "printf" result arguments code)
          code := by
    intro platform hplatform
    obtain ⟨_, _, out, h, hcall⟩ := accepted_of_passes printingText_passes hplatform
    obtain ⟨f, hf, hcall⟩ := List.any_eq_true.1 hcall
    obtain ⟨st, hst, hcall⟩ := List.any_eq_true.1 hcall
    obtain ⟨span, node, head, call, arguments, rfl, hbinding, hlength⟩ :=
      Stmt.eq_of_returnedCall (by simpa using hcall)
    obtain ⟨r, hr, hframes⟩ := exists_of_forall₂ h.generates.frames hf
    have hmem : Stmt.return_ span (some (Expr.variable node head [.call call arguments])) ∈
        r.function.body.statements := by
      rw [hframes.function]
      exact hst
    refine ⟨_, _, out, h, r, hr, .variable node head [.call call arguments], fun s => ?_⟩
    refine ((foreign_calls_marshal h).2 r hr _ _ _ (.here hmem) head _ _
      (.value (by simp [Stmt.expressions]) .here) call arguments (by simp) "printf" hbinding
      s).mono ?_
    rintro code s' ⟨first, rest, rfl, result, -, hmarshals⟩
    exact ⟨first, rest, rfl, result, arguments, hlength, hmarshals⟩
  exact ⟨hall _ (.inl rfl), hall _ (.inr rfl)⟩

end Accepted

end RegionCompiler
