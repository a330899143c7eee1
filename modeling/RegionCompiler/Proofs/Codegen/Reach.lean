import RegionCompiler.Proofs.Codegen.Contents
import RegionCompiler.Proofs.Codegen.Names
import RegionCompiler.Proofs.Codegen.Passing
import RegionCompiler.Proofs.Machine.Reach

/-! How far the numbers in generated code reach. Displacements and immediate operands are sums of
the sizes of a program, so limits on its values, frames, literals and calls of C functions are
limits on all of them. -/
namespace RegionCompiler.Convention

/-- What the area for arguments takes, whether it can be counted or not. -/
def area (c : Convention) (arguments : List ForeignArgument) (result : Option Shape) : Nat :=
  match c with
  | .systemV => (SystemV.placeResult? result).elim 0 fun placed =>
    (SystemV.plan arguments placed).area
  | .microsoft => (Microsoft.plan arguments result).area

theorem plan?_area {c : Convention} {arguments : List ForeignArgument} {result : Option Shape}
    {plan : Plan} (h : c.plan? arguments result = .ok plan) :
    c.area arguments result = plan.area := by
  cases c with
  | systemV =>
    obtain ⟨placed, hplaced, rfl, -⟩ := SystemV.plan?_eq_ok h
    simp [area, hplaced]
  | microsoft =>
    obtain ⟨rfl, -⟩ := checked_eq_ok.1 h
    rfl

end RegionCompiler.Convention

namespace RegionCompiler.Codegen

open Machine Machine.Instr Typing

section Places

variable {R : Reach} {i : Instr} {a b : Address} {size : Nat}

/-- All bytes from an address on are in reach. -/
def Spans (R : Reach) (a : Address) (size : Nat) : Prop := ∀ k < size, (a.offset k).Within R

theorem spans_stack {place : Nat} (h : ∀ k < size, place + k < R.word) :
    Spans R (Address.stack place) size := by
  intro k hk
  have hplace : (Address.stack place).offset k = Address.stack (place + k) := by
    simp [Address.offset, Address.stack, Address.at_]
  rw [hplace, Address.within_stack]
  exact h k hk

theorem Spans.mono (h : Spans R a size) {n : Nat} (hle : n ≤ size) : Spans R a n :=
  fun k hk => h k (by omega)

theorem Spans.offset {k n : Nat} (h : Spans R a size) (hle : k + n ≤ size) :
    Spans R (a.offset k) n := by
  intro j hj
  rw [Address.offset_offset]
  exact h (k + j) (by omega)

theorem Spans.start (h : Spans R a size) (hsize : 0 < size) : a.Within R := by
  simpa using h 0 hsize

theorem copy_within (ha : Spans R a size) (hb : Spans R b size) (h : i ∈ copy a b size) :
    i.Within R := by
  obtain ⟨offset, width, hoffset, rfl | rfl⟩ := mem_copy h
  · simpa using hb offset hoffset
  · simpa using ha offset hoffset

theorem loadSized_within (r : Register) (h : a.Within R) (size : Nat) (signed : Bool) :
    (loadSized r a size signed).Within R := by
  unfold loadSized
  split
  all_goals first
    | exact within_load.2 h
    | exact h

theorem lower_within {n : Nat} (hn : n < R.word) (h : i ∈ lower n) : i.Within R := by
  rw [mem_lower h]
  exact ⟨trivial, Reach.holds_nat.2 hn⟩

theorem raise_within {n : Nat} (hn : n < R.word) (h : i ∈ raise n) : i.Within R := by
  rw [mem_raise h]
  exact ⟨trivial, Reach.holds_nat.2 hn⟩

end Places

section Plans

open Convention

/-- What a plan gives to one argument or result at most. -/
structure Slight (plan : Plan) : Prop where
  vectors : plan.vectors ≤ 8
  arguments : ∀ slots, .registers slots ∈ plan.arguments → slots.length ≤ 14
  references : ∀ offset pointer, .reference offset pointer ∈ plan.arguments → offset ≤ plan.copies
  result : ∀ slots, plan.result = .registers slots → slots.length ≤ 4

theorem assign_length_le {generals : List Register} {vectors : List Xmm}
    {classes : List EightbyteClass} {slots : List Convention.Slot}
    (h : SystemV.assign generals vectors classes = some slots) :
    slots.length ≤ generals.length + vectors.length ∧ classes.count .sse ≤ vectors.length := by
  obtain ⟨hlength, hvectors, hgenerals, htaken⟩ := SystemV.assign_takes h
  have hsplit : slots.length =
      (slots.flatMap Slot.generals).length + (slots.flatMap Slot.vectors).length := by
    clear h hlength hvectors hgenerals htaken
    induction slots with
    | nil => rfl
    | cons s rest ih =>
      cases s <;> simp [Slot.generals, Slot.vectors, ih] <;> omega
  have hfirst := congrArg List.length hgenerals
  have hsecond := congrArg List.length htaken
  rw [List.length_append] at hfirst hsecond
  omega

namespace SystemV

theorem length_free (u : SystemV.Used) :
    (SystemV.freeGenerals u).length ≤ 6 ∧ (SystemV.freeVectors u).length = 8 - u.vector := by
  simp [SystemV.freeGenerals, SystemV.freeVectors, SystemV.argumentRegisters, SystemV.vectorCount]

theorem placeArgument_slight {u : SystemV.Used} (hu : u.vector ≤ 8) (a : ForeignArgument) :
    (SystemV.placeArgument u a).2.vector ≤ 8 ∧
    (∀ slots, (SystemV.placeArgument u a).1 = .registers slots → slots.length ≤ 14) ∧
    ∀ offset pointer, (SystemV.placeArgument u a).1 ≠ .reference offset pointer := by
  obtain ⟨hgenerals, hvectors⟩ := length_free u
  unfold SystemV.placeArgument
  dsimp only
  split
  · simpa using hu
  · split
    · simpa using hu
    · rename_i slots hslots
      obtain ⟨hlength, hcount⟩ := assign_length_le hslots
      refine ⟨by dsimp only; omega, fun slots' heq => ?_, by simp⟩
      cases heq
      omega

theorem placeArguments_slight {u : SystemV.Used} (hu : u.vector ≤ 8)
    (arguments : List ForeignArgument) :
    (SystemV.placeArguments u arguments).2.vector ≤ 8 ∧
    (∀ slots, .registers slots ∈ (SystemV.placeArguments u arguments).1 → slots.length ≤ 14) ∧
    ∀ offset pointer, .reference offset pointer ∉ (SystemV.placeArguments u arguments).1 := by
  induction arguments generalizing u with
  | nil => simpa [SystemV.placeArguments] using hu
  | cons a rest ih =>
    obtain ⟨hvector, hslots, hreference⟩ := placeArgument_slight hu a
    obtain ⟨hvectors, hrest, hreferences⟩ := ih hvector
    refine ⟨hvectors, fun slots hmem => ?_, fun offset pointer hmem => ?_⟩
    · rcases List.mem_cons.1 hmem with heq | hmem
      · exact hslots slots heq.symm
      · exact hrest slots hmem
    · rcases List.mem_cons.1 hmem with heq | hmem
      · exact hreference offset pointer heq.symm
      · exact hreferences offset pointer hmem

end SystemV

theorem microsoft_slight {position copies : Nat} {arguments : List ForeignArgument} :
    (∀ slots, .registers slots ∈ Microsoft.placeArguments position copies arguments →
      slots.length ≤ 14) ∧
    ∀ offset pointer, .reference offset pointer ∈ Microsoft.placeArguments position
      copies arguments →
      offset ≤ copies + Microsoft.copiesSize arguments := by
  induction arguments generalizing position copies with
  | nil => simp [Microsoft.placeArguments]
  | cons a rest ih =>
    obtain ⟨hrest, hreferences⟩ := @ih (position + 1) (copies + Microsoft.copySize a)
    have hfirst :
        (∀ slots, Microsoft.placeArgument position copies a = .registers slots →
          slots.length ≤ 14) ∧
        ∀ offset pointer, Microsoft.placeArgument position copies a = .reference offset pointer →
          offset ≤ copies := by
      unfold Microsoft.placeArgument
      split
      all_goals split
      all_goals first | split | skip
      all_goals simp
    constructor
    · intro slots hmem
      rcases List.mem_cons.1 hmem with heq | hmem
      · exact hfirst.1 slots heq.symm
      · exact hrest slots hmem
    · intro offset pointer hmem
      rw [Microsoft.copiesSize]
      rcases List.mem_cons.1 hmem with heq | hmem
      · have := hfirst.2 offset pointer heq.symm
        omega
      · have := hreferences offset pointer hmem
        omega

theorem plan_slight {c : Convention} {arguments : List ForeignArgument} {result : Option Shape}
    {plan : Plan} (hplan : c.plan? arguments result = .ok plan) : Slight plan := by
  cases c with
  | systemV =>
    obtain ⟨placed, hplaced, rfl, -⟩ := SystemV.plan?_eq_ok hplan
    refine ⟨(SystemV.placeArguments_slight (by simp) _).1,
      (SystemV.placeArguments_slight (by simp) _).2.1, fun offset pointer hmem => ?_, ?_⟩
    · exact absurd hmem ((SystemV.placeArguments_slight (by simp) _).2.2 offset pointer)
    · rintro slots rfl
      cases result with
      | none => cases hplaced
      | some s =>
        simp only [SystemV.placeResult?] at hplaced
        split at hplaced
        · cases hplaced
        · split at hplaced
          · cases hplaced
          · obtain ⟨slots', hslots, heq⟩ := Option.map_eq_some_iff.1 hplaced
            cases heq
            exact (assign_length_le hslots).1
  | microsoft =>
    obtain ⟨rfl, -⟩ := checked_eq_ok.1 hplan
    refine ⟨by simp [Microsoft.plan], microsoft_slight.1, fun offset pointer hmem => ?_, ?_⟩
    · have hle := microsoft_slight.2 offset pointer hmem
      rwa [Nat.zero_add] at hle
    · intro slots hslots
      simp only [Microsoft.plan] at hslots
      cases result with
      | none => cases hslots
      | some s =>
        simp only [Microsoft.placeResult] at hslots
        split at hslots
        · cases hslots
        · split at hslots
          · cases hslots
          · split at hslots <;> cases hslots <;> simp

end Plans

section Foreign

variable {R : Reach} {i : Instr} {a : Address} {copies area : Nat}

theorem fillSlots_within (shape : Convention.Shape) (single : Bool)
    {slots : List Convention.Slot} (ha : Spans R a (8 * slots.length))
    (h : i ∈ fillSlots shape single a slots) : i.Within R := by
  induction slots generalizing a with
  | nil => cases h
  | cons s rest ih =>
    have hstart := ha.start (by simp)
    rcases List.mem_cons.1 h with rfl | h
    · cases s with
      | general r =>
        unfold fillSlot
        dsimp only
        split
        · exact loadSized_within r hstart _ _
        · simpa using hstart
      | vector x => simpa [fillSlot] using hstart
    · exact ih (ha.offset (by simp; omega)) h

theorem storeSlots_within {precision : Precision} {slots : List Convention.Slot}
    (ha : Spans R a (8 * slots.length)) (h : i ∈ storeSlots precision a slots) : i.Within R := by
  induction slots generalizing a with
  | nil => cases h
  | cons s rest ih =>
    have hstart := ha.start (by simp)
    have hrest : Spans R (a.offset 8) (8 * rest.length) := ha.offset (by simp; omega)
    cases s with
    | general r =>
      rcases List.mem_cons.1 h with rfl | h
      · simpa using hstart
      · exact ih hrest h
    | vector x =>
      rcases List.mem_cons.1 h with rfl | h
      · simpa using hstart
      · exact ih hrest h

theorem placeArgument_within {shape : Convention.Shape} {p : Convention.Placement}
    (harea : area < R.word) (hsource : Spans R a (shape.size + 112))
    (hslots : ∀ slots, p = .registers slots → slots.length ≤ 14)
    (hreference : ∀ offset pointer, p = .reference offset pointer → copies + offset ≤ area)
    (hfits : p.Fits copies shape.size) (hcopies : copies ≤ area)
    (hcovers : ∀ n, p.Covers copies shape.size n → n < area)
    (h : i ∈ placeArgument copies shape a p) : i.Within R := by
  have hstart := hsource.start (by omega)
  have hstack : ∀ {n : Nat}, n ≤ area → n < R.word := by omega
  cases p with
  | registers slots =>
    have := hslots slots rfl
    exact fillSlots_within shape _ (hsource.mono (by omega)) h
  | both x r =>
    simp only [placeArgument, List.mem_cons, List.not_mem_nil, or_false] at h
    rcases h with rfl | rfl
    · simpa using hstart
    · simpa using hstart
  | stack offset =>
    have hround : alignUp shape.size 8 ≤ shape.size + 112 :=
      Nat.le_trans (Nat.le_of_lt (alignUp_lt (by decide))) (by omega)
    refine copy_within (spans_stack fun k hk => ?_) (hsource.mono hround) h
    exact (hcovers (offset + k) ⟨by omega, by omega⟩).trans harea
  | reference offset pointer =>
    have hthere := hreference offset pointer rfl
    rcases List.mem_append.1 h with h | h
    · refine copy_within (spans_stack fun k hk => ?_) (hsource.mono (by omega)) h
      refine (hcovers (copies + offset + k) ?_).trans harea
      cases pointer with
      | register r => exact ⟨by omega, by omega⟩
      | stack word => exact .inl ⟨by omega, by omega⟩
    · cases pointer with
      | register r =>
        rw [List.mem_singleton.1 h]
        simpa using hstack hthere
      | stack word =>
        have hword : word + 8 ≤ copies := hfits
        simp only [List.mem_cons, List.not_mem_nil, or_false] at h
        rcases h with rfl | rfl
        · simpa using hstack hthere
        · simpa using hstack (n := word) (by omega)

theorem placeArguments_within {passed : List Passed} {placements : List Convention.Placement}
    (hreach : area + slotsSize passed + 128 ≤ R.word)
    (hsizes : ∀ b ∈ passed, b.argument.shape.size ≤ b.slot + 8)
    (hslots : ∀ slots, .registers slots ∈ placements → slots.length ≤ 14)
    (hreference : ∀ offset pointer, .reference offset pointer ∈ placements → copies + offset ≤ area)
    (hcopies : copies ≤ area)
    (hzip : ∀ x ∈ placements.zip (passed.map Passed.argument),
      x.1.Fits copies x.2.shape.size ∧ ∀ n, x.1.Covers copies x.2.shape.size n → n < area)
    (h : i ∈ placeArguments copies area placements passed) : i.Within R := by
  induction placements generalizing passed with
  | nil => cases h
  | cons p placements ih =>
    cases passed with
    | nil => cases h
    | cons b rest =>
      rw [slotsSize] at hreach
      rcases List.mem_append.1 h with h | h
      · have hsize := hsizes b (by simp)
        obtain ⟨hfits, hcovers⟩ : p.Fits copies b.argument.shape.size ∧
            ∀ n, p.Covers copies b.argument.shape.size n → n < area :=
          hzip (p, b.argument) (by simp)
        refine placeArgument_within (by omega) (spans_stack fun k hk => by omega)
          (fun slots heq => ?_)
          (fun offset pointer heq => ?_) hfits hcopies hcovers h
        · exact hslots slots (by simp [heq])
        · exact hreference offset pointer (by simp [heq])
      · exact ih (by omega) (fun c hc => hsizes c (by simp [hc]))
          (fun slots hmem => hslots slots (by simp [hmem]))
          (fun offset pointer hmem => hreference offset pointer (by simp [hmem]))
          (fun x hx => hzip x (by simp [hx])) h

theorem callForeign_within {convention : Convention} {plan : Convention.Plan}
    {passed : List Passed} {symbol : String} {result : Option Convention.Shape}
    (hplan : convention.plan? (passed.map Passed.argument) result = .ok plan)
    (hregular : ∀ b ∈ passed, b.argument.shape.Regular ∧ b.argument.shape.size ≤ b.slot + 8)
    (hreach : plan.area + slotsSize passed + 128 ≤ R.word)
    (h : i ∈ callForeign convention plan passed symbol result) : i.Within R := by
  have hslight := plan_slight hplan
  have hsound := Convention.plan_sound (by simpa using fun b hb => (hregular b hb).1) hplan
  have hcopies : plan.stack ≤ plan.area := Nat.le_add_right _ _
  unfold callForeign at h
  simp only [List.mem_append, List.mem_singleton] at h
  rcases h with (((((h | h) | h) | h) | h) | h) | h
  · exact lower_within (by omega) h
  · refine placeArguments_within hreach (fun b hb => (hregular b hb).2) hslight.arguments
      (fun offset pointer hmem => ?_) hcopies (fun x hx => ⟨hsound.fits x hx, hsound.inside x hx⟩) h
    have hle := hslight.references offset pointer hmem
    rw [Convention.Plan.area]
    omega
  · split at h
    · rw [List.mem_singleton.1 h, within_lea, Address.within_stack]
      omega
    · cases h
  · cases convention with
    | systemV =>
      have hvectors := hslight.vectors
      rw [List.mem_singleton.1 h]
      exact ⟨trivial, (Reach.holds_small (by omega)).1⟩
    | microsoft => cases h
  · rw [h]
    trivial
  · split at h
    · rename_i slots hslots
      have hfew := hslight.result slots hslots
      exact storeSlots_within (spans_stack fun k hk => by omega) h
    · cases h
  · exact raise_within (by omega) h

end Foreign

section Measures

/-- What a call of a C function takes for its arguments: the slots that they are evaluated into, and
the area that they are moved to. -/
def passingSize (convention : Convention) (passed : List Passed)
    (result : Option Convention.Shape) : Nat :=
  convention.area (passed.map Passed.argument) result + slotsSize passed

/-- What is passed to a C function whose first `fixed` arguments have parameters. -/
def passed? (layouts : Registry) : (fixed : Nat) → List Expr → Option (List Passed)
  | _, [] => some []
  | fixed, e :: rest => do
    let t ← e.ty
    let l ← (layouts.layoutOf t).toOption
    let passed ← passed? layouts (fixed - 1) rest
    return ⟨⟨if fixed == 0 && t.isPlain "float" then .double else .of t l, fixed == 0⟩,
      slot l.size⟩ :: passed

/-- What a call takes if it is one of a C function. -/
def callSize? (convention : Convention) (layouts : Registry) (foreign : List ForeignFunction)
    (head : Head) (node : Node) (arguments : List Expr) : Option Nat :=
  match head.binding with
  | some ⟨mangled, .foreignFunction⟩ => do
    let f ← foreign.find? (·.name.value == mangled)
    let t ← node.ty
    let l ← (layouts.layoutOf t).toOption
    let passed ← passed? layouts (f.parameters.countP (·.ty?.isSome)) arguments
    return passingSize convention passed (if t.isVoid then none else some (.of t l))
  | _ => none

/-- How large the numbers are that an expression brings by itself: the length of a literal, the
places of the elements of an array, and what a call of a C function takes, with room for the parts
of its result. -/
def measure (convention : Convention) (layouts : Registry) (foreign : List ForeignFunction) :
    Expr → Nat
  | .string _ value => value.utf8ByteSize + 1
  | .array node elements =>
    let size := match node.ty with
      | some (.array t _) => (layouts.sizeOf? t).getD 0
      | _ => 0
    max (elements.length + 1) (elements.length * size)
  | .variable _ head (.call node arguments :: _) =>
    (callSize? convention layouts foreign head node arguments).elim 0 (· + 128)
  | _ => 0

/-- A function all of whose sizes are in reach. -/
structure Env.Within (env : Env) (R : Reach) (D : Decls) : Prop where
  sizes : ∀ {n}, env.IsSize n → n ≤ R.value
  parts : ∀ {offset n}, env.IsPart offset n → offset + n ≤ R.arguments
  members : ∀ {t l m}, env.layoutOf t = .ok l → m ∈ l.members → m.offset ≤ R.value
  homes : ∀ {mangled a}, env.variableAddress mangled = .ok a → a.Within R
  values : ∀ {mangled t a n}, D.declares ⟨mangled, .local_⟩ t →
    env.variableAddress mangled = .ok a → env.sizeOf t = .ok n → Spans R a n
  locals : env.current.frame.locals < R.word
  result : 16 + env.current.frame.arguments + env.current.frame.resultSlot < R.frame
  arguments : ∀ r ∈ env.routines, r.frame.arguments ≤ R.arguments
  results : ∀ r ∈ env.routines, r.frame.result ≤ R.value
  grown : env.layouts.Grown

end Measures

section Code

variable {R : Reach} {env : Env} {D : Decls} {Q : Expr → Prop} {outside : Label → Prop}
  {standing : List Label} {s s' : Supply} {code : Code}

theorem slot_le {n : Nat} (h : n ≤ R.value) : slot n ≤ R.value := by
  have haligned := R.aligned
  simp only [slot, alignUp]
  split <;> omega

theorem Env.Within.kept (hE : env.Within R D) {kept : Nat} (h : env.IsKept kept) :
    kept ≤ R.value := by
  rcases h with rfl | ⟨size, hsize, rfl⟩
  · exact Nat.zero_le _
  · exact slot_le (hE.sizes hsize)

theorem Env.Within.amount (hE : env.Within R D) {n : Nat} (h : env.IsAmount n) : n < R.word := by
  have hvalues := R.values
  have harguments := R.arguments_lt
  cases h with
  | slot hn =>
    have := slot_le (hE.sizes hn)
    omega
  | assigned hn hkept =>
    have := slot_le (hE.sizes hn)
    have := hE.kept hkept
    omega
  | locals => exact hE.locals
  | result hr =>
    have : alignUp _ 16 ≤ R.value := slot_le (hE.results _ hr)
    rw [Frame.resultSlot]
    omega
  | arguments hr =>
    have := hE.arguments _ hr
    omega

/-- The bytes of a result are in reach of the base pointer, and so is their start. -/
theorem Env.Within.result_within (hE : env.Within R D) {k : Nat}
    (hk : k ≤ env.current.frame.result) :
    ((Address.frame env.current.frame.resultAt).offset k).Within R := by
  have hresult := hE.result
  have hslot : env.current.frame.result ≤ env.current.frame.resultSlot := le_alignUp _ 16
  have hoffset : (Address.frame env.current.frame.resultAt).offset k =
      Address.frame (env.current.frame.resultAt + k) := rfl
  rw [hoffset, Frame.resultAt]
  exact Address.within_frame (by omega) (by omega)

theorem Env.Within.spans (hE : env.Within R D)
    (hQ : ∀ e, Q e → measure env.platform.convention env.layouts env.foreign e ≤ R.word)
    {a : Address} {n : Nat} (h : env.Holds D Q a n) : Spans R a n := by
  have hvalues := R.values
  have hparts := R.parts
  cases h with
  | @pointed r n hn =>
    intro k hk
    have hplace : (Address.at_ r 0).offset k = Address.at_ r k := by
      simp [Address.offset, Address.at_]
    rw [hplace]
    exact Address.within_at (Nat.lt_of_lt_of_le hk (hE.sizes hn))
  | below hpart =>
    have hslot := slot_le (hE.sizes hpart.size)
    have := hE.parts hpart
    exact spans_stack fun k hk => by omega
  | @element span elements index t length n hq hn hindex =>
    obtain ⟨l, hl, rfl⟩ := Env.sizeOf_eq hn
    have hsize : env.layouts.sizeOf? t = some l.size := by
      simp [Registry.sizeOf?, Env.layouts_layoutOf hl]
    have hall : elements.length * l.size ≤ R.word := by
      have hmeasure := (Nat.le_max_right _ _).trans (hQ _ hq)
      simpa [hsize] using hmeasure
    have hmul : (index + 1) * l.size ≤ elements.length * l.size :=
      Nat.mul_le_mul_right _ hindex
    rw [Nat.succ_mul] at hmul
    intro k hk
    have hplace : (Address.at_ .r10 (index * l.size : Nat)).offset k =
        Address.at_ .r10 (index * l.size + k : Nat) := by
      simp [Address.offset, Address.at_]
    rw [hplace]
    exact ⟨Reach.holds_nat.2 (by omega), by simp [Address.at_]⟩
  | home hdecl ha hn => exact hE.values hdecl ha hn
  | result => exact fun k hk => hE.result_within (Nat.le_of_lt hk)

theorem Passes.passed?_eq {layouts : Registry} {fixed : Nat} {arguments : List Expr}
    {passed : List Passed} (h : Passes layouts fixed arguments passed) :
    passed? layouts fixed arguments = some passed := by
  induction h with
  | nil => rfl
  | cons hty hl _ ih => simp [passed?, hty, hl, ih, Except.toOption]

theorem Passes.regular {layouts : Registry} (hgrown : layouts.Grown) {fixed : Nat}
    {arguments : List Expr} {passed : List Passed} (h : Passes layouts fixed arguments passed) :
    ∀ b ∈ passed, b.argument.shape.Regular ∧ b.argument.shape.size ≤ b.slot + 8 := by
  induction h with
  | nil => simp
  | @cons fixed e rest t l passed _ hl _ ih =>
    refine List.forall_mem_cons.2 ⟨?_, ih⟩
    have hround := le_alignUp l.size 16
    dsimp only
    split
    · exact ⟨Convention.regular_double, Nat.le_add_left _ _⟩
    · exact ⟨Convention.regular_of_layout hgrown hl, Nat.le_trans hround (Nat.le_add_right _ _)⟩

theorem Env.Sends.passing_le {f : ForeignFunction} {passed : List Passed}
    {result : Option Convention.Shape} (h : env.Sends Q f passed result)
    (hQ : ∀ e, Q e → measure env.platform.convention env.layouts env.foreign e ≤ R.word) :
    passingSize env.platform.convention passed result + 128 ≤ R.word := by
  obtain ⟨_, _, _, mangled, _, t, arguments, _, l, hq, hf, hpasses, hl, rfl⟩ := h
  have hfound : env.foreign.find? (·.name.value == mangled) = some f := by
    unfold Env.foreignFunction at hf
    split at hf
    · rename_i heq
      rw [heq, Except.ok.inj hf]
    · cases hf
  have hmeasure := hQ _ hq
  simpa [measure, callSize?, hfound, Env.layouts_layoutOf hl, hpasses.passed?_eq, Except.toOption]
    using hmeasure

theorem Assembled.within (h : Assembled env D Q outside standing s code s') (hE : env.Within R D)
    (hQ : ∀ e, Q e → measure env.platform.convention env.layouts env.foreign e ≤ R.word) :
    ∀ i ∈ code, i.Within R := by
  have hvalues := R.values
  have hfixed : ∀ {i : Instr}, i.isFixed → i.Within R := by
    intro i hi
    simp only [isFixed, Bool.and_eq_true, List.all_eq_true, decide_eq_true_eq] at hi
    exact within_of_small hi.2
  induction h with
  | nil => simp
  | append _ _ ih ih' =>
    intro i hi
    exact (List.mem_append.1 hi).elim (ih i) (ih' i)
  | fresh _ _ ih => exact ih
  | label l => exact List.forall_mem_singleton.2 trivial
  | jump _ => exact List.forall_mem_singleton.2 trivial
  | jumpIf _ => exact List.forall_mem_singleton.2 trivial
  | fixed h => exact fun i hi => hfixed (h i hi)
  | string hq =>
    intro i hi
    rcases mem_stringCode hi with hi | rfl | rfl
    · exact hfixed hi
    · rw [within_storeImmediate, Address.within_stack, Reach.holds_nat]
      exact ⟨by omega, hQ _ hq⟩
    · simp
  | count hq =>
    refine List.forall_mem_singleton.2 ?_
    rw [within_storeImmediate, Address.within_stack, Reach.holds_nat]
    exact ⟨by omega, (Nat.le_max_left _ _).trans (hQ _ hq)⟩
  | home ha hi =>
    have hhome := hE.homes ha
    refine List.forall_mem_singleton.2 ?_
    simp only [List.mem_cons, List.not_mem_nil, or_false] at hi
    rcases hi with rfl | rfl | rfl | rfl <;> simpa using hhome
  | embed _ => exact List.forall_mem_singleton.2 (by simp)
  | lower h => exact fun i hi => lower_within (hE.amount h) hi
  | raise h => exact fun i hi => raise_within (hE.amount h) hi
  | copy hd hs => exact fun i hi => copy_within (hE.spans hQ hd) (hE.spans hQ hs) hi
  | zero hn =>
    intro i hi
    have := slot_le (hE.sizes hn)
    obtain ⟨k, hk, rfl⟩ := mem_zero hi
    have hplace : top.offset (8 * k) = Address.stack (8 * k) := by
      simp [top, Address.offset, Address.stack, Address.at_]
    rw [hplace, within_storeImmediate, Address.within_stack]
    exact ⟨by omega, (Reach.holds_small (by decide)).1⟩
  | @collapse _ _ n kept hn hkept =>
    intro i hi
    have := slot_le (hE.sizes hn)
    have := hE.kept hkept
    have hslot : 16 ∣ slot n := dvd_slot n
    rcases mem_collapse hi with ⟨k, hk, rfl | rfl⟩ | rfl
    · rw [within_load, Address.within_stack]
      omega
    · rw [within_store, Address.within_stack]
      omega
    · exact ⟨trivial, Reach.holds_nat.2 (by omega)⟩
  | read hn =>
    have := slot_le (hE.sizes hn)
    refine List.forall_mem_singleton.2 ?_
    rw [within_load, Address.within_stack]
    omega
  | result =>
    refine List.forall_mem_singleton.2 ?_
    rw [within_load]
    simpa using hE.result_within (Nat.zero_le _)
  | member hl hm =>
    intro i hi
    have := hE.members hl hm
    rw [mem_memberCode hi]
    exact ⟨by simp [top, Operand.Within]; omega, Reach.holds_nat.2 (by omega)⟩
  | index hn =>
    intro i hi
    have := hE.sizes hn
    rcases mem_indexCode hi with hi | rfl
    · exact hfixed hi
    · exact ⟨trivial, Reach.holds_nat.2 (by omega)⟩
  | call _ => exact List.forall_mem_singleton.2 trivial
  | foreign hsends hplan =>
    have hpassing := hsends.passing_le hQ
    rw [passingSize, Convention.plan?_area hplan] at hpassing
    obtain ⟨_, _, _, _, _, _, _, _, _, -, -, hpasses, -, -⟩ := hsends
    exact fun i hi => callForeign_within hplan (hpasses.regular hE.grown) hpassing hi

theorem collector_within (platform : Platform) (size : Nat) :
    ∀ i ∈ Collector.code platform size, i.Within R := by
  have hsplit : Collector.code platform size = Collector.entryPoint size ++ routines platform := by
    simp [Collector.code, routines]
  have hentry : (Collector.entryPoint size).all fun i => i.numbers.all (·.natAbs ≤ 64) := by
    rcases size with _ | _ | _ | _ | _ | size <;> rfl
  have hroutines : (routines platform).all fun i => i.numbers.all (·.natAbs ≤ 64) := by
    obtain ⟨system, convention⟩ := platform
    cases system <;> cases convention <;> decide
  simp only [List.all_eq_true, decide_eq_true_eq] at hentry hroutines
  intro i hi
  rw [hsplit] at hi
  rcases List.mem_append.1 hi with hi | hi
  · exact within_of_small (hentry i hi)
  · exact within_of_small (hroutines i hi)

end Code

end RegionCompiler.Codegen

namespace RegionCompiler

open Machine Codegen Typing

/-- A program all of whose sizes are in reach: its records, the frames of its functions, and what is
measured of its expressions. -/
structure Program.Within (R : Reach) (platform : Platform) (layouts : Registry) (p : Program)
    (routines : List Routine) : Prop where
  records : ∀ name l, layouts.get? name = some l → l.size ≤ R.value
  arguments : ∀ r ∈ routines, r.frame.arguments ≤ R.arguments
  /-- Above the base pointer lie two words, the arguments and the result. -/
  frames : ∀ r ∈ routines, 16 + r.frame.arguments + r.frame.resultSlot < R.frame
  locals : ∀ r ∈ routines, r.frame.locals < R.frame
  expressions : ∀ f ∈ p.functions, Throughout
    (measure platform.convention layouts p.foreign · ≤ R.word) f.body.statements (bodyDepth f) false

section Programs

variable {R : Reach} {platform : Platform} {layouts : Registry} {p : Program}
    {routines : List Routine}

theorem Placed.end_le {vs placed : List StackVariable} {stop : Nat}
    (h : Placed layouts 0 vs placed stop) {v : StackVariable} (hv : v ∈ placed) {offset : Nat}
    (hoffset : placedAt v = .ok offset) :
    ∃ l, layouts.layoutOf v.ty = .ok l ∧ offset + l.size ≤ alignUp stop 16 := by
  obtain ⟨here, l, hhere, hl⟩ := h.lies v hv
  have hwithin := (h.within hv ⟨hhere, hl⟩).2
  have hround := le_alignUp stop 16
  rw [placedAt, hhere] at hoffset
  cases hoffset
  exact ⟨l, hl, by omega⟩

theorem size_le_of_records {n : Nat} (hn : 16 ≤ n)
    (h : ∀ name l, layouts.get? name = some l → l.size ≤ n) {t : Ty} {size : Nat}
    (hsize : layouts.sizeOf? t = some size) : size ≤ n := by
  rw [Registry.sizeOf?] at hsize
  split at hsize
  case h_2 => cases hsize
  case h_1 l hl =>
  rw [← Option.some.inj hsize]
  cases t with
  | pointer _ | array _ _ =>
    cases hl
    exact Nat.le_trans (by decide) hn
  | function _ _ _ _ | invalid => cases hl
  | base name =>
    simp only [Registry.layoutOf] at hl
    split at hl
    · rename_i found hfound
      cases hl
      exact h name l hfound
    · cases hl

namespace Program.Within

theorem size_le (h : p.Within R platform layouts routines) {t : Ty} {l : Layout}
    (hl : layouts.layoutOf t = .ok l) : l.size ≤ R.value :=
  size_le_of_records R.value_ge h.records (t := t) (by simp [Registry.sizeOf?, hl])

theorem member_le (h : p.Within R platform layouts routines) (hgrown : layouts.Grown) {t : Ty}
    {l : Layout} (hl : layouts.layoutOf t = .ok l) {m : LayoutMember} (hm : m ∈ l.members) :
    ∃ k, layouts.layoutOf m.ty = .ok k ∧ m.offset + k.size ≤ R.value := by
  obtain ⟨k, hk, -, hinside⟩ := (hgrown.lays hl).members m hm
  exact ⟨k, hk, Nat.le_trans hinside (h.size_le hl)⟩

theorem env (h : p.Within R platform layouts routines) (hp : ProgramOk layouts p)
    (hgrown : layouts.Grown) (hframes : List.Forall₂ (Routine.Frames layouts) p.functions routines)
    {f : Function} (hf : f ∈ p.functions) {r : Routine} (hr : r ∈ routines)
    (hfr : Routine.Frames layouts f r) :
    (envOf platform layouts p routines r).Within R (declsOf layouts p f.stack) := by
  have hframe_le := R.frame_le
  have hframed : (envOf platform layouts p routines r).Framed :=
    framed_of_frames hgrown hfr (hp.functions f hf).distinct
  have hsizes : ∀ {t : Ty} {n : Nat}, (envOf platform layouts p routines r).sizeOf t = .ok n →
      ∃ l, layouts.layoutOf t = .ok l ∧ l.size = n := by
    intro t n ht
    obtain ⟨l, hl, rfl⟩ := Env.sizeOf_eq ht
    exact ⟨l, Env.layouts_layoutOf hl, rfl⟩
  obtain ⟨stop, hparameters, harguments⟩ := hfr.parameters
  obtain ⟨stop', hlocals, hlocalsSize⟩ := hfr.locals
  have hframe := h.frames r hr
  have hlocal := h.locals r hr
  have hcurrent : (envOf platform layouts p routines r).current = r := rfl
  constructor
  case sizes =>
    rintro n ⟨t, ht⟩
    obtain ⟨l, hl, rfl⟩ := hsizes ht
    exact h.size_le hl
  case parts =>
    intro offset n hpart
    cases hpart with
    | member hl hm hn =>
      obtain ⟨k, hk, hinside⟩ := h.member_le hgrown (Env.layouts_layoutOf hl) hm
      obtain ⟨k', hk', rfl⟩ := hsizes hn
      cases hk.symm.trans hk'
      exact Nat.le_trans hinside R.value_le_arguments
    | @argument r' v offset size hr' hv hoffset hn =>
      obtain ⟨f', -, hfr'⟩ := exists_of_forall₂ hframes.flip hr'
      obtain ⟨stop, hplaced, hstop⟩ := hfr'.parameters
      obtain ⟨l, hl, hend⟩ := hplaced.end_le hv hoffset
      obtain ⟨k, hk, rfl⟩ := hsizes hn
      cases hl.symm.trans hk
      have := h.arguments r' hr'
      omega
  case members =>
    intro t l m hl hm
    obtain ⟨k, -, hinside⟩ := h.member_le hgrown (Env.layouts_layoutOf hl) hm
    omega
  case homes =>
    intro mangled a ha
    rcases Env.variableAddress_eq ha with ⟨v, hv, n, hn, rfl⟩ | ⟨v, hv, n, hn, rfl⟩
    · obtain ⟨l, -, hend⟩ := hparameters.end_le hv hn
      rw [hcurrent, Frame.argumentAt]
      exact Address.within_frame (by omega) (by omega)
    · obtain ⟨l, -, hend⟩ := hlocals.end_le hv hn
      rw [hcurrent, Frame.localAt]
      exact Address.within_frame (by omega) (by omega)
  case values =>
    rw [← hfr.declsOf]
    rintro mangled t a n ⟨v, hv, rfl, rfl⟩ ha hn
    obtain ⟨e, ⟨haddress, hsize⟩, he⟩ := hframed.inside hv
    cases haddress.symm.trans ha
    cases hsize.symm.trans hn
    intro k hk
    have hplace : (Address.frame e.start).offset k = Address.frame (e.start + k) := rfl
    rw [hplace]
    rw [hcurrent] at he
    rcases he with ⟨hstart, hstop⟩ | ⟨hstart, hstop⟩ <;>
      simp only [Frame.extent, Extent.stop] at hstart hstop <;>
      exact Address.within_frame (by omega) (by omega)
  case locals =>
    rw [hcurrent]
    omega
  case result => exact hframe
  case arguments => exact h.arguments
  case results =>
    intro r' hr'
    obtain ⟨f', -, hfr'⟩ := exists_of_forall₂ hframes.flip hr'
    exact size_le_of_records R.value_ge h.records hfr'.result
  case grown => exact hgrown

theorem code (h : p.Within R platform layouts routines) (hp : ProgramOk layouts p)
    (hgrown : layouts.Grown) (hframes : List.Forall₂ (Routine.Frames layouts) p.functions routines)
    {rs : List Routine} (hrs : ∀ r ∈ rs, r ∈ routines) {s s' : Supply} {code : Code}
    (hlisted : Listed (p.Makes platform layouts routines
      (measure platform.convention layouts p.foreign · ≤ R.word)) rs s code s') :
    ∀ i ∈ code, i.Within R := by
  induction hlisted with
  | nil => simp
  | cons comment hmakes _ ih =>
    obtain ⟨f, hf, hfr, hmakes⟩ := hmakes
    obtain ⟨hr, hrest⟩ := List.forall_mem_cons.1 hrs
    refine List.forall_mem_cons.2 ⟨trivial, List.forall_mem_cons.2 ⟨trivial, ?_⟩⟩
    exact List.forall_mem_append.2
      ⟨hmakes.assembled.within (h.env hp hgrown hframes hf hr hfr) fun _ he => he, ih hrest⟩

end Program.Within

end Programs

end RegionCompiler
