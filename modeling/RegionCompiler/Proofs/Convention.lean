import Mathlib
import RegionCompiler.Proofs.Codegen.Plan
import RegionCompiler.Proofs.Layout.Growth

/-! Where each argument of a foreign call goes. System V hands out the registers of both kinds in
order and turns to the stack for what they do not suffice for. On Microsoft systems the position of
an argument decides alone, whatever went before it. -/
namespace RegionCompiler.Convention

open Machine

/-- The stack words that an argument takes. -/
def Placement.words : Placement → List Nat
  | stack word | reference _ (.stack word) => [word]
  | registers _ | both _ _ | reference _ (.register _) => []

section Shapes

variable {s : Shape}

/-- The shape of a type that a registry has a layout for. -/
def Shape.IsLaid (s : Shape) : Prop :=
  ∃ (requests : List Registry.Request) (t : Ty) (l : Layout),
    (Registry.initial.answerAll requests).layoutOf t = .ok l ∧ s = .of t l

/-- Values that never travel in registers. -/
def Shape.InMemory (s : Shape) : Prop := 16 < s.size ∨ .memory ∈ s.classes

theorem regular_of_layout {r : Registry} (hgrown : r.Grown) {t : Ty} {l : Layout}
    (hl : r.layoutOf t = .ok l) : (Shape.of t l).Regular := by
  have hlays := hgrown.lays hl
  constructor
  case classes =>
    intro hsize
    change l.size ≤ 16 at hsize
    change l.size ≤ 8 * l.classes.length ∧ l.classes.length ≤ 2
    rcases hlays.classes with ⟨hlong, -⟩ | ⟨-, hlength, -⟩ <;> omega
  case precision =>
    intro p hp
    change t.precision? = some p at hp
    change l.size = p.width.bytes
    have hbuiltin : ∀ name k, t.isPlain name → Registry.initial.get? name = some k → l = k := by
      intro name k ht hk
      obtain rfl : t = .base name := by cases t <;> simp_all [Ty.isPlain]
      simp only [Registry.layoutOf, hgrown.initial_le name k hk] at hl
      exact (Except.ok.inj hl).symm
    unfold Ty.precision? at hp
    split at hp
    · cases hp
      rw [hbuiltin "double" (.primitive 8 .sse) ‹_› rfl]
      rfl
    · split at hp
      · cases hp
        rw [hbuiltin "float" (.primitive 4 .sse) ‹_› rfl]
        rfl
      · cases hp

theorem regular_double : Shape.double.Regular where
  classes _ := by decide
  precision := by
    rintro p ⟨⟩
    rfl

namespace Shape.IsLaid

theorem regular (h : s.IsLaid) : s.Regular := by
  obtain ⟨requests, t, l, hl, rfl⟩ := h
  exact regular_of_layout (Registry.grown_answerAll requests) hl

theorem classes (h : s.IsLaid) : 16 < s.size ∧ s.classes = [.memory] ∨
    s.size ≤ 16 ∧ s.classes.length ≤ 2 ∧ .memory ∉ s.classes := by
  obtain ⟨requests, t, l, hl, rfl⟩ := h
  rcases ((Registry.grown_answerAll requests).lays hl).classes with hlong | ⟨hsize, hlength, hno⟩
  · exact .inl hlong
  · refine .inr ⟨hsize, ?_, hno⟩
    change l.classes.length ≤ 2
    omega

theorem isMemory_iff (h : s.IsLaid) : s.isMemory ↔ s.InMemory := by
  unfold isMemory InMemory
  rcases h.classes with ⟨hsize, hclasses⟩ | ⟨hsize, -, hno⟩
  · simp [hsize]
  · have hhead : s.classes.head? ≠ some .memory := fun hhead => hno (List.mem_of_head? hhead)
    simp [hno, hhead]

end Shape.IsLaid

/-- What is not in memory has eightbytes of two classes only. -/
theorem countP_ne_sse {classes : List EightbyteClass} (h : .memory ∉ classes) :
    classes.countP (· != .sse) = classes.count .integer := by
  refine List.countP_congr fun c hc => ?_
  cases c with
  | sse => decide
  | integer => decide
  | memory => exact absurd hc h

end Shapes

/-- Whether a register is of the kind that an eightbyte needs. -/
inductive Slot.Carries : Slot → EightbyteClass → Prop
  | general (r : Register) : Carries (.general r) .integer
  | vector (x : Xmm) : Carries (.vector x) .sse

namespace SystemV

variable {u : Used} {a : ForeignArgument} {arguments : List ForeignArgument}
  {generals : List Register} {vectors : List Xmm} {classes : List EightbyteClass}

theorem isSome_assign_iff : (assign generals vectors classes).isSome ↔
    classes.countP (· != .sse) ≤ generals.length ∧ classes.count .sse ≤ vectors.length := by
  induction classes generalizing generals vectors with
  | nil => simp [assign]
  | cons c rest ih =>
    cases c with
    | sse => cases vectors <;> simp [assign, ih]
    | integer => cases generals <;> simp [assign, ih]
    | memory => cases generals <;> simp [assign, ih]

theorem assign_carries {slots : List Slot} (h : assign generals vectors classes = some slots)
    (hno : .memory ∉ classes) : List.Forall₂ Slot.Carries slots classes := by
  induction classes generalizing generals vectors slots with
  | nil =>
    cases h
    exact .nil
  | cons c rest ih =>
    have hrest : .memory ∉ rest := fun hmem => hno (List.mem_cons_of_mem _ hmem)
    cases c with
    | sse =>
      cases vectors with
      | nil => cases h
      | cons x vectors =>
        obtain ⟨slots, hslots, rfl⟩ := Option.map_eq_some_iff.1 h
        exact .cons (.vector x) (ih hslots hrest)
    | integer =>
      cases generals with
      | nil => cases h
      | cons r generals =>
        obtain ⟨slots, hslots, rfl⟩ := Option.map_eq_some_iff.1 h
        exact .cons (.general r) (ih hslots hrest)
    | memory => exact absurd List.mem_cons_self hno

def stackBytes (placed : Placed) : Nat :=
  (placed.map fun x => match x.1 with
    | .stack _ => alignUp x.2.shape.size 8
    | _ => 0).sum

/-- What is in use when more arguments have their places. -/
def Used.after (u : Used) (placed : Placed) : Used where
  general := u.general + (placed.flatMap (·.1.generals)).length
  vector := u.vector + (placed.flatMap (·.1.vectors)).length
  stack := u.stack + stackBytes placed

/-- Whether the registers that are left do not suffice for all of a value. -/
def Spills (u : Used) (s : Shape) : Prop :=
  s.InMemory ∨ 6 < u.general + s.classes.count .integer ∨ 8 < u.vector + s.classes.count .sse

/-- How the next argument travels: on the stack behind the others, or with every eightbyte in a
register of its kind. -/
structure Next (u : Used) (a : ForeignArgument) (p : Placement) : Prop where
  spilled : Spills u a.shape → p = .stack u.stack
  kept : ¬ Spills u a.shape →
    ∃ slots, p = .registers slots ∧ List.Forall₂ Slot.Carries slots a.shape.classes

theorem Slot.Carries.counts {slots : List Slot} (h : List.Forall₂ Slot.Carries slots classes) :
    (slots.flatMap Slot.generals).length = classes.count .integer ∧
      (slots.flatMap Slot.vectors).length = classes.count .sse := by
  induction h with
  | nil => exact ⟨rfl, rfl⟩
  | cons hfirst _ ih =>
    cases hfirst <;> simp [Slot.generals, Slot.vectors, ih]

theorem Used.after_cons (u : Used) (x : Placement × ForeignArgument) (placed : Placed) :
    u.after (x :: placed) = (u.after [x]).after placed := by
  simp [Used.after, stackBytes, Nat.add_assoc]

/-- What was handed out at most. -/
def Used.InBounds (u : Used) : Prop := u.general ≤ 6 ∧ u.vector ≤ 8

theorem placeArgument_spilled (ha : a.shape.IsLaid) (hu : u.InBounds) (h : Spills u a.shape) :
    placeArgument u a = (.stack u.stack, u.after [(.stack u.stack, a)]) := by
  have hafter : u.after [(.stack u.stack, a)] =
      { u with stack := u.stack + alignUp a.shape.size 8 } := by
    simp [Used.after, stackBytes, Placement.generals, Placement.vectors]
  rw [hafter]
  unfold placeArgument
  dsimp only
  split
  case isTrue => rfl
  case isFalse hmemory =>
    rw [ha.isMemory_iff] at hmemory
    split
    case h_1 => rfl
    case h_2 slots hslots =>
      have hno : .memory ∉ a.shape.classes := fun hmem => hmemory (.inr hmem)
      have hfits := isSome_assign_iff.1 (Option.isSome_of_eq_some hslots)
      rw [countP_ne_sse hno] at hfits
      simp only [freeGenerals, freeVectors, argumentRegisters, vectorCount, List.length_drop,
        List.length_map, List.length_range, List.length_cons, List.length_nil] at hfits
      rcases h with hmem | hgenerals | hvectors
      · exact absurd hmem hmemory
      all_goals
        have hbounds := hu
        unfold Used.InBounds at hbounds
        omega

theorem placeArgument_kept (ha : a.shape.IsLaid) (h : ¬ Spills u a.shape) :
    ∃ slots, List.Forall₂ Slot.Carries slots a.shape.classes ∧
      placeArgument u a = (.registers slots, u.after [(.registers slots, a)]) := by
  have hmemory : ¬ a.shape.InMemory := fun hmem => h (.inl hmem)
  have hno : .memory ∉ a.shape.classes := fun hmem => hmemory (.inr hmem)
  have hfits : (assign (freeGenerals u) (freeVectors u) a.shape.classes).isSome := by
    rw [isSome_assign_iff, countP_ne_sse hno]
    simp only [freeGenerals, freeVectors, argumentRegisters, vectorCount, List.length_drop,
      List.length_map, List.length_range, List.length_cons, List.length_nil]
    simp only [Spills, not_or, Nat.not_lt] at h
    omega
  obtain ⟨slots, hslots⟩ := Option.isSome_iff_exists.1 hfits
  have hcarries := assign_carries hslots hno
  obtain ⟨hgenerals, hvectors⟩ := Slot.Carries.counts hcarries
  refine ⟨slots, hcarries, ?_⟩
  rw [placeArgument, if_neg (by rwa [ha.isMemory_iff]), hslots]
  simp [Used.after, stackBytes, Placement.generals, Placement.vectors, hgenerals, hvectors,
    countP_ne_sse hno]

theorem placeArgument_next (ha : a.shape.IsLaid) (hu : u.InBounds) :
    ∃ p, placeArgument u a = (p, u.after [(p, a)]) ∧ Next u a p ∧
      (u.after [(p, a)]).InBounds := by
  by_cases h : Spills u a.shape
  · refine ⟨_, placeArgument_spilled ha hu h, ⟨fun _ => rfl, fun hn => absurd h hn⟩, ?_⟩
    simpa [Used.after, Used.InBounds, Placement.generals, Placement.vectors] using hu
  · obtain ⟨slots, hcarries, heq⟩ := placeArgument_kept ha h
    obtain ⟨hgenerals, hvectors⟩ := Slot.Carries.counts hcarries
    refine ⟨_, heq, ⟨fun hs => absurd hs h, fun _ => ⟨slots, rfl, hcarries⟩⟩, ?_⟩
    simp only [Spills, not_or, Nat.not_lt] at h
    simp only [Used.after, Used.InBounds, Placement.generals, Placement.vectors,
      List.flatMap_cons, List.flatMap_nil, List.append_nil, hgenerals, hvectors]
    exact h.2

theorem placeArguments_next (h : ∀ a ∈ arguments, a.shape.IsLaid) (hu : u.InBounds) :
    (placeArguments u arguments).2 = u.after ((placeArguments u arguments).1.zip arguments) ∧
    ∀ earlier x later, (placeArguments u arguments).1.zip arguments = earlier ++ x :: later →
      Next (u.after earlier) x.2 x.1 := by
  induction arguments generalizing u with
  | nil =>
    refine ⟨rfl, fun earlier x later hsplit => ?_⟩
    simp [placeArguments] at hsplit
  | cons a rest ih =>
    obtain ⟨p, hp, hnext, hu'⟩ := placeArgument_next (h a List.mem_cons_self) hu
    obtain ⟨hused, hrest⟩ := ih (fun b hb => h b (List.mem_cons_of_mem _ hb)) hu'
    have hcons : placeArguments u (a :: rest) =
        (p :: (placeArguments (u.after [(p, a)]) rest).1,
          (placeArguments (u.after [(p, a)]) rest).2) := by
      rw [placeArguments, hp]
    rw [hcons, List.zip_cons_cons]
    refine ⟨hused.trans (Used.after_cons u _ _).symm, fun earlier x later hsplit => ?_⟩
    cases earlier with
    | nil =>
      obtain ⟨rfl, -⟩ := List.cons.inj hsplit
      simpa [Used.after, stackBytes] using hnext
    | cons y earlier =>
      obtain ⟨rfl, hlater⟩ := List.cons.inj hsplit
      rw [Used.after_cons]
      exact hrest earlier x later hlater

theorem stackBytes_append (earlier later : Placed) :
    stackBytes (earlier ++ later) = stackBytes earlier + stackBytes later := by
  simp [stackBytes]

theorem dvd_stackBytes (placed : Placed) : 8 ∣ stackBytes placed := by
  induction placed with
  | nil => exact Nat.dvd_zero 8
  | cons x rest ih =>
    refine Nat.dvd_add ?_ ih
    dsimp only
    split
    · exact dvd_alignUp (by decide)
    · exact Nat.dvd_zero 8

theorem Next.offset_eq {p : Placement} {offset : Nat} (h : Next u a p) (hp : p = .stack offset) :
    offset = u.stack := by
  by_cases hs : Spills u a.shape
  · have hplace := h.spilled hs
    rw [hp] at hplace
    exact Placement.stack.inj hplace
  · obtain ⟨slots, hslots, -⟩ := h.kept hs
    rw [hp] at hslots
    cases hslots

/-- Where a result comes back. -/
structure Returns (result : Option Shape) (placed : ResultPlacement) : Prop where
  /-- There is nothing to bring back of a value without bytes. -/
  nothing : (∀ s, result = some s → s.size = 0) → placed = .nothing
  hidden : (∃ r, placed = .hidden r) ↔ ∃ s, result = some s ∧ s.InMemory
  /-- Every eightbyte takes the next register of its kind. -/
  registers : ∀ s, result = some s → s.size ≠ 0 → ¬ s.InMemory → ∃ slots,
    placed = .registers slots ∧ List.Forall₂ Slot.Carries slots s.classes ∧
    slots.flatMap Slot.generals <+: [.rax, .rdx] ∧ slots.flatMap Slot.vectors <+: [⟨0⟩, ⟨1⟩]

theorem placeResult_returns {result : Option Shape} (h : ∀ s, result = some s → s.IsLaid) :
    ∃ placed, placeResult? result = some placed ∧ Returns result placed := by
  cases result with
  | none => exact ⟨.nothing, rfl, by constructor <;> simp⟩
  | some s =>
    have hlaid := h s rfl
    unfold placeResult?
    dsimp only
    split
    case isTrue hsize =>
      have hmemory : ¬ s.InMemory := by
        rcases hlaid.classes with ⟨hlong, -⟩ | ⟨-, -, hno⟩
        · omega
        · simp [Shape.InMemory, hsize, hno]
      exact ⟨.nothing, rfl, by constructor <;> simp [hsize, hmemory]⟩
    case isFalse hsize =>
      split
      case isTrue hmemory =>
        rw [hlaid.isMemory_iff] at hmemory
        exact ⟨.hidden .rdi, rfl, by constructor <;> simp [hsize, hmemory]⟩
      case isFalse hmemory =>
        rw [hlaid.isMemory_iff] at hmemory
        have hno : .memory ∉ s.classes := fun hmem => hmemory (.inr hmem)
        have htwo : s.classes.length ≤ 2 := by
          rcases hlaid.classes with ⟨hlong, -⟩ | ⟨-, hlength, -⟩
          · exact absurd (.inl hlong) hmemory
          · exact hlength
        have hfits : (assign [.rax, .rdx] [⟨0⟩, ⟨1⟩] s.classes).isSome :=
          isSome_assign_iff.2
            ⟨Nat.le_trans List.countP_le_length htwo, Nat.le_trans List.count_le_length htwo⟩
        obtain ⟨slots, hslots⟩ := Option.isSome_iff_exists.1 hfits
        obtain ⟨-, -, hgenerals, hvectors⟩ := assign_takes hslots
        refine ⟨.registers slots, by rw [hslots]; rfl, by simp [hsize], by simp [hmemory], ?_⟩
        rintro s ⟨⟩ - -
        exact ⟨slots, rfl, assign_carries hslots hno, ⟨_, hgenerals⟩, ⟨_, hvectors⟩⟩

/-- A plan for a call. -/
structure Planned (arguments : List ForeignArgument) (result : Option Shape) (plan : Plan) :
    Prop where
  result : Returns result plan.result
  length : plan.arguments.length = arguments.length
  /-- Registers are taken in order, by the address of the result first. -/
  generals : plan.result.hidden? ++ plan.arguments.flatMap Placement.generals <+:
    [.rdi, .rsi, .rdx, .rcx, .r8, .r9]
  vectors : plan.arguments.flatMap Placement.vectors <+:
    [⟨0⟩, ⟨1⟩, ⟨2⟩, ⟨3⟩, ⟨4⟩, ⟨5⟩, ⟨6⟩, ⟨7⟩]
  count : plan.vectors = (plan.arguments.flatMap Placement.vectors).length
  /-- Only what went before decides about an argument. -/
  next : ∀ earlier x later, plan.arguments.zip arguments = earlier ++ x :: later →
    Next (Used.after ⟨plan.result.hidden?.length, 0, 0⟩ earlier) x.2 x.1
  inside : ∀ x ∈ plan.arguments.zip arguments, ∀ offset, x.1 = .stack offset →
    8 ∣ offset ∧ offset + alignUp x.2.shape.size 8 ≤ plan.stack
  apart : Placed.Apart plan.stack (plan.arguments.zip arguments)
  stack : plan.stack = alignUp (stackBytes (plan.arguments.zip arguments)) 16
  copies : plan.copies = 0

theorem prefix_of_first {placed : ResultPlacement} {ps : List Placement} {u' : Used}
    (hplaced : placed.hidden? ++ freeGenerals ⟨placed.hidden?.length, 0, 0⟩ = argumentRegisters)
    (h : TakesAll ⟨placed.hidden?.length, 0, 0⟩ u' arguments ps) :
    placed.hidden? ++ ps.flatMap Placement.generals <+: argumentRegisters := by
  rw [← hplaced, ← h.generals, ← List.append_assoc]
  exact List.prefix_append _ _

theorem planned_of_first {result : Option Shape} {placed : ResultPlacement}
    (hresult : Returns result placed)
    (hplaced : placed.hidden? ++ freeGenerals ⟨placed.hidden?.length, 0, 0⟩ = argumentRegisters)
    (h : ∀ a ∈ arguments, a.shape.IsLaid) :
    let placements := placeArguments ⟨placed.hidden?.length, 0, 0⟩ arguments
    Planned arguments result
      ⟨placed, placements.1, alignUp placements.2.stack 16, 0, placements.2.vector⟩ := by
  intro placements
  have hfirst : placed.hidden?.length ≤ 6 := by
    have hlength := congrArg List.length hplaced
    rw [List.length_append] at hlength
    exact Nat.le_of_add_right_le (Nat.le_of_eq hlength)
  have htakes : TakesAll ⟨placed.hidden?.length, 0, 0⟩ placements.2 arguments placements.1 :=
    placeArguments_takes fun a ha => (h a ha).regular
  obtain ⟨hused, hnext⟩ := placeArguments_next (u := ⟨placed.hidden?.length, 0, 0⟩) h
    ⟨hfirst, Nat.zero_le 8⟩
  have hstack : placements.2.stack = stackBytes (placements.1.zip arguments) := by
    rw [show placements.2 = _ from hused]
    exact Nat.zero_add _
  constructor
  case result => exact hresult
  case length => exact htakes.length
  case generals => exact prefix_of_first hplaced htakes
  case vectors =>
    have hall : placements.1.flatMap Placement.vectors ++ _ = _ := htakes.vectors
    exact ⟨_, hall⟩
  case count =>
    have hcount := htakes.count
    simpa using hcount
  case next => exact hnext
  case inside =>
    intro x hx offset hoffset
    obtain ⟨earlier, later, hsplit⟩ := List.append_of_mem hx
    have heq : offset = 0 + stackBytes earlier := (hnext earlier x later hsplit).offset_eq hoffset
    have hround := le_alignUp placements.2.stack 16
    have hbytes : stackBytes [x] = alignUp x.2.shape.size 8 := by
      simp [stackBytes, hoffset]
    have htotal : placements.2.stack =
        stackBytes earlier + (stackBytes [x] + stackBytes later) := by
      rw [hstack, show placements.1.zip arguments = _ from hsplit, ← stackBytes_append,
        ← stackBytes_append]
      rfl
    refine ⟨heq ▸ (Nat.zero_add _).symm ▸ dvd_stackBytes earlier, ?_⟩
    dsimp only
    omega
  case apart => exact htakes.apart _
  case stack => rw [hstack]
  case copies => rfl

/-- The plan of a call on System V. An argument is never split, and what it leaves is there for the
ones behind it. There is a plan unless the arguments on the stack are more than can be counted. -/
theorem plan_takes_in_order {result : Option Shape} (h : ∀ a ∈ arguments, a.shape.IsLaid)
    (hresult : ∀ s, result = some s → s.IsLaid) :
    ∃ plan, Planned arguments result plan ∧ plan? arguments result =
      if plan.stack < wordLimit then .ok plan else .error .overflow := by
  obtain ⟨placed, hplaced, hreturns⟩ := placeResult_returns hresult
  refine ⟨plan arguments placed, ?_, ?_⟩
  · cases placed with
    | hidden r =>
      obtain rfl := hidden_placeResult hplaced
      exact planned_of_first hreturns rfl h
    | nothing => exact planned_of_first hreturns rfl h
    | registers slots => exact planned_of_first hreturns rfl h
  · simp only [plan?, hplaced, checked_eq]
    exact if_congr (and_iff_left (Nat.two_pow_pos 64)) rfl rfl

def word : Shape := ⟨8, [.integer], none⟩

def pair : Shape := ⟨16, [.integer, .integer], none⟩

def mixed : Shape := ⟨16, [.integer, .sse], none⟩

theorem word_isLaid : word.IsLaid := ⟨[], .pointer Ty.int, .pointer, rfl, rfl⟩

theorem pair_isLaid : pair.IsLaid := ⟨[], .array Ty.int .dynamic, .array, rfl, rfl⟩

theorem mixed_isLaid : mixed.IsLaid :=
  ⟨[.record ⟨"Mixed", [("number", Ty.int), ("float", .base "double")]⟩], .base "Mixed", _, rfl, rfl⟩

/-- A record of eight bytes, and others with four values of the one before each. -/
def fourfold : Nat → RecordShape
  | 0 => ⟨"A0", [("x", Ty.int)]⟩
  | n + 1 => ⟨"A" ++ toString (n + 1), List.replicate 4 ("a", .base (fourfold n).name)⟩

def huge : Shape := ⟨2 ^ 63, [.memory], none⟩

def triple : Shape := ⟨24, [.memory], none⟩

theorem huge_isLaid : huge.IsLaid := by
  have hsize : (Registry.initial.answerAll ((List.range 31).map (.record <| fourfold ·))).sizeOf?
      (.base "A30") = some (2 ^ 63) := by decide +kernel
  unfold Registry.sizeOf? at hsize
  split at hsize
  case h_1 l hl =>
    refine ⟨_, .base "A30", l, hl, ?_⟩
    have hlength := Option.some.inj hsize
    rcases ((Registry.grown_answerAll _).lays hl).classes with ⟨-, hclasses⟩ | ⟨hshort, -⟩
    · simp [huge, Shape.of, hlength, hclasses, Ty.precision?, Ty.isPlain]
    · omega
  case h_2 => cases hsize

theorem triple_isLaid : triple.IsLaid :=
  ⟨[.record ⟨"Triple", List.replicate 3 ("x", Ty.int)⟩], .base "Triple", _, rfl, rfl⟩

theorem long_isLaid : ∀ s ∈ [huge, huge, triple], s.IsLaid := by
  intro s hs
  simp only [List.mem_cons, List.not_mem_nil, or_false] at hs
  rcases hs with rfl | rfl | rfl
  · exact huge_isLaid
  · exact huge_isLaid
  · exact triple_isLaid

/-- Two eightbytes do not fit behind five others, and the word behind them does. -/
theorem plan_takes_in_order_pair :
    let arguments := [word, word, word, word, word, pair, word, mixed].map (⟨·, false⟩)
    (∀ a ∈ arguments, a.shape.IsLaid) ∧ (∀ s, some mixed = some s → s.IsLaid) ∧
    ∃ plan, plan? arguments (some mixed) = .ok plan ∧ Planned arguments (some mixed) plan ∧
      plan.arguments = [.registers [.general .rdi], .registers [.general .rsi],
        .registers [.general .rdx], .registers [.general .rcx], .registers [.general .r8],
        .stack 0, .registers [.general .r9], .stack 16] ∧
      plan.result = .registers [.general .rax, .vector ⟨0⟩] ∧ plan.stack = 32 := by
  intro arguments
  have hlaid : ∀ a ∈ arguments, a.shape.IsLaid := by
    intro a ha
    obtain ⟨s, hs, rfl⟩ := List.mem_map.1 ha
    simp only [List.mem_cons, List.not_mem_nil, or_false] at hs
    rcases hs with rfl | rfl | rfl | rfl | rfl | rfl | rfl | rfl
    all_goals first
      | exact word_isLaid
      | exact pair_isLaid
      | exact mixed_isLaid
  have hresult : ∀ s, some mixed = some s → s.IsLaid := by
    rintro s ⟨⟩
    exact mixed_isLaid
  obtain ⟨plan, hplanned, hplan⟩ := plan_takes_in_order hlaid hresult
  have hwords : plan? arguments (some mixed) = .ok (SystemV.plan arguments
      (.registers [.general .rax, .vector ⟨0⟩])) := rfl
  rw [hwords] at hplan
  split at hplan
  case isTrue =>
    cases hplan
    exact ⟨hlaid, hresult, _, hwords, hplanned, rfl, rfl, rfl⟩
  case isFalse => cases hplan

/-- The addresses of the second and the third argument cannot be told apart by a word. -/
theorem stack_overflows :
    let arguments := [huge, huge, triple].map (⟨·, false⟩)
    (∀ a ∈ arguments, a.shape.IsLaid) ∧ plan? arguments none = .error .overflow := by
  refine ⟨fun a ha => ?_, rfl⟩
  obtain ⟨s, hs, rfl⟩ := List.mem_map.1 ha
  exact long_isLaid s hs

end SystemV

namespace Microsoft

variable {a : ForeignArgument} {arguments : List ForeignArgument} {position copies : Nat}

/-- How the argument at a position travels, when the ones before it need bytes of copies. -/
inductive Travels (position copies : Nat) : ForeignArgument → Placement → Prop
  | general {b r} : b.shape.size ∈ [1, 2, 4, 8] → b.shape.precision = none →
    [Register.rcx, .rdx, .r8, .r9][position]? = some r →
    Travels position copies b (.registers [.general r])
  | vector {b} : b.shape.size ∈ [1, 2, 4, 8] → b.shape.precision.isSome → b.variadic = false →
    position < 4 → Travels position copies b (.registers [.vector ⟨position⟩])
  | both {b r} : b.shape.size ∈ [1, 2, 4, 8] → b.shape.precision.isSome → b.variadic = true →
    [Register.rcx, .rdx, .r8, .r9][position]? = some r →
    Travels position copies b (.both ⟨position⟩ r)
  | word {b} : b.shape.size ∈ [1, 2, 4, 8] → 4 ≤ position →
    Travels position copies b (.stack (32 + 8 * (position - 4)))
  | pointer {b r} : b.shape.size ∉ [1, 2, 4, 8] →
    [Register.rcx, .rdx, .r8, .r9][position]? = some r →
    Travels position copies b (.reference copies (.register r))
  | pointerWord {b} : b.shape.size ∉ [1, 2, 4, 8] → 4 ≤ position →
    Travels position copies b (.reference copies (.stack (32 + 8 * (position - 4))))

theorem isRegisterSize_iff {n : Nat} : isRegisterSize n ↔ n ∈ [1, 2, 4, 8] := by
  simp [isRegisterSize, or_assoc]

theorem placeArgument_travels : Travels position copies a (placeArgument position copies a) := by
  unfold placeArgument
  split
  case h_1 r hr =>
    split
    case isTrue hsize =>
      exact .pointer (fun hmem => by simp [isRegisterSize_iff.2 hmem] at hsize) hr
    case isFalse hsize =>
      have hmem := isRegisterSize_iff.1 (by simpa using hsize : isRegisterSize a.shape.size)
      split
      case h_1 hprecision hvariadic =>
        exact .both hmem (Option.isSome_of_eq_some hprecision) hvariadic hr
      case h_2 hprecision hvariadic =>
        exact .vector hmem (Option.isSome_of_eq_some hprecision) hvariadic
          (List.getElem?_eq_some_iff.1 hr).1
      case h_3 hprecision => exact .general hmem hprecision hr
  case h_2 hnone =>
    have hposition : 4 ≤ position := List.getElem?_eq_none_iff.1 hnone
    split
    case isTrue hsize =>
      exact .pointerWord (fun hmem => by simp [isRegisterSize_iff.2 hmem] at hsize) hposition
    case isFalse hsize =>
      exact .word (isRegisterSize_iff.1 (by simpa using hsize)) hposition

theorem copySize_of_not_mem (h : a.shape.size ∉ [1, 2, 4, 8]) :
    copySize a = alignUp a.shape.size 16 :=
  if_neg fun hsize => h (isRegisterSize_iff.1 hsize)

theorem Travels.words_eq {p : Placement} (h : Travels position copies a p) :
    p.words = [] ∨ p.words = [stackWord position] ∧ 4 ≤ position := by
  cases h with
  | word _ hposition | pointerWord _ hposition => exact .inr ⟨rfl, hposition⟩
  | _ => exact .inl rfl

theorem Travels.reference {p : Placement} {offset : Nat} {pointer : Pointer}
    (h : Travels position copies a p) (hp : p = .reference offset pointer) :
    offset = copies ∧ copySize a = alignUp a.shape.size 16 := by
  subst hp
  cases h with
  | pointer hsize | pointerWord hsize => exact ⟨rfl, copySize_of_not_mem hsize⟩

/-- What all arguments of a call take behind a position. -/
structure Placing (position copies : Nat) (arguments : List ForeignArgument)
    (ps : List Placement) : Prop where
  travels : ∀ earlier x later, ps.zip arguments = earlier ++ x :: later →
    Travels (position + earlier.length) (copies + copiesSize (earlier.map Prod.snd)) x.2 x.1
  ascending : (ps.flatMap Placement.words).Pairwise (· < ·)
  bounds : ∀ word ∈ ps.flatMap Placement.words,
    stackWord position ≤ word ∧ word + 8 ≤ stackWord (position + arguments.length)
  copies : ∀ x ∈ ps.zip arguments, ∀ offset pointer, x.1 = .reference offset pointer →
    copies ≤ offset ∧ offset + alignUp x.2.shape.size 16 ≤ copies + copiesSize arguments
  behind : (ps.zip arguments).Pairwise fun x y => ∀ offset offset' pointer pointer',
    x.1 = .reference offset pointer → y.1 = .reference offset' pointer' →
    offset + alignUp x.2.shape.size 16 ≤ offset'

theorem placeArguments_placing :
    Placing position copies arguments (placeArguments position copies arguments) := by
  induction arguments generalizing position copies with
  | nil => constructor <;> simp [placeArguments]
  | cons a rest ih =>
    have hfirst : Travels position copies a _ := placeArgument_travels
    have hrest : Placing (position + 1) (copies + copySize a) rest _ := ih
    have hcons : placeArguments position copies (a :: rest) =
        placeArgument position copies a ::
          placeArguments (position + 1) (copies + copySize a) rest := rfl
    have hlength : position + (a :: rest).length = position + 1 + rest.length := by
      rw [List.length_cons]
      omega
    have hsize : copiesSize (a :: rest) = copySize a + copiesSize rest := rfl
    have hnext : stackWord position ≤ stackWord (position + 1) := stackWord_mono (by omega)
    have hlast : stackWord (position + 1) ≤ stackWord (position + 1 + rest.length) :=
      stackWord_mono (by omega)
    have hword (h : 4 ≤ position) : stackWord (position + 1) = stackWord position + 8 := by
      unfold stackWord
      omega
    rw [hcons]
    constructor
    case travels =>
      intro earlier x later hsplit
      rw [List.zip_cons_cons] at hsplit
      cases earlier with
      | nil =>
        obtain ⟨rfl, -⟩ := List.cons.inj hsplit
        exact hfirst
      | cons y earlier =>
        obtain ⟨rfl, hlater⟩ := List.cons.inj hsplit
        have htravels := hrest.travels earlier x later hlater
        rw [Nat.add_right_comm, Nat.add_assoc copies] at htravels
        exact htravels
    case ascending =>
      rw [List.flatMap_cons]
      rcases hfirst.words_eq with hwords | ⟨hwords, hposition⟩
      · simpa [hwords] using hrest.ascending
      · rw [hwords]
        refine List.pairwise_cons.2 ⟨fun word hmem => ?_, hrest.ascending⟩
        have hbounds := hrest.bounds word hmem
        have hstep := hword hposition
        omega
    case bounds =>
      intro word hmem
      rw [List.flatMap_cons] at hmem
      rw [hlength]
      rcases List.mem_append.1 hmem with hmem | hmem
      · rcases hfirst.words_eq with hwords | ⟨hwords, hposition⟩
        · simp [hwords] at hmem
        · rw [hwords] at hmem
          obtain rfl := List.mem_singleton.1 hmem
          have hstep := hword hposition
          omega
      · have hbounds := hrest.bounds word hmem
        omega
    case copies =>
      intro x hx offset pointer hoffset
      rw [List.zip_cons_cons] at hx
      rw [hsize]
      rcases List.mem_cons.1 hx with rfl | hx
      · obtain ⟨rfl, hcopy⟩ := hfirst.reference hoffset
        dsimp only
        omega
      · have hbounds := hrest.copies x hx offset pointer hoffset
        omega
    case behind =>
      rw [List.zip_cons_cons]
      refine List.pairwise_cons.2 ⟨fun y hy offset offset' pointer pointer' hx hy' => ?_,
        hrest.behind⟩
      obtain ⟨rfl, hcopy⟩ := hfirst.reference hx
      have hbounds := hrest.copies y hy offset' pointer' hy'
      dsimp only
      omega

/-- A plan for a call. -/
structure Planned (arguments : List ForeignArgument) (result : Option Shape) (plan : Plan) :
    Prop where
  hidden : (∃ r, plan.result = .hidden r) ↔
    ∃ s, result = some s ∧ s.size ≠ 0 ∧ s.size ∉ [1, 2, 4, 8]
  first : ∀ r, plan.result = .hidden r → r = .rcx
  length : plan.arguments.length = arguments.length
  /-- The address of the result takes the first position. -/
  travels : ∀ earlier x later, plan.arguments.zip arguments = earlier ++ x :: later →
    Travels (plan.result.hidden?.length + earlier.length) (copiesSize (earlier.map (·.2))) x.2 x.1
  generals : (plan.result.hidden? ++ plan.arguments.flatMap Placement.generals).Nodup
  vectors : (plan.arguments.flatMap Placement.vectors).Nodup
  words : (plan.arguments.flatMap Placement.words).Nodup
  inside : ∀ word ∈ plan.arguments.flatMap Placement.words, 32 ≤ word ∧ word + 8 ≤ plan.stack
  /-- Neither arguments nor copies of them are in the bytes that the callee may use. -/
  shadow : ∀ x ∈ plan.arguments.zip arguments, ∀ n,
    x.1.Covers plan.stack x.2.shape.size n → 32 ≤ n ∧ n < plan.area
  copies : ∀ x ∈ plan.arguments.zip arguments, ∀ offset pointer,
    x.1 = .reference offset pointer →
    16 ∣ offset ∧ offset + alignUp x.2.shape.size 16 ≤ plan.copies
  apart : (plan.arguments.zip arguments).Pairwise fun x y => ∀ offset offset' pointer pointer',
    x.1 = .reference offset pointer → y.1 = .reference offset' pointer' →
    offset + alignUp x.2.shape.size 16 ≤ offset'
  multiple : 16 ∣ plan.stack ∧ 16 ∣ plan.copies
  stack : plan.stack = alignUp (stackWord (plan.result.hidden?.length + arguments.length)) 16
  total : plan.copies = copiesSize arguments

theorem placeResult_hidden {result : Option Shape} : (∃ r, placeResult result = .hidden r) ↔
    ∃ s, result = some s ∧ s.size ≠ 0 ∧ s.size ∉ [1, 2, 4, 8] := by
  cases result with
  | none => simp [placeResult]
  | some s =>
    have hregister : isRegisterSize s.size = false ↔ s.size ∉ [1, 2, 4, 8] := by
      rw [← isRegisterSize_iff]
      simp
    unfold placeResult
    dsimp only
    split
    case isTrue hsize => simp [hsize]
    case isFalse hsize =>
      split
      case isTrue hhidden =>
        have hmem := hregister.1 (by simpa using hhidden)
        exact ⟨fun _ => ⟨s, rfl, hsize, hmem⟩, fun _ => ⟨.rcx, rfl⟩⟩
      case isFalse hhidden =>
        have hmem : ¬ s.size ∉ [1, 2, 4, 8] := fun hmem => hhidden (by simpa using hregister.2 hmem)
        have hno : ¬ ∃ s', some s = some s' ∧ s'.size ≠ 0 ∧ s'.size ∉ [1, 2, 4, 8] := by
          rintro ⟨_, ⟨⟩, -, hlarge⟩
          exact hmem hlarge
        refine iff_of_false ?_ hno
        rintro ⟨r, hr⟩
        split at hr <;> cases hr

theorem planned_of_first {result : Option Shape}
    (h : (plan arguments result).arguments =
      placeArguments (plan arguments result).result.hidden?.length 0 arguments ∧
      (plan arguments result).stack = alignUp
        (stackWord ((plan arguments result).result.hidden?.length + arguments.length)) 16) :
    Planned arguments result (plan arguments result) := by
  obtain ⟨harguments, hstack⟩ := h
  have hsound : (plan arguments result).Sound arguments := plan_sound result
  have hplacing : Placing (plan arguments result).result.hidden?.length 0 arguments
      (plan arguments result).arguments := harguments ▸ placeArguments_placing
  have htakes : TakesAll (plan arguments result).result.hidden?.length 0 arguments
      (plan arguments result).arguments := harguments ▸ placeArguments_takes
  have hround := hstack ▸ le_alignUp
    (stackWord ((plan arguments result).result.hidden?.length + arguments.length)) 16
  have hshadow (position : Nat) : 32 ≤ stackWord position := Nat.le_add_right 32 _
  constructor
  case hidden => exact placeResult_hidden
  case first => exact fun r hr => hidden_placeResult hr
  case length => exact hsound.length
  case travels =>
    intro earlier x later hsplit
    have htravels := hplacing.travels earlier x later hsplit
    rwa [Nat.zero_add] at htravels
  case generals => exact hsound.generals
  case vectors => exact hsound.vectors
  case words => exact hplacing.ascending.imp Nat.ne_of_lt
  case inside =>
    intro word hmem
    have hbounds := hplacing.bounds word hmem
    have hlower := hshadow (plan arguments result).result.hidden?.length
    omega
  case shadow =>
    intro x hx n hn
    refine ⟨?_, hsound.inside x hx n hn⟩
    have hlower := hshadow (plan arguments result).result.hidden?.length
    have hupper := hshadow ((plan arguments result).result.hidden?.length + arguments.length)
    rcases htakes.covers x hx _ n hn with hword | hcopy <;> omega
  case copies =>
    intro x hx offset pointer hoffset
    obtain ⟨earlier, later, hsplit⟩ := List.append_of_mem hx
    have hcopy := (hplacing.travels earlier x later hsplit).reference hoffset
    have hbounds := hplacing.copies x hx offset pointer hoffset
    rw [Nat.zero_add] at hcopy hbounds
    exact ⟨hcopy.1 ▸ dvd_copiesSize, hbounds.2⟩
  case apart => exact hplacing.behind
  case multiple => exact ⟨hstack ▸ dvd_alignUp (by decide), dvd_copiesSize⟩
  case stack => exact hstack
  case total => rfl

/-- The plan of a call on Microsoft systems, whatever the shapes of its arguments are. There is one
unless the words or the copies of the arguments are more than can be counted. -/
theorem plan_goes_by_position (arguments : List ForeignArgument) (result : Option Shape) :
    Planned arguments result (plan arguments result) ∧ plan? arguments result =
      if (plan arguments result).stack < wordLimit ∧ (plan arguments result).copies < wordLimit then
        .ok (plan arguments result)
      else .error .overflow := by
  refine ⟨planned_of_first ?_, checked_eq _⟩
  unfold plan
  cases placeResult result <;> exact ⟨rfl, rfl⟩

/-- Every copy is a word long, and the three together are not. -/
theorem copies_overflow :
    let arguments := [SystemV.huge, SystemV.huge, SystemV.triple].map (⟨·, false⟩)
    (∀ a ∈ arguments, a.shape.IsLaid) ∧ plan? arguments none = .error .overflow := by
  refine ⟨fun a ha => ?_, rfl⟩
  obtain ⟨s, hs, rfl⟩ := List.mem_map.1 ha
  exact SystemV.long_isLaid s hs

/-- The hidden result moves everything by one, and the fourth argument is behind the registers. -/
example : (plan (List.replicate 4 ⟨.double, true⟩) (some SystemV.pair)).arguments =
    [.both ⟨1⟩ .rdx, .both ⟨2⟩ .r8, .both ⟨3⟩ .r9, .stack 32] := by
  decide

end Microsoft

end RegionCompiler.Convention
