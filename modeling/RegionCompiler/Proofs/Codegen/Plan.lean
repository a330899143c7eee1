import RegionCompiler.Convention

/-! Plans of foreign calls. Every argument has registers and bytes of the call area to itself, and
they are enough for it. -/
namespace RegionCompiler.Convention

open Machine

namespace Slot

def generals : Slot → List Register
  | general r => [r]
  | vector _ => []

def vectors : Slot → List Xmm
  | general _ => []
  | vector x => [x]

end Slot

namespace Placement

/-- The registers that an argument takes. -/
def generals : Placement → List Register
  | registers slots => slots.flatMap Slot.generals
  | both _ r | reference _ (.register r) => [r]
  | stack _ | reference _ (.stack _) => []

def vectors : Placement → List Xmm
  | registers slots => slots.flatMap Slot.vectors
  | both x _ => [x]
  | stack _ | reference _ _ => []

/-- The bytes that an argument of the given size takes, by their distance from the stack pointer;
`copies` is where the copies start. -/
def Covers (copies size : Nat) (p : Placement) (n : Nat) : Prop :=
  match p with
  | registers _ | both _ _ => False
  | stack offset => offset ≤ n ∧ n < offset + alignUp size 8
  | reference offset (.register _) => copies + offset ≤ n ∧ n < copies + offset + size
  | reference offset (.stack word) =>
    copies + offset ≤ n ∧ n < copies + offset + size ∨ word ≤ n ∧ n < word + 8

/-- Whether all of an argument has a place. -/
def Fits (copies size : Nat) : Placement → Prop
  | registers slots => size ≤ 8 * slots.length
  | both _ _ => size ≤ 8
  | reference _ (.stack word) => word + 8 ≤ copies
  | stack _ | reference _ (.register _) => True

end Placement

/-- A shape as layouts give it: short values have a class for each eight bytes, and numbers fit
their precision. -/
structure Shape.Regular (s : Shape) : Prop where
  classes : s.size ≤ 16 → s.size ≤ 8 * s.classes.length ∧ s.classes.length ≤ 2
  precision : ∀ p, s.precision = some p → s.size = p.width.bytes

abbrev Placed := List (Placement × ForeignArgument)

namespace Placed

/-- No byte is taken by two arguments. -/
def Apart (copies : Nat) (placed : Placed) : Prop :=
  placed.Pairwise fun x y => ∀ n, x.1.Covers copies x.2.shape.size n →
    ¬ y.1.Covers copies y.2.shape.size n

end Placed

/-- The register that takes the address of the result. -/
def ResultPlacement.hidden? : ResultPlacement → List Register
  | hidden r => [r]
  | _ => []

/-- What every plan promises. -/
structure Plan.Sound (plan : Plan) (arguments : List ForeignArgument) : Prop where
  length : plan.arguments.length = arguments.length
  fits : ∀ x ∈ plan.arguments.zip arguments, x.1.Fits plan.stack x.2.shape.size
  generals : (plan.result.hidden? ++ plan.arguments.flatMap Placement.generals).Nodup
  /-- Moving arguments needs `rax` and `r11`. -/
  scratch : ∀ r ∈ plan.result.hidden? ++ plan.arguments.flatMap Placement.generals,
    r ≠ .rax ∧ r ≠ .r11 ∧ r ≠ .rsp ∧ r ≠ .rbp
  vectors : (plan.arguments.flatMap Placement.vectors).Nodup
  apart : Placed.Apart plan.stack (plan.arguments.zip arguments)
  inside : ∀ x ∈ plan.arguments.zip arguments, ∀ n,
    x.1.Covers plan.stack x.2.shape.size n → n < plan.area

theorem checked_eq (p : Plan) : p.checked =
    if p.stack < wordLimit ∧ p.copies < wordLimit then .ok p else .error .overflow := by
  simp [Plan.checked, Plan.fits]

theorem checked_eq_ok {p q : Plan} : p.checked = .ok q ↔ q = p ∧ p.fits := by
  rw [Plan.checked]
  split <;> simp [*, eq_comm]

namespace SystemV

variable {u : Used} {a : ForeignArgument} {arguments : List ForeignArgument}

theorem assign_takes {generals : List Register} {vectors : List Xmm}
    {classes : List EightbyteClass} {slots : List Slot}
    (h : assign generals vectors classes = some slots) :
    slots.length = classes.length ∧ (slots.flatMap Slot.vectors).length = classes.count .sse ∧
    slots.flatMap Slot.generals ++ generals.drop (classes.countP (· != .sse)) = generals ∧
    slots.flatMap Slot.vectors ++ vectors.drop (classes.count .sse) = vectors := by
  induction classes generalizing generals vectors slots with
  | nil =>
    cases h
    simp
  | cons c rest ih =>
    have hgeneral (hc : c ≠ .sse) (r : Register) (others : List Register)
        (hothers : generals = r :: others)
        (hmap : (assign others vectors rest).map (.general r :: ·) = some slots) :
        slots.length = (c :: rest).length ∧
        (slots.flatMap Slot.vectors).length = (c :: rest).count .sse ∧
        slots.flatMap Slot.generals ++ generals.drop ((c :: rest).countP (· != .sse)) = generals ∧
        slots.flatMap Slot.vectors ++ vectors.drop ((c :: rest).count .sse) = vectors := by
      obtain ⟨slots, hslots, rfl⟩ := Option.map_eq_some_iff.1 hmap
      obtain ⟨hlength, hcount, htaken, hleft⟩ := ih hslots
      subst hothers
      simp [hc, hlength, hcount, htaken, hleft, Slot.generals, Slot.vectors]
    cases c with
    | sse =>
      cases vectors with
      | nil => cases h
      | cons x vectors =>
        obtain ⟨slots, hslots, rfl⟩ := Option.map_eq_some_iff.1 h
        obtain ⟨hlength, hcount, htaken, hleft⟩ := ih hslots
        simp [hlength, hcount, htaken, hleft, Slot.generals, Slot.vectors]
    | integer =>
      cases generals with
      | nil => cases h
      | cons r others => exact hgeneral (by decide) r others rfl h
    | memory =>
      cases generals with
      | nil => cases h
      | cons r others => exact hgeneral (by decide) r others rfl h

/-- What the placement of one argument takes, and what it leaves. -/
structure Takes (u u' : Used) (a : ForeignArgument) (p : Placement) : Prop where
  generals : p.generals ++ freeGenerals u' = freeGenerals u
  vectors : p.vectors ++ freeVectors u' = freeVectors u
  count : u'.vector = u.vector + p.vectors.length
  stack : u.stack ≤ u'.stack
  covers : ∀ copies n, p.Covers copies a.shape.size n → u.stack ≤ n ∧ n < u'.stack
  fits : ∀ copies, p.Fits copies a.shape.size

theorem placeArgument_takes (ha : a.shape.Regular) :
    Takes u (placeArgument u a).2 a (placeArgument u a).1 := by
  have honStack : Takes u { u with stack := u.stack + alignUp a.shape.size 8 } a
      (.stack u.stack) := by
    constructor <;> simp [Placement.generals, Placement.vectors, freeGenerals, freeVectors,
      Placement.Covers, Placement.Fits]
  unfold placeArgument
  dsimp only
  split
  case isTrue => exact honStack
  case isFalse hmemory =>
    split
    case h_1 => exact honStack
    case h_2 slots hslots =>
      obtain ⟨hlength, hcount, hgenerals, hvectors⟩ := assign_takes hslots
      have hshort : a.shape.size ≤ 16 := by
        simp [Shape.isMemory] at hmemory
        omega
      constructor
      case generals =>
        simpa [Placement.generals, freeGenerals, List.drop_drop] using hgenerals
      case vectors =>
        simpa [Placement.vectors, freeVectors, List.drop_drop] using hvectors
      case count => rw [Placement.vectors, hcount]
      case stack => exact Nat.le_refl _
      case covers => simp [Placement.Covers]
      case fits =>
        intro copies
        rw [Placement.Fits, hlength]
        exact (ha.classes hshort).1

/-- The same for all arguments. -/
structure TakesAll (u u' : Used) (arguments : List ForeignArgument) (ps : List Placement) :
    Prop where
  length : ps.length = arguments.length
  generals : ps.flatMap Placement.generals ++ freeGenerals u' = freeGenerals u
  vectors : ps.flatMap Placement.vectors ++ freeVectors u' = freeVectors u
  count : u'.vector = u.vector + (ps.flatMap Placement.vectors).length
  stack : u.stack ≤ u'.stack
  covers : ∀ x ∈ ps.zip arguments, ∀ copies n, x.1.Covers copies x.2.shape.size n →
    u.stack ≤ n ∧ n < u'.stack
  fits : ∀ x ∈ ps.zip arguments, ∀ copies, x.1.Fits copies x.2.shape.size
  apart : ∀ copies, Placed.Apart copies (ps.zip arguments)

theorem placeArguments_takes (h : ∀ a ∈ arguments, a.shape.Regular) :
    TakesAll u (placeArguments u arguments).2 arguments (placeArguments u arguments).1 := by
  induction arguments generalizing u with
  | nil =>
    constructor <;> simp [placeArguments, Placed.Apart]
  | cons a rest ih =>
    have hfirst : Takes u _ a _ := placeArgument_takes (h a List.mem_cons_self)
    have hrest := ih (u := (placeArgument u a).2) fun b hb => h b (List.mem_cons_of_mem _ hb)
    have hcons : placeArguments u (a :: rest) =
        ((placeArgument u a).1 :: (placeArguments (placeArgument u a).2 rest).1,
          (placeArguments (placeArgument u a).2 rest).2) := rfl
    rw [hcons]
    have hgrows := hfirst.stack
    have hgrows' := hrest.stack
    constructor
    case length => simp [hrest.length]
    case generals => simp [hrest.generals, hfirst.generals]
    case vectors => simp [hrest.vectors, hfirst.vectors]
    case count =>
      have hcount := hrest.count
      have hcount' := hfirst.count
      rw [List.flatMap_cons, List.length_append]
      dsimp only
      omega
    case stack => exact Nat.le_trans hgrows hgrows'
    case covers =>
      intro x hx copies n hn
      rw [List.zip_cons_cons] at hx
      rcases List.mem_cons.1 hx with rfl | hx
      · have hbounds := hfirst.covers copies n hn
        dsimp only
        omega
      · have hbounds := hrest.covers x hx copies n hn
        dsimp only
        omega
    case fits =>
      intro x hx copies
      rw [List.zip_cons_cons] at hx
      rcases List.mem_cons.1 hx with rfl | hx
      · exact hfirst.fits copies
      · exact hrest.fits x hx copies
    case apart =>
      intro copies
      rw [List.zip_cons_cons]
      refine List.pairwise_cons.2 ⟨fun x hx n hn hn' => ?_, hrest.apart copies⟩
      have hbounds := hfirst.covers copies n hn
      have hbounds' := hrest.covers x hx copies n hn'
      omega

theorem nodup_freeVectors (u : Used) : (freeVectors u).Nodup := by
  have hall : ((List.range vectorCount).map Xmm.mk).Nodup := by decide
  rw [freeVectors, List.map_drop]
  exact hall.sublist (List.drop_sublist _ _)

theorem argumentRegisters_scratch :
    ∀ r ∈ argumentRegisters, r ≠ .rax ∧ r ≠ .r11 ∧ r ≠ .rsp ∧ r ≠ .rbp := by
  decide

theorem sound_of_first {first : Nat} {placed : ResultPlacement}
    (hfirst : (placed.hidden? ++ freeGenerals ⟨first, 0, 0⟩).Sublist argumentRegisters)
    (h : ∀ a ∈ arguments, a.shape.Regular) :
    Plan.Sound ⟨placed, (placeArguments ⟨first, 0, 0⟩ arguments).1,
      alignUp (placeArguments ⟨first, 0, 0⟩ arguments).2.stack 16, 0,
      (placeArguments ⟨first, 0, 0⟩ arguments).2.vector⟩ arguments := by
  have htakes : TakesAll ⟨first, 0, 0⟩ _ arguments _ := placeArguments_takes h
  have hgenerals : (placed.hidden? ++ (placeArguments ⟨first, 0, 0⟩ arguments).1.flatMap
      Placement.generals).Sublist argumentRegisters := by
    refine List.Sublist.trans ?_ hfirst
    rw [← htakes.generals]
    exact List.Sublist.append_left (List.sublist_append_left _ _) _
  constructor
  case length => exact htakes.length
  case fits => exact fun x hx => htakes.fits x hx _
  case generals => exact List.Nodup.sublist hgenerals (by decide)
  case scratch => exact fun r hr => argumentRegisters_scratch r (hgenerals.subset hr)
  case vectors =>
    have hfree := nodup_freeVectors ⟨first, 0, 0⟩
    rw [← htakes.vectors] at hfree
    exact (List.nodup_append.1 hfree).1
  case apart => exact htakes.apart _
  case inside =>
    intro x hx n hn
    have hbounds := htakes.covers x hx _ n hn
    have hround := le_alignUp (placeArguments ⟨first, 0, 0⟩ arguments).2.stack 16
    change n < alignUp _ 16 + 0
    omega

theorem hidden_placeResult {result : Option Shape} {r : Register}
    (h : placeResult? result = some (.hidden r)) : r = .rdi := by
  cases result with
  | none => cases h
  | some s =>
    simp only [placeResult?] at h
    split at h
    · cases h
    · split at h
      · cases h
        rfl
      · obtain ⟨slots, -, hslots⟩ := Option.map_eq_some_iff.1 h
        cases hslots

theorem plan_sound {result : Option Shape} {placed : ResultPlacement}
    (h : ∀ a ∈ arguments, a.shape.Regular) (hplaced : placeResult? result = some placed) :
    (plan arguments placed).Sound arguments ∧ (plan arguments placed).vectors =
      ((plan arguments placed).arguments.flatMap Placement.vectors).length := by
  have hcount (first : Nat) : (placeArguments ⟨first, 0, 0⟩ arguments).2.vector =
      ((placeArguments ⟨first, 0, 0⟩ arguments).1.flatMap Placement.vectors).length := by
    have htakes : TakesAll ⟨first, 0, 0⟩ _ arguments _ := placeArguments_takes h
    simpa using htakes.count
  cases placed with
  | hidden r =>
    rw [hidden_placeResult hplaced]
    exact ⟨sound_of_first (by decide) h, hcount 1⟩
  | nothing => exact ⟨sound_of_first (by decide) h, hcount 0⟩
  | registers slots =>
    exact ⟨sound_of_first (List.Sublist.refl argumentRegisters) h, hcount 0⟩

theorem plan?_eq_ok {result : Option Shape} {p : Plan} (h : plan? arguments result = .ok p) :
    ∃ placed, placeResult? result = some placed ∧ p = plan arguments placed ∧ p.fits := by
  unfold plan? at h
  split at h
  case h_1 => cases h
  case h_2 placed hplaced =>
    obtain ⟨rfl, hfits⟩ := checked_eq_ok.1 h
    exact ⟨placed, hplaced, rfl, hfits⟩

end SystemV

namespace Microsoft

variable {a : ForeignArgument} {arguments : List ForeignArgument} {position copies : Nat}

theorem dvd_copiesSize {arguments : List ForeignArgument} : 16 ∣ copiesSize arguments := by
  induction arguments with
  | nil => exact Nat.dvd_zero 16
  | cons a rest ih =>
    refine Nat.dvd_add ?_ ih
    unfold copySize
    split
    · exact Nat.dvd_zero 16
    · exact dvd_alignUp (by omega)

theorem isRegisterSize_le {n : Nat} (h : isRegisterSize n) : n ≤ 8 ∧ alignUp n 8 ≤ 8 := by
  simp [isRegisterSize] at h
  rcases h with ((rfl | rfl) | rfl) | rfl <;> decide

/-- What the argument at a position may take: the register and the stack word of the position, and
bytes for a copy. -/
structure Takes (position copies : Nat) (a : ForeignArgument) (p : Placement) : Prop where
  generals : p.generals.Sublist argumentRegisters[position]?.toList
  vectors : p.vectors.Sublist ((List.range' position (4 - position)).head?.map Xmm.mk).toList
  covers : ∀ start n, p.Covers start a.shape.size n →
    4 ≤ position ∧ stackWord position ≤ n ∧ n < stackWord (position + 1) ∨
      start + copies ≤ n ∧ n < start + copies + copySize a
  fits : ∀ start, stackWord (position + 1) ≤ start → p.Fits start a.shape.size

theorem placeArgument_takes : Takes position copies a (placeArgument position copies a) := by
  have hcopy : a.shape.size ≤ alignUp a.shape.size 16 := le_alignUp _ _
  unfold placeArgument
  split
  case h_1 r hr =>
    have hposition : position < 4 := (List.getElem?_eq_some_iff.1 hr).1
    have hvector : (List.range' position (4 - position)).head? = some position := by
      obtain ⟨n, hn⟩ : ∃ n, 4 - position = n + 1 := ⟨3 - position, by omega⟩
      rw [hn, List.range'_succ]
      rfl
    split
    case isTrue hsize =>
      constructor <;> simp_all [Placement.generals, Placement.vectors, Placement.Covers,
        Placement.Fits, copySize]
      omega
    case isFalse hsize =>
      have hsize := isRegisterSize_le (by simpa using hsize : isRegisterSize a.shape.size)
      split <;> constructor <;> simp_all [Placement.generals, Placement.vectors,
        Placement.Covers, Placement.Fits, Slot.generals, Slot.vectors]
  case h_2 hnone =>
    have hposition : 4 ≤ position := List.getElem?_eq_none_iff.1 hnone
    have hnext : stackWord (position + 1) = stackWord position + 8 := by
      simp only [stackWord]
      omega
    split
    case isTrue hsize =>
      constructor <;> simp_all [Placement.generals, Placement.vectors, Placement.Covers,
        Placement.Fits, copySize]
      omega
    case isFalse hsize =>
      have hsize := isRegisterSize_le (by simpa using hsize : isRegisterSize a.shape.size)
      constructor <;> simp_all [Placement.generals, Placement.vectors, Placement.Covers,
        Placement.Fits]
      omega

/-- The same for all arguments; the call area has room for their stack words. -/
structure TakesAll (position copies : Nat) (arguments : List ForeignArgument)
    (ps : List Placement) : Prop where
  length : ps.length = arguments.length
  generals : (ps.flatMap Placement.generals).Sublist (argumentRegisters.drop position)
  vectors : (ps.flatMap Placement.vectors).Sublist
    ((List.range' position (4 - position)).map Xmm.mk)
  covers : ∀ x ∈ ps.zip arguments, ∀ start n, x.1.Covers start x.2.shape.size n →
    stackWord position ≤ n ∧ n < stackWord (position + arguments.length) ∨
      start + copies ≤ n ∧ n < start + copies + copiesSize arguments
  fits : ∀ x ∈ ps.zip arguments, ∀ start, stackWord (position + arguments.length) ≤ start →
    x.1.Fits start x.2.shape.size
  apart : ∀ start, stackWord (position + arguments.length) ≤ start →
    Placed.Apart start (ps.zip arguments)

theorem stackWord_mono {m n : Nat} (h : m ≤ n) : stackWord m ≤ stackWord n := by
  simp only [stackWord]
  omega

theorem placeArguments_takes :
    TakesAll position copies arguments (placeArguments position copies arguments) := by
  induction arguments generalizing position copies with
  | nil => constructor <;> simp [placeArguments, Placed.Apart]
  | cons a rest ih =>
    have hfirst : Takes position copies a _ := placeArgument_takes
    have hrest : TakesAll (position + 1) (copies + copySize a) rest _ := ih
    have hcons : placeArguments position copies (a :: rest) =
        placeArgument position copies a ::
          placeArguments (position + 1) (copies + copySize a) rest := rfl
    have hlength : position + (a :: rest).length = position + 1 + rest.length := by
      simp only [List.length_cons]
      omega
    have hsize : copiesSize (a :: rest) = copySize a + copiesSize rest := rfl
    have hnext : stackWord position ≤ stackWord (position + 1) := stackWord_mono (by omega)
    have hlast : stackWord (position + 1) ≤ stackWord (position + 1 + rest.length) :=
      stackWord_mono (by omega)
    rw [hcons]
    constructor
    case length => simp [hrest.length]
    case generals =>
      rw [List.flatMap_cons, List.drop_eq_getElem?_toList_append]
      exact hfirst.generals.append hrest.generals
    case vectors =>
      have hsplit : (List.range' position (4 - position)).map Xmm.mk =
          ((List.range' position (4 - position)).head?.map Xmm.mk).toList ++
            (List.range' (position + 1) (4 - (position + 1))).map Xmm.mk := by
        rcases Nat.lt_or_ge position 4 with hlt | hge
        · obtain ⟨n, hn⟩ : ∃ n, 4 - position = n + 1 := ⟨3 - position, by omega⟩
          rw [show 4 - (position + 1) = n by omega, hn, List.range'_succ]
          rfl
        · rw [show 4 - position = 0 by omega, show 4 - (position + 1) = 0 by omega]
          rfl
      rw [List.flatMap_cons, hsplit]
      exact hfirst.vectors.append hrest.vectors
    case covers =>
      intro x hx start n hn
      rw [List.zip_cons_cons] at hx
      rw [hlength, hsize]
      rcases List.mem_cons.1 hx with rfl | hx
      · have hbounds := hfirst.covers start n hn
        omega
      · have hbounds := hrest.covers x hx start n hn
        omega
    case fits =>
      intro x hx start hstart
      rw [hlength] at hstart
      rw [List.zip_cons_cons] at hx
      rcases List.mem_cons.1 hx with rfl | hx
      · exact hfirst.fits start (by omega)
      · exact hrest.fits x hx start hstart
    case apart =>
      intro start hstart
      rw [hlength] at hstart
      rw [List.zip_cons_cons]
      refine List.pairwise_cons.2 ⟨fun x hx n hn hn' => ?_, hrest.apart start hstart⟩
      have hbounds := hfirst.covers start n hn
      have hbounds' := hrest.covers x hx start n hn'
      omega

theorem argumentRegisters_scratch :
    ∀ r ∈ argumentRegisters, r ≠ .rax ∧ r ≠ .r11 ∧ r ≠ .rsp ∧ r ≠ .rbp := by
  decide

theorem sound_of_first {first : Nat} {placed : ResultPlacement}
    (hfirst : (placed.hidden? ++ argumentRegisters.drop first).Sublist argumentRegisters) :
    Plan.Sound ⟨placed, placeArguments first 0 arguments,
      alignUp (stackWord (first + arguments.length)) 16, copiesSize arguments, 0⟩ arguments := by
  have htakes : TakesAll first 0 arguments _ := placeArguments_takes
  have hround := le_alignUp (stackWord (first + arguments.length)) 16
  have hgenerals : (placed.hidden? ++ (placeArguments first 0 arguments).flatMap
      Placement.generals).Sublist argumentRegisters :=
    (List.Sublist.append_left htakes.generals _).trans hfirst
  constructor
  case length => exact htakes.length
  case fits => exact fun x hx => htakes.fits x hx _ hround
  case generals => exact List.Nodup.sublist hgenerals (by decide)
  case scratch => exact fun r hr => argumentRegisters_scratch r (hgenerals.subset hr)
  case vectors =>
    have hnumbers : (List.range' first (4 - first)).Nodup := List.nodup_range'
    have hvectors : ((List.range' first (4 - first)).map Xmm.mk).Nodup :=
      List.pairwise_map.2 (hnumbers.imp fun hne heq => hne (Xmm.mk.inj heq))
    exact List.Nodup.sublist htakes.vectors hvectors
  case apart => exact htakes.apart _ hround
  case inside =>
    intro x hx n hn
    have hbounds := htakes.covers x hx _ n hn
    change n < alignUp (stackWord (first + arguments.length)) 16 + copiesSize arguments
    dsimp only at hbounds
    omega

theorem hidden_placeResult {result : Option Shape} {r : Register}
    (h : placeResult result = .hidden r) : r = .rcx := by
  cases result with
  | none => cases h
  | some s =>
    simp only [placeResult] at h
    split at h
    · cases h
    · split at h
      · cases h
        rfl
      · split at h <;> cases h

theorem plan_sound (result : Option Shape) : (plan arguments result).Sound arguments := by
  unfold plan
  cases hplaced : placeResult result with
  | hidden r =>
    rw [hidden_placeResult hplaced]
    exact sound_of_first (by decide)
  | nothing => exact sound_of_first (by decide)
  | registers slots => exact sound_of_first (List.Sublist.refl argumentRegisters)

end Microsoft

/-- What a plan promises, on either convention. -/
theorem plan_sound {c : Convention} {arguments : List ForeignArgument} {result : Option Shape}
    {plan : Plan} (h : ∀ a ∈ arguments, a.shape.Regular)
    (hplan : c.plan? arguments result = .ok plan) : plan.Sound arguments := by
  cases c with
  | systemV =>
    obtain ⟨placed, hplaced, rfl, -⟩ := SystemV.plan?_eq_ok hplan
    exact (SystemV.plan_sound h hplaced).1
  | microsoft =>
    obtain ⟨rfl, -⟩ := checked_eq_ok.1 hplan
    exact Microsoft.plan_sound result

end RegionCompiler.Convention
