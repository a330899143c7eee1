import RegionCompiler.Codegen.Foreign
import RegionCompiler.Proofs.Codegen.Piece
import RegionCompiler.Proofs.Codegen.Plan
import RegionCompiler.Proofs.Tidy

/-! Calls of C functions keep the stack aligned and give back all of it but the result. -/
namespace RegionCompiler

open Machine

namespace Convention

/-- Registers that hold arguments never say where the frame lies. -/
def Slot.Free : Slot → Prop
  | .general r => r.isFrame = false
  | .vector _ => True

def Placement.Free : Placement → Prop
  | .registers slots => ∀ s ∈ slots, s.Free
  | .both _ r | .reference _ (.register r) => r.isFrame = false
  | .stack _ | .reference _ (.stack _) => True

structure Plan.Fair (p : Plan) : Prop where
  area : 16 ∣ p.area
  arguments : ∀ q ∈ p.arguments, q.Free
  hidden : ∀ r, p.result = .hidden r → r.isFrame = false

theorem SystemV.assign_free {generals : List Register} (hg : ∀ r ∈ generals, r.isFrame = false)
    {vectors : List Xmm} {classes : List EightbyteClass} {slots : List Slot}
    (h : SystemV.assign generals vectors classes = some slots) : ∀ s ∈ slots, s.Free := by
  induction classes generalizing generals vectors slots with
  | nil =>
    cases h
    simp
  | cons c rest ih =>
    have hgeneral : ∀ c : EightbyteClass, c ≠ .sse →
        SystemV.assign generals vectors (c :: rest) = some slots → ∀ s ∈ slots, s.Free := by
      intro c hc h
      cases generals with
      | nil => cases c <;> simp_all [SystemV.assign]
      | cons r generals =>
        have hmap : (SystemV.assign generals vectors rest).map (.general r :: ·) = some slots := by
          cases c <;> simp_all [SystemV.assign]
        obtain ⟨others, hothers, rfl⟩ := Option.map_eq_some_iff.1 hmap
        have hrest := ih (fun x hx => hg x (by simp [hx])) hothers
        simpa [Slot.Free] using ⟨hg r (by simp), hrest⟩
    cases c with
    | sse =>
      cases vectors with
      | nil => cases h
      | cons x vectors =>
        obtain ⟨others, hothers, rfl⟩ := Option.map_eq_some_iff.1 h
        simpa [Slot.Free] using ih hg hothers
    | integer => exact hgeneral _ (by simp) h
    | memory => exact hgeneral _ (by simp) h

theorem SystemV.argumentRegisters_free :
    ∀ r ∈ SystemV.argumentRegisters, r.isFrame = false := by
  decide

theorem SystemV.placeArgument_free (u : SystemV.Used) (a : ForeignArgument) :
    (SystemV.placeArgument u a).1.Free := by
  unfold SystemV.placeArgument
  dsimp only
  split
  · trivial
  · split
    · trivial
    · rename_i hassign
      refine SystemV.assign_free (fun r hr => ?_) hassign
      exact SystemV.argumentRegisters_free r (List.mem_of_mem_drop hr)

theorem SystemV.placeArguments_free (u : SystemV.Used) (arguments : List ForeignArgument) :
    ∀ q ∈ (SystemV.placeArguments u arguments).1, q.Free := by
  induction arguments generalizing u with
  | nil => simp [SystemV.placeArguments]
  | cons a rest ih =>
    intro q hq
    have hcons : (SystemV.placeArguments u (a :: rest)).1 = (SystemV.placeArgument u a).1 ::
        (SystemV.placeArguments (SystemV.placeArgument u a).2 rest).1 := rfl
    rw [hcons] at hq
    rcases List.mem_cons.1 hq with rfl | hq
    · exact SystemV.placeArgument_free u a
    · exact ih _ q hq

theorem SystemV.assign_result {classes : List EightbyteClass} (h : classes.length ≤ 2) :
    ∃ slots, SystemV.assign [.rax, .rdx] [⟨0⟩, ⟨1⟩] classes = some slots := by
  match classes, h with
  | [], _ => exact ⟨_, rfl⟩
  | [c], _ => cases c <;> exact ⟨_, rfl⟩
  | [c, d], _ => cases c <;> cases d <;> exact ⟨_, rfl⟩

theorem SystemV.placeResult_isSome {result : Option Shape}
    (h : ∀ s, result = some s → s.classes.length ≤ 2) :
    ∃ placed, SystemV.placeResult? result = some placed ∧
      ∀ r, placed = .hidden r → r.isFrame = false := by
  cases result with
  | none => exact ⟨_, rfl, by simp⟩
  | some s =>
    unfold SystemV.placeResult?
    dsimp only
    split
    · exact ⟨_, rfl, by simp⟩
    · split
      · refine ⟨_, rfl, ?_⟩
        rintro r ⟨⟩
        rfl
      · obtain ⟨slots, hslots⟩ := SystemV.assign_result (h s rfl)
        exact ⟨_, by rw [hslots]; rfl, by simp⟩

theorem Microsoft.placeArgument_free (position copies : Nat) (a : ForeignArgument) :
    (Microsoft.placeArgument position copies a).Free := by
  have hfree : ∀ r, Microsoft.argumentRegisters[position]? = some r → r.isFrame = false := by
    intro r hr
    have hall : ∀ r ∈ Microsoft.argumentRegisters, r.isFrame = false := by decide
    exact hall r (List.mem_of_getElem? hr)
  unfold Microsoft.placeArgument
  split
  · rename_i r hr
    split
    · exact hfree r hr
    · split
      · exact hfree r hr
      · simp [Placement.Free, Slot.Free]
      · simpa [Placement.Free, Slot.Free] using hfree r hr
  · split <;> trivial

theorem Microsoft.placeArguments_free (position copies : Nat) (arguments : List ForeignArgument) :
    ∀ q ∈ Microsoft.placeArguments position copies arguments, q.Free := by
  induction arguments generalizing position copies with
  | nil => simp [Microsoft.placeArguments]
  | cons a rest ih =>
    intro q hq
    rcases List.mem_cons.1 hq with rfl | hq
    · exact Microsoft.placeArgument_free _ _ _
    · exact ih _ _ q hq

/-- A call of a C function has a plan if its result has at most two parts, or else its areas are
more than can be counted. -/
theorem plan_fair (c : Convention) (arguments : List ForeignArgument) {result : Option Shape}
    (h : ∀ s, result = some s → s.classes.length ≤ 2) :
    ∃ plan : Plan, c.plan? arguments result = plan.checked ∧ plan.Fair := by
  cases c with
  | systemV =>
    obtain ⟨placed, hplaced, hhidden⟩ := SystemV.placeResult_isSome h
    refine ⟨SystemV.plan arguments placed, by rw [plan?, SystemV.plan?, hplaced], ?_, ?_, hhidden⟩
    · exact Nat.dvd_add (dvd_alignUp (by omega)) (Nat.dvd_zero 16)
    · exact SystemV.placeArguments_free _ _
  | microsoft =>
    refine ⟨Microsoft.plan arguments result, rfl, ?_, Microsoft.placeArguments_free _ _ _, ?_⟩
    · exact Nat.dvd_add (dvd_alignUp (by omega)) Microsoft.dvd_copiesSize
    · intro r hr
      cases result with
      | none => cases hr
      | some s =>
        change Microsoft.placeResult (some s) = _ at hr
        unfold Microsoft.placeResult at hr
        dsimp only at hr
        split at hr
        · cases hr
        · split at hr
          · cases hr
            rfl
          · split at hr <;> cases hr

end Convention

namespace Codegen

open Machine.Instr Convention

theorem fillSlots_plain (shape : Shape) (single : Bool) (source : Address) {slots : List Slot}
    (h : ∀ s ∈ slots, s.Free) : ∀ i ∈ fillSlots shape single source slots, i.isPlain := by
  induction slots generalizing source with
  | nil => simp [fillSlots]
  | cons s rest ih =>
    intro i hi
    rcases List.mem_cons.1 hi with rfl | hi
    · cases s with
      | general r =>
        have hr : r.isFrame = false := h (.general r) (by simp)
        cases single
        · simp [fillSlot, isPlain, mov, Operand.isFrame, hr]
        · exact loadSized_plain hr _ _ _
      | vector x => rfl
    · exact ih _ (fun t ht => h t (by simp [ht])) i hi

theorem placeArgument_plain (copies : Nat) (shape : Shape) (source : Address) {p : Placement}
    (h : p.Free) : ∀ i ∈ placeArgument copies shape source p, i.isPlain := by
  cases p with
  | registers slots => exact fillSlots_plain shape _ source h
  | both vector general =>
    have hr : general.isFrame = false := h
    simp [placeArgument, isPlain, mov, Operand.isFrame, hr]
  | stack offset => exact copy_plain _ _ _
  | reference offset pointer =>
    intro i hi
    rcases List.mem_append.1 hi with hi | hi
    · exact copy_plain _ _ _ i hi
    · cases pointer with
      | register r =>
        have hr : r.isFrame = false := h
        simp only [List.mem_singleton] at hi
        simp [hi, isPlain, hr]
      | stack word =>
        simp only [List.mem_cons, List.not_mem_nil, or_false] at hi
        rcases hi with rfl | rfl <;> rfl

theorem placeArguments_plain (copies area : Nat) {placements : List Placement}
    (h : ∀ q ∈ placements, q.Free) (passed : List Passed) :
    ∀ i ∈ placeArguments copies area placements passed, i.isPlain := by
  induction placements generalizing passed with
  | nil => simp [placeArguments]
  | cons p rest ih =>
    cases passed with
    | nil => simp [placeArguments]
    | cons a others =>
      intro i hi
      rcases List.mem_append.1 hi with hi | hi
      · exact placeArgument_plain _ _ _ (h p (by simp)) i hi
      · exact ih (fun q hq => h q (by simp [hq])) others i hi

theorem storeSlots_plain (precision : Precision) (dst : Address) (slots : List Slot) :
    ∀ i ∈ storeSlots precision dst slots, i.isPlain := by
  induction slots generalizing dst with
  | nil => simp [storeSlots]
  | cons s rest ih =>
    intro i hi
    cases s <;>
    · rcases List.mem_cons.1 hi with rfl | hi
      · rfl
      · exact ih _ i hi

theorem callForeign_piece {C : (Label → Spot) → Prop} {n : Nat} (convention : Convention)
    {plan : Plan} (hplan : plan.Fair) {passed : List Passed} (hpassed : 16 ∣ slotsSize passed)
    {symbol : String} (hsymbol : IsName symbol) (result : Option Shape) {a : Spot}
    (ha : a.Aligned) :
    Piece C n n (a.lower (slotsSize passed)) (callForeign convention plan passed symbol result)
      a := by
  have harea : ((a.lower (slotsSize passed)).lower plan.area).Aligned :=
    (ha.lower hpassed).lower hplan.area
  have henter : symbol ≠ Collector.enterSymbol := by
    rintro rfl
    exact hsymbol (by decide)
  have hexit : symbol ≠ Collector.exitSymbol := by
    rintro rfl
    exact hsymbol (by decide)
  unfold callForeign
  refine .append (.append (.append (.append (.append (.append (.lower _ _) (.plain
    (placeArguments_plain _ _ hplan.arguments _))) (.plain ?_)) (.plain ?_))
    (.call harea henter hexit)) (.plain ?_)) ?_
  · intro i hi
    split at hi
    · rename_i r hr
      simp only [List.mem_singleton] at hi
      simp [hi, isPlain, hplan.hidden r hr]
    · cases hi
  · intro i hi
    split at hi
    · simp only [List.mem_singleton] at hi
      rw [hi]
      rfl
    · cases hi
  · intro i hi
    split at hi
    · exact storeSlots_plain _ _ _ i hi
    · cases hi
  · rw [Spot.lower_lower, Nat.add_comm]
    exact .raise _ _

end Codegen

end RegionCompiler
