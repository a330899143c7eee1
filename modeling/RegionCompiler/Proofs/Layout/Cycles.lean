import RegionCompiler.Proofs.Layout.Worklist

/-! Why a record is left without a layout. Records that are never ready are told apart by their own
members alone: one with a member of unknown type is reported for that type, and each other one as if
it were part of a cycle. From such a record a cycle can be reached, or else a record that fails for
another reason. -/
namespace RegionCompiler.Registry

/-- A record that cannot be laid out for what stands in it. -/
def Broken (r : Registry) (shapes : List RecordShape) (s : RecordShape) : Prop :=
  ∃ m ∈ s.members, r.Missing shapes m.2 ∨ m.2.isFunction

section Readiness

variable {r s : Registry} {shape : RecordShape}

theorem isReady_mono (hle : r.Le s) (h : r.isReady shape) : s.isReady shape := by
  refine List.all_eq_true.2 ?_
  rintro ⟨field, t⟩ hm
  have hmember := List.all_eq_true.1 h _ hm
  cases t with
  | base name => exact hle.contains hmember
  | invalid => cases hmember
  | _ => rfl

theorem not_ready_iff : r.isReady shape = false ↔ ∃ m ∈ shape.members,
    m.2 = .invalid ∨ ∃ name, m.2 = .base name ∧ r.contains name = false := by
  rw [isReady, List.all_eq_false]
  refine exists_congr fun m => and_congr_right fun _ => ?_
  obtain ⟨field, t⟩ := m
  cases t <;> simp

theorem not_ready_of_missing {shapes : List RecordShape} {m : String × Ty}
    (hm : m ∈ shape.members) (h : r.Missing shapes m.2) : r.isReady shape = false := by
  refine not_ready_iff.2 ⟨m, hm, ?_⟩
  obtain ⟨field, t⟩ := m
  cases t with
  | invalid => exact .inl rfl
  | base name => exact .inr ⟨name, rfl, by simpa using h.1⟩
  | _ => exact h.elim

theorem stuck_cases (r : Registry) (shapes : List RecordShape) (shape : RecordShape) :
    (∃ m ∈ shape.members, r.Missing shapes m.2 ∧ r.stuck shapes shape = .unknownType m.2) ∨
    ((∀ m ∈ shape.members, ¬ r.Missing shapes m.2) ∧ r.stuck shapes shape = .cycle shape.name) := by
  unfold stuck
  dsimp only
  split
  case h_1 field t hfind =>
    have hfound := List.find?_some hfind
    refine .inl ⟨(field, t), List.mem_of_find?_eq_some hfind, ?_, rfl⟩
    cases t with
    | base name => simpa [Missing] using hfound
    | invalid => trivial
    | _ => cases hfound
  case h_2 hfind =>
    refine .inr ⟨?_, rfl⟩
    rintro ⟨field, t⟩ hm hmissing
    refine List.find?_eq_none.1 hfind _ hm ?_
    cases t with
    | base name => simpa [Missing] using hmissing
    | invalid => rfl
    | _ => exact hmissing.elim

end Readiness

section Rounds

variable {r : Registry} {waiting : List (Nat × RecordShape)} {final : Round}

theorem mem_waiting_round {w : Nat × RecordShape} (hw : w ∈ waiting)
    (h : (r.round waiting).registry.isReady w.2 = false) : w ∈ (r.round waiting).waiting := by
  induction waiting generalizing r with
  | nil => cases hw
  | cons first rest ih =>
    rcases r.round_cons first.1 first.2 rest with
      ⟨next, hready, hnext, hround⟩ | ⟨e, hready, -, hround⟩ | ⟨-, hround⟩ <;> rw [hround] at h ⊢
    · rcases List.mem_cons.1 hw with rfl | hw
      · rw [isReady_mono ((register_le hnext).trans round_le) hready] at h
        cases h
      · exact ih hw h
    · rcases List.mem_cons.1 hw with rfl | hw
      · rw [isReady_mono round_le hready] at h
        cases h
      · exact ih hw h
    · rcases List.mem_cons.1 hw with rfl | hw
      · exact List.mem_cons_self
      · exact List.mem_cons_of_mem _ (ih hw h)

theorem errors_round {i : Nat} {e : LayoutError} (h : (i, e) ∈ (r.round waiting).errors) :
    ∃ s, (i, s) ∈ waiting ∧ ((r.round waiting).registry.contains s.name ∧
      e = .duplicateType s.name ∨ e = .overflow ∨
      ∃ m ∈ s.members, m.2.isFunction ∧ e = .notMaterializable m.2) := by
  induction waiting generalizing r with
  | nil => cases h
  | cons first rest ih =>
    rcases r.round_cons first.1 first.2 rest with
      ⟨next, -, -, hround⟩ | ⟨e', hready, he', hround⟩ | ⟨-, hround⟩ <;> rw [hround] at h ⊢
    · obtain ⟨s, hs, hcause⟩ := ih h
      exact ⟨s, List.mem_cons_of_mem _ hs, hcause⟩
    · rcases List.mem_cons.1 h with heq | h
      · cases heq
        refine ⟨first.2, List.mem_cons_self, ?_⟩
        refine (register_refuses hready he').imp_left fun ⟨hdup, hname⟩ => ⟨?_, hdup⟩
        exact round_le.contains hname
      · obtain ⟨s, hs, hcause⟩ := ih h
        exact ⟨s, List.mem_cons_of_mem _ hs, hcause⟩
    · obtain ⟨s, hs, hcause⟩ := ih h
      exact ⟨s, List.mem_cons_of_mem _ hs, hcause⟩

namespace Settles

/-- Exactly the records that are not ready at the end are left. -/
theorem mem_waiting_iff (h : r.Settles waiting final) {w : Nat × RecordShape} :
    w ∈ final.waiting ↔ w ∈ waiting ∧ final.registry.isReady w.2 = false := by
  refine ⟨fun hw => ⟨h.sublist.subset hw, h.waits w hw⟩, ?_⟩
  rintro ⟨hw, hready⟩
  induction h with
  | last _ => exact mem_waiting_round hw hready
  | @next r waiting final _ hfinal ih =>
    refine ih (mem_waiting_round hw ?_) hready
    by_contra hround
    rw [isReady_mono hfinal.le (by simpa using hround)] at hready
    cases hready

theorem errors (h : r.Settles waiting final) {i : Nat} {e : LayoutError}
    (he : (i, e) ∈ final.errors) : ∃ s, (i, s) ∈ waiting ∧ (final.registry.contains s.name ∧
      e = .duplicateType s.name ∨ e = .overflow ∨
      ∃ m ∈ s.members, m.2.isFunction ∧ e = .notMaterializable m.2) := by
  induction h with
  | last _ => exact errors_round he
  | next _ hfinal ih =>
    rcases List.mem_append.1 he with he | he
    · obtain ⟨s, hs, hcause⟩ := errors_round he
      exact ⟨s, hs, hcause.imp_left fun ⟨hname, hdup⟩ => ⟨hfinal.le.contains hname, hdup⟩⟩
    · obtain ⟨s, hs, hcause⟩ := ih he
      exact ⟨s, round_sublist.subset hs, hcause⟩

end Settles

end Rounds

section Records

variable {r : Registry} {shapes : List RecordShape} {i : Nat} {s : RecordShape}

/-- A record that is not ready at the end has the error that its members give it, and no other
record has an error of such a kind. -/
theorem mem_errors_iff (hs : shapes[i]? = some s) {e : LayoutError}
    (he : (∃ name, e = .cycle name) ∨ ∃ t, e = .unknownType t) :
    (i, e) ∈ (r.registerRecords shapes).2 ↔ (r.registerRecords shapes).1.isReady s = false ∧
      e = (r.registerRecords shapes).1.stuck shapes s := by
  obtain ⟨final, hfinal, hregistry, herrors⟩ := registerRecords_settles r shapes
  rw [herrors.mem_iff, hregistry, List.mem_append]
  constructor
  · rintro (hin | hin)
    · obtain ⟨s', -, hcause⟩ := hfinal.errors hin
      rcases hcause with ⟨-, rfl⟩ | rfl | ⟨m, -, -, rfl⟩ <;> simp at he
    · obtain ⟨⟨j, s'⟩, hw, heq⟩ := List.mem_map.1 hin
      obtain ⟨rfl, rfl⟩ := Prod.mk.inj heq
      obtain ⟨hnumbered, hready⟩ := hfinal.mem_waiting_iff.1 hw
      rw [mem_numbered, hs] at hnumbered
      cases hnumbered
      exact ⟨hready, rfl⟩
  · rintro ⟨hready, rfl⟩
    exact .inr (List.mem_map.2 ⟨(i, s), hfinal.mem_waiting_iff.2 ⟨mem_numbered.2 hs, hready⟩, rfl⟩)

theorem unknownType_iff (hs : shapes[i]? = some s) :
    (∃ t, (i, .unknownType t) ∈ (r.registerRecords shapes).2) ↔
      ∃ m ∈ s.members, (r.registerRecords shapes).1.Missing shapes m.2 := by
  constructor
  · rintro ⟨t, ht⟩
    obtain ⟨-, hstuck⟩ := (mem_errors_iff hs (.inr ⟨t, rfl⟩)).1 ht
    rcases stuck_cases (r.registerRecords shapes).1 shapes s with ⟨m, hm, hmissing, -⟩ | ⟨-, hcycle⟩
    · exact ⟨m, hm, hmissing⟩
    · rw [hcycle] at hstuck
      cases hstuck
  · rintro ⟨m, hm, hmissing⟩
    rcases stuck_cases (r.registerRecords shapes).1 shapes s with ⟨m', -, -, hstuck⟩ | ⟨hnone, -⟩
    · refine ⟨m'.2, (mem_errors_iff hs (.inr ⟨_, rfl⟩)).2 ⟨?_, hstuck.symm⟩⟩
      exact not_ready_of_missing hm hmissing
    · exact absurd hmissing (hnone m hm)

theorem cycle_iff (hs : shapes[i]? = some s) {name : String} :
    (i, .cycle name) ∈ (r.registerRecords shapes).2 ↔ name = s.name ∧
      (∀ m ∈ s.members, ¬ (r.registerRecords shapes).1.Missing shapes m.2) ∧
      ∃ field inner, (field, .base inner) ∈ s.members ∧
        (r.registerRecords shapes).1.contains inner = false := by
  rw [mem_errors_iff hs (.inl ⟨name, rfl⟩), not_ready_iff]
  rcases stuck_cases (r.registerRecords shapes).1 shapes s with
    ⟨m, hm, hmissing, hstuck⟩ | ⟨hnone, hstuck⟩
  · rw [hstuck]
    exact iff_of_false (fun h => nomatch h.2) fun h => h.2.1 m hm hmissing
  · rw [hstuck]
    constructor
    · rintro ⟨⟨⟨field, t⟩, hm, hinvalid | ⟨inner, hinner, hfree⟩⟩, hname⟩
      · exact absurd (by rw [hinvalid]; trivial) (hnone _ hm)
      · cases hname
        exact ⟨rfl, hnone, field, inner, hinner ▸ hm, hfree⟩
    · rintro ⟨rfl, -, field, inner, hm, hfree⟩
      exact ⟨⟨_, hm, .inr ⟨inner, rfl, hfree⟩⟩, rfl⟩

/-- Where no cycle is reached, a record without a layout has one in it that is broken or too
large. -/
theorem exists_broken {start : String}
    (hacyclic : ∀ n, Leads shapes start n → ¬ OnCycle shapes n) (hs : s ∈ shapes)
    (hname : s.name = start) (hfree : (r.registerRecords shapes).1.contains start = false) :
    ∃ s' ∈ shapes, Leads shapes start s'.name ∧
      ((r.registerRecords shapes).1.Broken shapes s' ∨ r.Fails shapes s' .overflow) := by
  obtain ⟨final, hfinal, hregistry, herrors⟩ := registerRecords_settles r shapes
  rw [hregistry] at hfree ⊢
  refine acyclic_induction hacyclic (P := fun n => ∀ s ∈ shapes, s.name = n →
    final.registry.contains n = false → ∃ s' ∈ shapes, Leads shapes n s'.name ∧
      (final.registry.Broken shapes s' ∨ r.Fails shapes s' .overflow)) ?_ s hs hname hfree
  clear hname hfree hs
  rintro n - ih s hs rfl hfree
  by_cases hbroken : final.registry.Broken shapes s
  · exact ⟨s, hs, .refl, .inl hbroken⟩
  by_cases hlarge : r.Fails shapes s .overflow
  · exact ⟨s, hs, .refl, .inr hlarge⟩
  -- The record was not refused, so it still waits for something that it holds.
  obtain ⟨j, hj⟩ := List.mem_iff_getElem?.1 hs
  have hwaits : (j, s) ∈ final.waiting := by
    rcases hfinal.cases (mem_numbered.2 hj) with hin | ⟨e, he⟩ | hwaits
    · rw [hfree] at hin
      cases hin
    · obtain ⟨s', hs', hcause⟩ := hfinal.errors he
      rw [mem_numbered, hj] at hs'
      cases hs'
      rcases hcause with ⟨hin, -⟩ | rfl | ⟨m, hm, hfunction, -⟩
      · rw [hfree] at hin
        cases hin
      · exact absurd ⟨j, hj, herrors.mem_iff.2 (List.mem_append_left _ he)⟩ hlarge
      · exact absurd ⟨m, hm, .inr hfunction⟩ hbroken
    · exact hwaits
  obtain ⟨⟨field, t⟩, hm, hcause⟩ := not_ready_iff.1 (hfinal.waits _ hwaits)
  have hpresent : ¬ final.registry.Missing shapes t := fun h => hbroken ⟨_, hm, .inl h⟩
  rcases hcause with rfl | ⟨inner, rfl, hinner⟩
  · exact absurd trivial hpresent
  · obtain ⟨s', hs', hname⟩ : ∃ s' ∈ shapes, s'.name = inner := by
      by_contra hnone
      refine hpresent ⟨by simp [hinner], fun s' hs' hname => hnone ⟨s', hs', hname⟩⟩
    have hholds : Holds shapes s.name inner := ⟨s, hs, rfl, field, hm⟩
    obtain ⟨other, hother, hleads, hbad⟩ := ih inner hholds s' hs' hname hinner
    exact ⟨other, hother, hleads.head hholds, hbad⟩

end Records

/-- A record with a member of unknown type is reported for that type, and one that still waits for
another record is reported as a cycle. Such a record reaches a cycle, or else it holds a record,
directly or through others, that is broken or that is too large. -/
theorem stuck_reported (r : Registry) (shapes : List RecordShape) (i : Fin shapes.length) :
    ((∃ t, (i.val, .unknownType t) ∈ (r.registerRecords shapes).2) ↔
      ∃ m ∈ shapes[i].members, (r.registerRecords shapes).1.Missing shapes m.2) ∧
    (∀ name, (i.val, .cycle name) ∈ (r.registerRecords shapes).2 ↔ name = shapes[i].name ∧
      (∀ m ∈ shapes[i].members, ¬ (r.registerRecords shapes).1.Missing shapes m.2) ∧
      ∃ field inner, (field, .base inner) ∈ shapes[i].members ∧
        (r.registerRecords shapes).1.contains inner = false) ∧
    ∀ name, (i.val, .cycle name) ∈ (r.registerRecords shapes).2 →
      (∃ inner, Leads shapes name inner ∧ OnCycle shapes inner) ∨
      ∃ s ∈ shapes, Relation.TransGen (Holds shapes) name s.name ∧
        ((r.registerRecords shapes).1.Broken shapes s ∨ r.Fails shapes s .overflow) := by
  have hs : shapes[i.val]? = some shapes[i] := List.getElem?_eq_getElem i.isLt
  refine ⟨unknownType_iff hs, fun name => cycle_iff hs, fun name hcycle => ?_⟩
  obtain ⟨rfl, hnone, field, inner, hm, hfree⟩ := (cycle_iff hs).1 hcycle
  have hholds : Holds shapes shapes[i].name inner := ⟨shapes[i], List.getElem_mem _, rfl, field, hm⟩
  by_contra hneither
  rw [not_or] at hneither
  obtain ⟨hacyclic, hsound⟩ := hneither
  obtain ⟨s', hs', hname⟩ : ∃ s' ∈ shapes, s'.name = inner := by
    by_contra hnone'
    refine hnone _ hm ⟨by simp [hfree], fun s' hs' hname => hnone' ⟨s', hs', hname⟩⟩
  have hinside : ∀ n, Leads shapes inner n → ¬ OnCycle shapes n :=
    fun n hn honCycle => hacyclic ⟨n, hn.head hholds, honCycle⟩
  obtain ⟨s, hs, hleads, hbroken⟩ := exists_broken hinside hs' hname hfree
  exact hsound ⟨s, hs, Relation.TransGen.head' hholds hleads, hbroken⟩

/-- A record that holds one with a member of unknown type. -/
def misnamedShapes : List RecordShape :=
  [⟨"A", [("b", .base "B")]⟩, ⟨"B", [("m", .base "Missing")]⟩]

/-- The record is reported as a cycle, and there is none. -/
theorem misnamed_as_cycle :
    (0, .cycle "A") ∈ (initial.registerRecords misnamedShapes).2 ∧
    Holds misnamedShapes "A" "B" ∧ Holds misnamedShapes "B" "Missing" ∧
    (initial.registerRecords misnamedShapes).1.Missing misnamedShapes (.base "Missing") ∧
    ∀ name, ¬ OnCycle misnamedShapes name := by
  have hedges : ∀ outer inner, Holds misnamedShapes outer inner →
      outer = "A" ∧ inner = "B" ∨ outer = "B" ∧ inner = "Missing" := by
    rintro outer inner ⟨s, hs, rfl, field, hfield⟩
    simp only [misnamedShapes, List.mem_cons, List.not_mem_nil, or_false] at hs
    rcases hs with rfl | rfl <;> simp at hfield <;> simp [hfield]
  have hfirst : misnamedShapes[0]? = some ⟨"A", [("b", .base "B")]⟩ := rfl
  have hsecond : misnamedShapes[1]? = some ⟨"B", [("m", .base "Missing")]⟩ := rfl
  refine ⟨(cycle_iff hfirst).2 ⟨rfl, ?_, "b", "B", by simp, rfl⟩,
    ⟨_, List.mem_of_getElem? hfirst, rfl, "b", by simp⟩,
    ⟨_, List.mem_of_getElem? hsecond, rfl, "m", by simp⟩, ?_, ?_⟩
  · simp [Missing, misnamedShapes]
  · exact ⟨by decide, by decide⟩
  · intro name hcycle
    -- Nothing is held by `Missing`, which every way of three steps would have to leave.
    obtain ⟨second, hsecond, hrest⟩ := hcycle.inside
    obtain ⟨third, hthird, hend⟩ := hrest.inside
    obtain ⟨fourth, hfourth, -⟩ := hend.inside
    rcases hedges _ _ hsecond with ⟨rfl, rfl⟩ | ⟨rfl, rfl⟩ <;>
      rcases hedges _ _ hthird with ⟨h, rfl⟩ | ⟨h, rfl⟩ <;>
      rcases hedges _ _ hfourth with ⟨h', rfl⟩ | ⟨h', rfl⟩ <;> simp at h h'

end RegionCompiler.Registry
