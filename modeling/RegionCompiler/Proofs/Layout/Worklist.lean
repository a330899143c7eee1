import Mathlib.Data.List.Nodup
import Mathlib.Data.Set.Finite.List
import Mathlib.Logic.Relation
import Mathlib.Order.WellFounded
import RegionCompiler.Proofs.Layout.Placement

/-! Records are registered in rounds, each over the records that still wait. When the rounds end,
whatever order the records are declared in, exactly those have layouts from which no unknown type
and no cycle can be reached; the layouts do not depend on the order, and every other record has one
error. This needs sizes that are words: of records that hold each other twice the sixty-second one
is too large already. -/
namespace RegionCompiler.Registry

/-! ### What records hold -/

/-- A declared record holds values of the named type, and not only pointers to them. -/
def Holds (shapes : List RecordShape) (outer inner : String) : Prop :=
  ∃ s ∈ shapes, s.name = outer ∧ ∃ field, (field, .base inner) ∈ s.members

/-- A value of the second type stands in each one of the first, which also stands in itself. -/
def Leads (shapes : List RecordShape) : String → String → Prop :=
  Relation.ReflTransGen (Holds shapes)

/-- Every value of the type would have another one in it. -/
def OnCycle (shapes : List RecordShape) (name : String) : Prop :=
  Relation.TransGen (Holds shapes) name name

section Holding

variable {shapes : List RecordShape} {start name inner : String}

theorem Holds.mem_names (h : Holds shapes name inner) : name ∈ shapes.map RecordShape.name := by
  obtain ⟨s, hs, rfl, -⟩ := h
  exact List.mem_map_of_mem hs

/-- Where no cycle is reached, a property passes from all that a record holds to the record. -/
theorem acyclic_induction (hacyclic : ∀ n, Leads shapes start n → ¬ OnCycle shapes n)
    {P : String → Prop}
    (step : ∀ n, Leads shapes start n → (∀ inner, Holds shapes n inner → P inner) → P n) :
    P start := by
  let Inner := {n : String // n ∈ shapes.map RecordShape.name ∧ Leads shapes start n}
  have hfinite : Finite Inner := by
    refine Set.Finite.subset (List.finite_toSet (shapes.map RecordShape.name)) ?_
    intro n hn
    exact hn.1
  let Below (a b : Inner) : Prop := Relation.TransGen (Holds shapes) b.1 a.1
  have htrans : IsTrans Inner Below := ⟨fun a b c hab hbc => hbc.trans hab⟩
  have hirrefl : Std.Irrefl Below := ⟨fun a => hacyclic a.1 a.2.2⟩
  have hwf : WellFounded Below := Finite.wellFounded_of_trans_of_irrefl Below
  -- A name that is not declared holds nothing, so the induction is on the declared ones alone.
  have hdeclared : ∀ a : Inner, P a.1 := by
    intro a
    induction a using hwf.induction with
    | h a ih =>
      refine step a.1 a.2.2 fun inner hinner => ?_
      have hleads : Leads shapes start inner := a.2.2.tail hinner
      by_cases hname : inner ∈ shapes.map RecordShape.name
      · exact ih ⟨inner, hname, hleads⟩ (.single hinner)
      · exact step inner hleads fun other hother => absurd hother.mem_names hname
  by_cases hname : start ∈ shapes.map RecordShape.name
  · exact hdeclared ⟨start, hname, .refl⟩
  · exact step start .refl fun other hother => absurd hother.mem_names hname

theorem Leads.head (h : Holds shapes start name) (hrest : Leads shapes name inner) :
    Leads shapes start inner :=
  Relation.ReflTransGen.head h hrest

theorem OnCycle.inside (h : OnCycle shapes name) :
    ∃ inner, Holds shapes name inner ∧ OnCycle shapes inner := by
  obtain ⟨inner, hinner, hback⟩ := Relation.TransGen.head'_iff.1 h
  exact ⟨inner, hinner, Relation.TransGen.tail' hback hinner⟩

end Holding

/-- Neither an unknown type nor a cycle can be reached from the record. -/
structure Orderly (r : Registry) (shapes : List RecordShape) (name : String) : Prop where
  known : ∀ s ∈ shapes, Leads shapes name s.name → ∀ m ∈ s.members, ¬ r.Missing shapes m.2
  acyclic : ∀ inner, Leads shapes name inner → ¬ OnCycle shapes inner

/-- Records under names of their own that are not registered yet, without functions in them. -/
structure Admits (r : Registry) (shapes : List RecordShape) : Prop where
  nodup : (shapes.map RecordShape.name).Nodup
  free : ∀ s ∈ shapes, r.contains s.name = false
  data : ∀ s ∈ shapes, ∀ m ∈ s.members, m.2.isFunction = false

/-- What can be laid out once the records are: whatever it holds is registered or such a record. -/
inductive Grounded (r : Registry) (shapes : List RecordShape) : String → Prop
  | known {name} : r.contains name → Grounded r shapes name
  | record {s} : s ∈ shapes → (∀ m ∈ s.members, m.2 ≠ .invalid) →
      (∀ field inner, (field, .base inner) ∈ s.members → Grounded r shapes inner) →
      Grounded r shapes s.name

/-- What a name stands for is laid out as in C, whether its size can be counted or not. -/
inductive Extent (r : Registry) (shapes : List RecordShape) : String → Layout → Prop
  | known {name l} : r.get? name = some l → Extent r shapes name l
  | record {s ks} (q : Registry) : s ∈ shapes → q.LaysAll s.members ks →
      (∀ field inner l, (field, .base inner) ∈ s.members → q.get? inner = some l →
        Extent r shapes inner l) →
      Extent r shapes s.name (arrange 0 1 s.members ks).layout

/-- All that stands in the record is laid out, and it is more than can be counted. -/
def TooLarge (r : Registry) (s : RecordShape) : Prop :=
  ∃ ks, r.LaysAll s.members ks ∧ wordLimit ≤ (arrange 0 1 s.members ks).layout.size

section Laying

variable {r s : Registry} {members : List (String × Ty)} {ks : List Layout} {shape : RecordShape}

theorem exists_laysAll (h : ∀ m ∈ members, ∃ k, r.layoutOf m.2 = .ok k) :
    ∃ ks, r.LaysAll members ks := by
  induction members with
  | nil => exact ⟨[], .nil⟩
  | cons first rest ih =>
    obtain ⟨k, hk⟩ := h first List.mem_cons_self
    obtain ⟨ks, hks⟩ := ih fun m hm => h m (List.mem_cons_of_mem _ hm)
    exact ⟨k :: ks, .cons hk hks⟩

theorem LaysAll.layoutOf (h : r.LaysAll members ks) {m : String × Ty} (hm : m ∈ members) :
    ∃ k, r.layoutOf m.2 = .ok k := by
  induction h with
  | nil => cases hm
  | cons hk _ ih =>
    rcases List.mem_cons.1 hm with rfl | hm
    · exact ⟨_, hk⟩
    · exact ih hm

theorem LaysAll.congr (h : r.LaysAll members ks)
    (hle : ∀ field inner l, (field, .base inner) ∈ members → r.get? inner = some l →
      s.get? inner = some l) : s.LaysAll members ks := by
  induction h with
  | nil => exact .nil
  | @cons m k rest ks hk _ ih =>
    refine .cons ?_ (ih fun field inner l hm => hle field inner l (List.mem_cons_of_mem _ hm))
    obtain ⟨field, t⟩ := m
    cases t with
    | base inner =>
      exact layoutOf_base.2 (hle field inner k List.mem_cons_self (layoutOf_base.1 hk))
    | _ => exact hk

theorem LaysAll.mono (h : r.LaysAll members ks) (hle : r.Le s) : s.LaysAll members ks :=
  h.congr fun _ inner l _ hl => hle inner l hl

theorem isReady_of_laysAll (h : r.LaysAll shape.members ks) : r.isReady shape := by
  refine List.all_eq_true.2 ?_
  rintro ⟨field, t⟩ hm
  obtain ⟨k, hk⟩ := h.layoutOf hm
  cases t with
  | base inner => exact contains_of_layoutOf hk
  | invalid => cases hk
  | _ => rfl

theorem TooLarge.mono (h : r.TooLarge shape) (hle : r.Le s) : s.TooLarge shape := by
  obtain ⟨ks, hks, hsize⟩ := h
  exact ⟨ks, hks.mono hle, hsize⟩

theorem exists_registry {P : String → Layout → Prop}
    (h : ∀ field inner, (field, .base inner) ∈ members → ∃ l, P inner l) :
    ∃ q : Registry, (∀ field inner, (field, .base inner) ∈ members → q.contains inner) ∧
      ∀ inner l, q.get? inner = some l → P inner l := by
  induction members with
  | nil => exact ⟨⟨[]⟩, by simp, nofun⟩
  | cons first rest ih =>
    obtain ⟨q, hin, hlaid⟩ := ih fun field inner hm => h field inner (List.mem_cons_of_mem _ hm)
    obtain ⟨field, t⟩ := first
    cases t with
    | base name =>
      obtain ⟨l, hl⟩ := h field name List.mem_cons_self
      refine ⟨q.insert name l, fun field' inner hm => ?_, fun inner k hk => ?_⟩
      · rcases List.mem_cons.1 hm with heq | hm
        · cases heq
          simp [contains, get?_insert]
        · have hold := hin field' inner hm
          simp only [contains, get?_insert, Option.isSome_or, Bool.or_eq_true] at hold ⊢
          exact .inl hold
      · rw [get?_insert, Option.or_eq_some_iff] at hk
        rcases hk with hold | ⟨-, hnew⟩
        · exact hlaid inner k hold
        · obtain ⟨rfl, rfl⟩ : inner = name ∧ l = k := by simpa using hnew
          exact hl
    | _ =>
      refine ⟨q, fun field' inner hm => ?_, hlaid⟩
      rcases List.mem_cons.1 hm with heq | hm
      · cases heq
      · exact hin field' inner hm

end Laying

section Grounding

variable {r : Registry} {shapes : List RecordShape} {name : String}

theorem Admits.eq_of_name (h : r.Admits shapes) {s s' : RecordShape} (hs : s ∈ shapes)
    (hs' : s' ∈ shapes) (hname : s.name = s'.name) : s = s' :=
  List.inj_on_of_nodup_map h.nodup hs hs' hname

theorem Admits.holds_iff (h : r.Admits shapes) {s : RecordShape} (hs : s ∈ shapes)
    {inner : String} :
    Holds shapes s.name inner ↔ ∃ field, (field, .base inner) ∈ s.members := by
  constructor
  · rintro ⟨s', hs', hname, hfield⟩
    rwa [← h.eq_of_name hs' hs hname]
  · exact fun hfield => ⟨s, hs, rfl, hfield⟩

theorem Admits.not_holds (h : r.Admits shapes) (hname : r.contains name) {inner : String} :
    ¬ Holds shapes name inner := by
  rintro ⟨s, hs, rfl, -⟩
  rw [h.free s hs] at hname
  cases hname

theorem Grounded.not_missing (h : r.Grounded shapes name) : ¬ r.Missing shapes (.base name) := by
  rintro ⟨hnot, hother⟩
  cases h with
  | known hname => exact hnot hname
  | record hs _ _ => exact hother _ hs rfl

theorem Grounded.orderly (hshapes : r.Admits shapes) (h : r.Grounded shapes name) :
    r.Orderly shapes name := by
  induction h with
  | @known name hname =>
    have hends : ∀ inner, Leads shapes name inner → inner = name := by
      intro inner hleads
      obtain rfl | ⟨other, hother, -⟩ := Relation.ReflTransGen.cases_head hleads
      · rfl
      · exact absurd hother (hshapes.not_holds hname)
    constructor
    · intro s hs hleads
      have hfree := hshapes.free s hs
      rw [hends _ hleads, hname] at hfree
      cases hfree
    · intro inner hleads hcycle
      obtain ⟨other, hother, -⟩ := hcycle.inside
      rw [hends inner hleads] at hother
      exact hshapes.not_holds hname hother
  | @record s hs hvalid hmembers ih =>
    have hinside : ∀ inner, Holds shapes s.name inner → r.Orderly shapes inner := by
      intro inner hinner
      obtain ⟨field, hfield⟩ := (hshapes.holds_iff hs).1 hinner
      exact ih field inner hfield
    constructor
    · intro s' hs' hleads
      obtain hself | ⟨inner, hinner, hrest⟩ := Relation.ReflTransGen.cases_head hleads
      · obtain rfl := hshapes.eq_of_name hs hs' hself
        rintro ⟨field, t⟩ hm hmissing
        cases t with
        | invalid => exact hvalid _ hm rfl
        | base inner => exact (hmembers field inner hm).not_missing hmissing
        | _ => exact hmissing
      · exact (hinside inner hinner).known s' hs' hrest
    · intro inner hleads hcycle
      obtain rfl | ⟨other, hother, hrest⟩ := Relation.ReflTransGen.cases_head hleads
      · obtain ⟨other, hother, hcycle⟩ := hcycle.inside
        exact (hinside other hother).acyclic other .refl hcycle
      · exact (hinside other hother).acyclic inner hrest hcycle

theorem Orderly.grounded (h : r.Orderly shapes name) {s : RecordShape} (hs : s ∈ shapes)
    (hname : s.name = name) : r.Grounded shapes name := by
  subst hname
  have hall := acyclic_induction h.acyclic
    (P := fun n => ∀ s' ∈ shapes, s'.name = n → r.Grounded shapes n) ?_
  · exact hall s hs rfl
  · rintro n hleads ih s' hs' rfl
    have hknown := h.known s' hs' hleads
    refine .record hs' (fun m hm hinvalid => ?_) fun field inner hm => ?_
    · exact hknown m hm (by rw [hinvalid]; trivial)
    · by_cases hinner : r.contains inner
      · exact .known hinner
      · obtain ⟨s'', hs'', hname⟩ : ∃ s'' ∈ shapes, s''.name = inner := by
          by_contra hnone
          refine hknown (field, .base inner) hm ⟨hinner, fun s'' hs'' hname => ?_⟩
          exact hnone ⟨s'', hs'', hname⟩
        exact ih inner ⟨s', hs', rfl, field, hm⟩ s'' hs'' hname

theorem Extent.grounded {l : Layout} (h : r.Extent shapes name l) : r.Grounded shapes name := by
  induction h with
  | known hl => exact .known (by simp [contains, hl])
  | record q hs hks _ ih =>
    refine .record hs (fun m hm hinvalid => ?_) fun field inner hm => ?_
    · obtain ⟨k, hk⟩ := LaysAll.layoutOf hks hm
      rw [hinvalid] at hk
      cases hk
    · obtain ⟨k, hk⟩ := LaysAll.layoutOf hks hm
      exact ih field inner k hm (layoutOf_base.1 hk)

theorem Grounded.extent (hshapes : r.Admits shapes) (h : r.Grounded shapes name) :
    ∃ l, r.Extent shapes name l := by
  induction h with
  | known hname =>
    obtain ⟨l, hl⟩ := Option.isSome_iff_exists.1 hname
    exact ⟨l, .known hl⟩
  | @record s hs hvalid _ ih =>
    obtain ⟨q, hin, hlaid⟩ := exists_registry ih
    obtain ⟨ks, hks⟩ : ∃ ks, q.LaysAll s.members ks := by
      refine exists_laysAll fun m hm => ?_
      obtain ⟨field, t⟩ := m
      cases t with
      | base inner =>
        obtain ⟨k, hk⟩ := Option.isSome_iff_exists.1 (hin field inner hm)
        exact ⟨k, layoutOf_base.2 hk⟩
      | pointer t => exact ⟨_, rfl⟩
      | array t n => exact ⟨_, rfl⟩
      | invalid => exact absurd rfl (hvalid _ hm)
      | function t ps v f => cases hshapes.data s hs _ hm
    exact ⟨_, .record q hs hks fun field inner l _ hl => hlaid inner l hl⟩

end Grounding

/-! ### Rounds -/

abbrev numbered (shapes : List RecordShape) : List (Nat × RecordShape) :=
  (List.range shapes.length).zip shapes

/-- Rounds follow each other until one leaves as many records waiting as there were. -/
inductive Settles : Registry → List (Nat × RecordShape) → Round → Prop
  | last {r waiting} : (r.round waiting).waiting.length = waiting.length →
      Settles r waiting (r.round waiting)
  | next {r waiting final} : (r.round waiting).waiting.length < waiting.length →
      Settles (r.round waiting).registry (r.round waiting).waiting final →
      Settles r waiting { final with errors := (r.round waiting).errors ++ final.errors }

section Rounds

variable {r : Registry} {waiting : List (Nat × RecordShape)} {final : Round}

/-- A round that leaves all records waiting does nothing, since none of them is ready. -/
theorem round_idle (h : (r.round waiting).waiting.length = waiting.length) :
    r.round waiting = ⟨r, [], waiting⟩ ∧ ∀ w ∈ waiting, r.isReady w.2 = false := by
  induction waiting with
  | nil => exact ⟨rfl, by simp⟩
  | cons first rest ih =>
    have hshort (s : Registry) : (s.round rest).waiting.length ≤ rest.length :=
      round_sublist.length_le
    rcases r.round_cons first.1 first.2 rest with
      ⟨next, -, -, hround⟩ | ⟨e, -, -, hround⟩ | ⟨hwaits, hround⟩ <;>
      rw [hround, List.length_cons] at h
    · have hle := hshort next
      omega
    · have hle : (r.round rest).waiting.length ≤ rest.length := hshort r
      dsimp only at h
      omega
    · obtain ⟨hidle, hrest⟩ := ih (by simpa using h)
      rw [hround, hidle]
      exact ⟨rfl, List.forall_mem_cons.2 ⟨hwaits, hrest⟩⟩

theorem settles_rounds {n : Nat} (h : waiting.length ≤ n) :
    r.Settles waiting (r.rounds waiting n) := by
  induction n generalizing r waiting with
  | zero =>
    obtain rfl : waiting = [] := List.length_eq_zero_iff.1 (Nat.le_zero.1 h)
    exact .last rfl
  | succ n ih =>
    rcases r.rounds_succ waiting n with ⟨hprogress, hrounds⟩ | ⟨hstop, hrounds⟩ <;> rw [hrounds]
    · exact .next hprogress (ih (by omega))
    · exact .last (Nat.le_antisymm round_sublist.length_le hstop)

namespace Settles

theorem waits (h : r.Settles waiting final) :
    ∀ w ∈ final.waiting, final.registry.isReady w.2 = false := by
  induction h with
  | last hstop =>
    obtain ⟨hround, hwaits⟩ := round_idle hstop
    rw [hround]
    exact hwaits
  | next _ _ ih => exact ih

theorem sublist (h : r.Settles waiting final) : final.waiting.Sublist waiting := by
  induction h with
  | last _ => exact round_sublist
  | next _ _ ih => exact ih.trans round_sublist

theorem le (h : r.Settles waiting final) : r.Le final.registry := by
  induction h with
  | last _ => exact round_le
  | next _ _ ih => exact round_le.trans ih

theorem grown (h : r.Settles waiting final) (hr : r.Grown) : final.registry.Grown := by
  induction h with
  | last _ => exact hr.round _
  | next _ _ ih => exact ih (hr.round _)

theorem cases (h : r.Settles waiting final) {w : Nat × RecordShape} (hw : w ∈ waiting) :
    final.registry.contains w.2.name ∨ (∃ e, (w.1, e) ∈ final.errors) ∨ w ∈ final.waiting := by
  induction h with
  | last _ => exact round_cases hw
  | next _ hfinal ih =>
    rcases round_cases (r := _) hw with hin | ⟨e, he⟩ | hwaits
    · exact .inl (hfinal.le.contains hin)
    · exact .inr (.inl ⟨e, List.mem_append_left _ he⟩)
    · refine (ih hwaits).imp_right (.imp_left ?_)
      rintro ⟨e, he⟩
      exact ⟨e, List.mem_append_right _ he⟩

end Settles

theorem get?_round {name : String} {l : Layout}
    (h : (r.round waiting).registry.get? name = some l) :
    r.get? name = some l ∨ ∃ w ∈ waiting, w.2.name = name ∧
      (r.round waiting).registry.recordLayout w.2.members = .ok l := by
  induction waiting generalizing r with
  | nil => exact .inl h
  | cons first rest ih =>
    have hrest {s : Registry} (hs : (s.round rest).registry.get? name = some l) :
        s.get? name = some l ∨ ∃ w ∈ first :: rest, w.2.name = name ∧
          (s.round rest).registry.recordLayout w.2.members = .ok l :=
      (ih hs).imp_right fun ⟨w, hw, hlaid⟩ => ⟨w, List.mem_cons_of_mem _ hw, hlaid⟩
    rcases r.round_cons first.1 first.2 rest with
      ⟨next, -, hnext, hround⟩ | ⟨e, -, -, hround⟩ | ⟨-, hround⟩ <;> rw [hround] at h ⊢
    · rcases hrest h with hin | hlater
      · rcases get?_register hnext hin with hold | ⟨rfl, hnew⟩
        · exact .inl hold
        · refine .inr ⟨first, List.mem_cons_self, rfl, ?_⟩
          exact recordLayout_mono ((register_le hnext).trans round_le) hnew
      · exact .inr hlater
    · exact hrest h
    · exact hrest h

theorem Settles.get? (h : r.Settles waiting final) {name : String} {l : Layout}
    (hl : final.registry.get? name = some l) :
    r.get? name = some l ∨ ∃ w ∈ waiting, w.2.name = name ∧
      final.registry.recordLayout w.2.members = .ok l := by
  induction h with
  | last _ => exact get?_round hl
  | next _ hfinal ih =>
    rcases ih hl with hin | ⟨w, hw, hlaid⟩
    · refine (get?_round hin).imp_right ?_
      rintro ⟨w, hw, hname, hlaid⟩
      exact ⟨w, hw, hname, recordLayout_mono hfinal.le hlaid⟩
    · exact .inr ⟨w, round_sublist.subset hw, hlaid⟩

end Rounds

/-! ### Records that are admitted -/

section Admitted

variable {r : Registry} {waiting : List (Nat × RecordShape)} {final : Round}

/-- Only records that are too large are refused. -/
def Oversized (waiting : List (Nat × RecordShape)) (final : Round) : Prop :=
  ∀ i e, (i, e) ∈ final.errors → e = .overflow ∧
    ∃ s, (i, s) ∈ waiting ∧ final.registry.TooLarge s

theorem Admits.tooLarge (h : r.Admits (waiting.map Prod.snd)) (hr : r.Grown)
    {w : Nat × RecordShape} (hw : w ∈ waiting) (hready : r.isReady w.2) {e : LayoutError}
    (he : r.register w.2.name w.2.members = .error e) : e = .overflow ∧ r.TooLarge w.2 := by
  have hs : w.2 ∈ waiting.map Prod.snd := List.mem_map_of_mem hw
  have hdata := h.data w.2 hs
  obtain ⟨ks, hks⟩ : ∃ ks, r.LaysAll w.2.members ks := by
    refine exists_laysAll fun m hm => ?_
    rcases layoutOf_of_ready hready hm with hk | ⟨hfunction, -⟩
    · exact hk
    · rw [hdata m hm] at hfunction
      cases hfunction
  rw [hr.register_arrange hks (h.free w.2 hs)] at he
  split at he
  case isTrue => cases he
  case isFalse hsize =>
    cases he
    exact ⟨rfl, ks, hks, Nat.not_lt.1 hsize⟩

theorem Admits.round (h : r.Admits (waiting.map Prod.snd)) (hr : r.Grown) :
    Oversized waiting (r.round waiting) ∧
    (r.round waiting).registry.Admits ((r.round waiting).waiting.map Prod.snd) := by
  induction waiting generalizing r with
  | nil => exact ⟨nofun, h⟩
  | cons first rest ih =>
    obtain ⟨hfirst, hnodup⟩ := List.nodup_cons.1 h.nodup
    have hfresh : ∀ s ∈ rest.map Prod.snd, s.name ≠ first.2.name := by
      intro s hs heq
      exact hfirst (heq ▸ List.mem_map_of_mem hs)
    have hrest : r.Admits (rest.map Prod.snd) :=
      ⟨hnodup, fun s hs => h.free s (List.mem_cons_of_mem _ hs),
        fun s hs => h.data s (List.mem_cons_of_mem _ hs)⟩
    have hfree : r.contains first.2.name = false := h.free first.2 List.mem_cons_self
    have hbehind {q : Registry} (hover : Oversized rest (q.round rest)) {i : Nat} {e : LayoutError}
        (he : (i, e) ∈ (q.round rest).errors) : e = .overflow ∧
          ∃ s, (i, s) ∈ first :: rest ∧ (q.round rest).registry.TooLarge s := by
      obtain ⟨hoverflow, s, hs, hlarge⟩ := hover i e he
      exact ⟨hoverflow, s, List.mem_cons_of_mem _ hs, hlarge⟩
    rcases r.round_cons first.1 first.2 rest with
      ⟨next, -, hnext, hround⟩ | ⟨e, hready, he, hround⟩ | ⟨-, hround⟩
    · have hadmits : next.Admits (rest.map Prod.snd) := by
        refine ⟨hnodup, fun s hs => ?_, hrest.data⟩
        rw [contains, Option.isSome_eq_false_iff, Option.isNone_iff_eq_none]
        by_contra hin
        obtain ⟨l, hl⟩ := Option.ne_none_iff_exists'.1 hin
        rcases get?_register hnext hl with hold | ⟨hname, -⟩
        · have hnone := hrest.free s hs
          simp [contains, hold] at hnone
        · exact hfresh s hs hname
      obtain ⟨hover, hafter⟩ := ih hadmits (hr.register hnext)
      rw [hround]
      exact ⟨fun i e he => hbehind hover he, hafter⟩
    · obtain ⟨hover, hafter⟩ := ih hrest hr
      rw [hround]
      refine ⟨fun i e' he' => ?_, hafter⟩
      rcases List.mem_cons.1 he' with heq | he'
      · obtain ⟨rfl, hlarge⟩ := h.tooLarge hr List.mem_cons_self hready he
        cases heq
        exact ⟨rfl, first.2, List.mem_cons_self, hlarge.mono round_le⟩
      · exact hbehind hover he'
    · obtain ⟨hover, hafter⟩ := ih hrest hr
      have hwaits : ((r.round rest).waiting.map Prod.snd).Sublist (rest.map Prod.snd) :=
        round_sublist.map Prod.snd
      rw [hround]
      refine ⟨fun i e he => hbehind hover he, List.nodup_cons.2 ⟨?_, hafter.nodup⟩,
        List.forall_mem_cons.2 ⟨?_, hafter.free⟩,
        List.forall_mem_cons.2 ⟨h.data first.2 List.mem_cons_self, hafter.data⟩⟩
      · exact fun hin => hfirst ((hwaits.map RecordShape.name).subset hin)
      · rw [contains, Option.isSome_eq_false_iff, Option.isNone_iff_eq_none]
        by_contra hin
        obtain ⟨l, hl⟩ := Option.ne_none_iff_exists'.1 hin
        rcases get?_round hl with hold | ⟨w, hw, hname, -⟩
        · simp [contains, hold] at hfree
        · exact hfresh w.2 (List.mem_map_of_mem hw) hname

namespace Settles

theorem admits (h : r.Settles waiting final) (hr : r.Grown)
    (hadmits : r.Admits (waiting.map Prod.snd)) :
    Oversized waiting final ∧ final.registry.Admits (final.waiting.map Prod.snd) := by
  induction h with
  | last _ => exact hadmits.round hr
  | next _ hfinal ih =>
    obtain ⟨hfirst, hafter⟩ := hadmits.round hr
    obtain ⟨hlater, hleft⟩ := ih (hr.round _) hafter
    refine ⟨fun i e he => ?_, hleft⟩
    rcases List.mem_append.1 he with he | he
    · obtain ⟨hoverflow, s, hs, hlarge⟩ := hfirst i e he
      exact ⟨hoverflow, s, hs, hlarge.mono hfinal.le⟩
    · obtain ⟨hoverflow, s, hs, hlarge⟩ := hlater i e he
      exact ⟨hoverflow, s, round_sublist.subset hs, hlarge⟩

theorem extent (h : r.Settles waiting final) (hr : r.Grown) {name : String} {l : Layout}
    (hl : final.registry.get? name = some l) : r.Extent (waiting.map Prod.snd) name l := by
  have hfinal := h.grown hr
  -- By induction on containment in the final registry, which is well-founded.
  induction name using hfinal.inside_wellFounded.induction generalizing l with
  | h name ih =>
    rcases h.get? hl with hold | ⟨w, hw, rfl, hlaid⟩
    · exact .known hold
    · obtain ⟨ks, hks⟩ := laysAll_of_recordLayout hlaid
      rw [← hfinal.layout_eq hks hlaid]
      refine .record _ (List.mem_map_of_mem hw) hks fun field inner k hm hk => ih inner ?_ hk
      rw [← (recordLayout_spec hlaid).1] at hm
      obtain ⟨m, hm, heq⟩ := List.mem_map.1 hm
      exact ⟨l, hl, m, hm, (Prod.mk.inj heq).2⟩

theorem get?_of_extent (h : r.Settles waiting final) (hr : r.Grown)
    (hadmits : r.Admits (waiting.map Prod.snd)) {name : String} {l : Layout}
    (hextent : r.Extent (waiting.map Prod.snd) name l) :
    final.registry.get? name = some l ∨ final.errors ≠ [] := by
  by_cases hnone : final.errors = []
  case neg => exact .inr hnone
  refine .inl ?_
  induction hextent with
  | known hl => exact h.le _ _ hl
  | @record s ks q hs hks _ ih =>
    have hlaid : final.registry.LaysAll s.members ks := LaysAll.congr hks ih
    obtain ⟨w, hw, rfl⟩ := List.mem_map.1 hs
    rcases h.cases hw with hin | ⟨e, he⟩ | hwaits
    · obtain ⟨l, hl⟩ := Option.isSome_iff_exists.1 hin
      rcases h.get? hl with hold | ⟨w', hw', hname, hrecord⟩
      · have hfree := hadmits.free w.2 hs
        simp [contains, hold] at hfree
      · rw [hadmits.eq_of_name (List.mem_map_of_mem hw') hs hname] at hrecord
        rw [hl, (h.grown hr).layout_eq hlaid hrecord]
    · rw [hnone] at he
      cases he
    · have hready := h.waits w hwaits
      rw [isReady_of_laysAll hlaid] at hready
      cases hready

end Settles

end Admitted

/-! ### All records at once -/

def Fails (r : Registry) (shapes : List RecordShape) (s : RecordShape) (e : LayoutError) : Prop :=
  ∃ i, shapes[i]? = some s ∧ (i, e) ∈ (r.registerRecords shapes).2

/-- Every record that can be laid out has a size that is a word. -/
def Fits (r : Registry) (shapes : List RecordShape) : Prop :=
  ∀ s ∈ shapes, ∀ l, r.Extent shapes s.name l → l.size < wordLimit

/-- What becomes of a registry and of records that are registered in it. -/
structure FixedPoint (r : Registry) (shapes : List RecordShape) : Prop where
  /-- The rounds come to an end, and what they leave is the result. -/
  ends : ∃ final, r.Settles (numbered shapes) final ∧
    (r.registerRecords shapes).1 = final.registry
  keeps : r.Le (r.registerRecords shapes).1
  registers : ∀ name, (r.registerRecords shapes).1.contains name ↔
    r.contains name ∨ ∃ s ∈ shapes, s.name = name ∧ r.Orderly shapes name
  layouts : ∀ s ∈ shapes, (r.registerRecords shapes).1.contains s.name →
    ∃ l, (r.registerRecords shapes).1.get? s.name = some l ∧
      (r.registerRecords shapes).1.recordLayout s.members = .ok l
  errors : ∀ i s, shapes[i]? = some s → ((r.registerRecords shapes).2.map Prod.fst).count i =
    if (r.registerRecords shapes).1.contains s.name then 0 else 1
  positions : ∀ e ∈ (r.registerRecords shapes).2, e.1 < shapes.length

section Records

variable {r : Registry} {shapes shapes' : List RecordShape}

theorem mem_numbered {i : Nat} {s : RecordShape} :
    (i, s) ∈ numbered shapes ↔ shapes[i]? = some s := by
  constructor
  · exact mem_zip_range
  · intro hs
    refine List.mem_iff_getElem?.2 ⟨i, List.getElem?_zip_eq_some.2 ⟨?_, hs⟩⟩
    simp [(List.getElem?_eq_some_iff.1 hs).1]

theorem map_snd_numbered (shapes : List RecordShape) : (numbered shapes).map Prod.snd = shapes :=
  List.map_snd_zip (by simp)

theorem map_fst_numbered : (numbered shapes).map Prod.fst = List.range shapes.length :=
  List.map_fst_zip (by simp)

theorem registerRecords_settles (r : Registry) (shapes : List RecordShape) :
    ∃ final, r.Settles (numbered shapes) final ∧ (r.registerRecords shapes).1 = final.registry ∧
      (r.registerRecords shapes).2.Perm (final.errors ++
        final.waiting.map fun w => (w.1, final.registry.stuck shapes w.2)) :=
  ⟨_, settles_rounds (Nat.le_refl _), rfl, List.mergeSort_perm _ _⟩

theorem Admits.numbered (h : r.Admits shapes) : r.Admits ((numbered shapes).map Prod.snd) := by
  rwa [map_snd_numbered]

theorem stuck_ne_overflow (r : Registry) (shapes : List RecordShape) (s : RecordShape) :
    r.stuck shapes s ≠ .overflow := by
  simp only [stuck]
  split <;> simp

theorem Settles.oversized {final : Round} (hfinal : r.Settles (numbered shapes) final)
    (hr : r.Grown) (h : r.Admits shapes) {x : Nat × LayoutError} (hx : x ∈ final.errors) :
    x.2 = .overflow ∧ ∃ s, shapes[x.1]? = some s ∧
      ∃ l, r.Extent shapes s.name l ∧ wordLimit ≤ l.size := by
  obtain ⟨hoverflow, s, hs, ks, hks, hlarge⟩ := (hfinal.admits hr h.numbered).1 _ _ hx
  refine ⟨hoverflow, s, mem_numbered.1 hs, _, ?_, hlarge⟩
  refine .record _ (List.mem_of_getElem? (mem_numbered.1 hs)) hks fun field inner l _ hl => ?_
  rw [← map_snd_numbered shapes]
  exact hfinal.extent hr hl

/-- Sizes overflow exactly if there is a record whose size is not a word. -/
theorem Admits.overflows_iff (h : r.Admits shapes) (hr : r.Grown) :
    (∃ s, r.Fails shapes s .overflow) ↔ ¬ r.Fits shapes := by
  obtain ⟨final, hfinal, -, herrors⟩ := registerRecords_settles r shapes
  constructor
  · rintro ⟨s, i, -, he⟩ hfits
    rcases List.mem_append.1 (herrors.mem_iff.1 he) with he | hleft
    · obtain ⟨-, s', hs', l, hl, hlarge⟩ := hfinal.oversized hr h he
      exact absurd (hfits s' (List.mem_of_getElem? hs') l hl) (Nat.not_lt.2 hlarge)
    · obtain ⟨w, -, heq⟩ := List.mem_map.1 hleft
      exact stuck_ne_overflow _ _ _ (Prod.mk.inj heq).2
  · intro hlarge
    by_contra hquiet
    refine hlarge fun s _ l hl => ?_
    rw [← map_snd_numbered shapes] at hl
    rcases hfinal.get?_of_extent hr h.numbered hl with hin | hrefused
    · exact ((hfinal.grown hr).lays (layoutOf_base.2 hin)).word
    · obtain ⟨⟨i, e⟩, he⟩ := List.exists_mem_of_ne_nil _ hrefused
      obtain ⟨rfl, s', hs', -⟩ := hfinal.oversized hr h he
      exact absurd ⟨s', i, hs', herrors.mem_iff.2 (List.mem_append_left _ he)⟩ hquiet

theorem Fits.errors {final : Round} (hfits : r.Fits shapes) (h : r.Admits shapes) (hr : r.Grown)
    (hfinal : r.Settles (numbered shapes) final) : final.errors = [] := by
  by_contra hrefused
  obtain ⟨x, hx⟩ := List.exists_mem_of_ne_nil _ hrefused
  obtain ⟨-, s, hs, l, hl, hlarge⟩ := hfinal.oversized hr h hx
  exact absurd (hfits s (List.mem_of_getElem? hs) l hl) (Nat.not_lt.2 hlarge)

theorem Admits.settles (h : r.Admits shapes) (hr : r.Grown) (hfits : r.Fits shapes) :
    ∃ final, r.Settles (Registry.numbered shapes) final ∧
    (r.registerRecords shapes).1 = final.registry ∧
    (r.registerRecords shapes).2.Perm
      (final.waiting.map fun w => (w.1, final.registry.stuck shapes w.2)) ∧
    ∀ i s, (i, s) ∈ final.waiting ↔
      shapes[i]? = some s ∧ (r.registerRecords shapes).1.contains s.name = false := by
  obtain ⟨final, hfinal, hregistry, herrors⟩ := registerRecords_settles r shapes
  have hleft := (hfinal.admits hr h.numbered).2
  have hnone := hfits.errors h hr hfinal
  rw [hnone, List.nil_append] at herrors
  refine ⟨final, hfinal, hregistry, herrors, fun i s => ?_⟩
  rw [hregistry]
  constructor
  · intro hwaits
    exact ⟨mem_numbered.1 (hfinal.sublist.subset hwaits),
      hleft.free s (List.mem_map_of_mem (f := Prod.snd) hwaits)⟩
  · rintro ⟨hs, hfree⟩
    rcases hfinal.cases (mem_numbered.2 hs) with hin | ⟨e, he⟩ | hwaits
    · rw [hfree] at hin
      cases hin
    · rw [hnone] at he
      cases he
    · exact hwaits

theorem Admits.get?_iff (h : r.Admits shapes) (hr : r.Grown) (hfits : r.Fits shapes)
    {name : String} {l : Layout} :
    (r.registerRecords shapes).1.get? name = some l ↔ r.Extent shapes name l := by
  obtain ⟨final, hfinal, hregistry, -⟩ := registerRecords_settles r shapes
  rw [hregistry, ← map_snd_numbered shapes]
  refine ⟨hfinal.extent hr, fun hl => ?_⟩
  exact (hfinal.get?_of_extent hr h.numbered hl).resolve_right
    (not_not_intro (hfits.errors h hr hfinal))

theorem Admits.grounded_iff (h : r.Admits shapes) (hr : r.Grown) (hfits : r.Fits shapes)
    {name : String} : (r.registerRecords shapes).1.contains name ↔ r.Grounded shapes name := by
  rw [contains, Option.isSome_iff_exists]
  simp only [h.get?_iff hr hfits]
  constructor
  · rintro ⟨l, hl⟩
    exact hl.grounded
  · exact fun hname => hname.extent h

theorem Admits.grounded_iff_orderly (h : r.Admits shapes) {name : String} :
    r.Grounded shapes name ↔
      r.contains name ∨ ∃ s ∈ shapes, s.name = name ∧ r.Orderly shapes name := by
  constructor
  · intro hgrounded
    have horderly := hgrounded.orderly h
    cases hgrounded with
    | known hname => exact .inl hname
    | record hs _ _ => exact .inr ⟨_, hs, rfl, horderly⟩
  · rintro (hname | ⟨s, hs, hname, horderly⟩)
    · exact .known hname
    · exact horderly.grounded hs hname

theorem Admits.layouts (h : r.Admits shapes) {s : RecordShape} (hs : s ∈ shapes)
    (hin : (r.registerRecords shapes).1.contains s.name) :
    ∃ l, (r.registerRecords shapes).1.get? s.name = some l ∧
      (r.registerRecords shapes).1.recordLayout s.members = .ok l := by
  obtain ⟨final, hfinal, hregistry, -⟩ := registerRecords_settles r shapes
  rw [hregistry] at hin ⊢
  obtain ⟨l, hl⟩ := Option.isSome_iff_exists.1 hin
  refine ⟨l, hl, ?_⟩
  rcases hfinal.get? hl with hold | ⟨w, hw, hname, hlaid⟩
  · have hfree := h.free s hs
    simp [contains, hold] at hfree
  · have hmem : w.2 ∈ shapes := List.mem_of_getElem? (mem_numbered.1 hw)
    rwa [← h.eq_of_name hmem hs hname]

theorem Admits.fixedPoint (h : r.Admits shapes) (hr : r.Grown) (hfits : r.Fits shapes) :
    r.FixedPoint shapes := by
  obtain ⟨final, hfinal, hregistry, herrors, hwaiting⟩ := h.settles hr hfits
  have hpositions : ((r.registerRecords shapes).2.map Prod.fst).Perm
      (final.waiting.map Prod.fst) := by
    simpa [Function.comp_def] using herrors.map Prod.fst
  constructor
  case ends => exact ⟨final, hfinal, hregistry⟩
  case keeps => exact registerRecords_le
  case registers => exact fun name => (h.grounded_iff hr hfits).trans h.grounded_iff_orderly
  case layouts => exact fun s hs hin => h.layouts hs hin
  case errors =>
    intro i s hs
    rw [hpositions.count_eq]
    have hnodup : (final.waiting.map Prod.fst).Nodup := by
      refine (hfinal.sublist.map Prod.fst).nodup ?_
      rw [map_fst_numbered]
      exact List.nodup_range
    split
    case isTrue hin =>
      refine List.count_eq_zero.2 fun hmem => ?_
      obtain ⟨⟨j, s'⟩, hw, rfl⟩ := List.mem_map.1 hmem
      obtain ⟨hs', hfree⟩ := (hwaiting j s').1 hw
      rw [hs] at hs'
      cases hs'
      rw [hin] at hfree
      cases hfree
    case isFalse hout =>
      have hw : (i, s) ∈ final.waiting := (hwaiting i s).2 ⟨hs, by simpa using hout⟩
      exact List.count_eq_one_of_mem hnodup (List.mem_map_of_mem (f := Prod.fst) hw)
  case positions =>
    intro e he
    have hmem : e.1 ∈ final.waiting.map Prod.fst :=
      hpositions.mem_iff.1 (List.mem_map_of_mem he)
    obtain ⟨⟨i, s⟩, hw, hi⟩ := List.mem_map.1 hmem
    rw [← hi]
    exact (List.getElem?_eq_some_iff.1 ((hwaiting i s).1 hw).1).1

/-! ### Other orders -/

theorem Admits.perm (hr : r.Admits shapes) (h : shapes.Perm shapes') : r.Admits shapes' where
  nodup := (h.map _).nodup hr.nodup
  free s hs := hr.free s (h.mem_iff.2 hs)
  data s hs := hr.data s (h.mem_iff.2 hs)

theorem Extent.perm {name : String} {l : Layout} (hname : r.Extent shapes name l)
    (h : shapes.Perm shapes') : r.Extent shapes' name l := by
  induction hname with
  | known hl => exact .known hl
  | record q hs hks _ ih => exact .record q (h.mem_iff.1 hs) hks ih

theorem Fits.perm (hfits : r.Fits shapes) (h : shapes.Perm shapes') : r.Fits shapes' :=
  fun s hs l hl => hfits s (h.mem_iff.2 hs) l (hl.perm h.symm)

/-- What is laid out does not depend on the order, since its extent does not. -/
theorem Admits.get?_perm (h : r.Admits shapes) (hr : r.Grown) (hfits : r.Fits shapes)
    (hperm : shapes.Perm shapes') (name : String) :
    (r.registerRecords shapes').1.get? name = (r.registerRecords shapes).1.get? name := by
  refine Option.ext fun l => ?_
  rw [(h.perm hperm).get?_iff hr (hfits.perm hperm), h.get?_iff hr hfits]
  exact ⟨fun hl => hl.perm hperm.symm, fun hl => hl.perm hperm⟩

theorem stuck_congr {s : Registry} (hcontains : ∀ name, s.contains name = r.contains name)
    (h : shapes.Perm shapes') (shape : RecordShape) :
    s.stuck shapes' shape = r.stuck shapes shape := by
  have hany : ∀ name : String, shapes'.any (·.name == name) = shapes.any (·.name == name) := by
    intro name
    rw [Bool.eq_iff_iff]
    simp only [List.any_eq_true, h.mem_iff]
  simp only [stuck, hcontains, hany]

theorem Admits.fails_iff (h : r.Admits shapes) (hr : r.Grown) (hfits : r.Fits shapes)
    {s : RecordShape} {e : LayoutError} :
    r.Fails shapes s e ↔ s ∈ shapes ∧ (r.registerRecords shapes).1.contains s.name = false ∧
      e = (r.registerRecords shapes).1.stuck shapes s := by
  obtain ⟨final, -, hregistry, herrors, hwaiting⟩ := h.settles hr hfits
  constructor
  · rintro ⟨i, hi, he⟩
    obtain ⟨⟨j, s'⟩, hw, heq⟩ := List.mem_map.1 (herrors.mem_iff.1 he)
    obtain ⟨rfl, rfl⟩ := Prod.mk.inj heq
    obtain ⟨hs', hfree⟩ := (hwaiting j s').1 hw
    rw [hi] at hs'
    cases hs'
    exact ⟨List.mem_of_getElem? hi, hfree, by rw [hregistry]⟩
  · rintro ⟨hs, hfree, rfl⟩
    obtain ⟨i, hi⟩ := List.mem_iff_getElem?.1 hs
    refine ⟨i, hi, herrors.mem_iff.2 (List.mem_map.2 ⟨(i, s), (hwaiting i s).2 ⟨hi, hfree⟩, ?_⟩)⟩
    rw [hregistry]

theorem Admits.fails_perm (h : r.Admits shapes) (hr : r.Grown) (hfits : r.Fits shapes)
    (hperm : shapes.Perm shapes') (s : RecordShape) (e : LayoutError) :
    r.Fails shapes' s e ↔ r.Fails shapes s e := by
  have hcontains : ∀ name, (r.registerRecords shapes').1.contains name =
      (r.registerRecords shapes).1.contains name := by
    intro name
    rw [contains, contains, h.get?_perm hr hfits hperm]
  rw [(h.perm hperm).fails_iff hr (hfits.perm hperm), h.fails_iff hr hfits,
    stuck_congr hcontains hperm, hcontains, hperm.mem_iff]

end Records

/-- Whatever was asked of a registry before, the extents of new records are those of C, and a record
has one exactly if neither an unknown type nor a cycle can be reached from it. Sizes overflow
exactly if one of the extents is not a word. Otherwise the records with an extent are laid out, and
the others have one error each. The order in which the records stand changes neither whether sizes
overflow nor the layouts nor which records fail. -/
theorem records_fixedPoint (requests : List Request) {shapes : List RecordShape}
    (h : (initial.answerAll requests).Admits shapes) :
    (∀ s ∈ shapes, (∃ l, (initial.answerAll requests).Extent shapes s.name l) ↔
      (initial.answerAll requests).Orderly shapes s.name) ∧
    ((∃ s, (initial.answerAll requests).Fails shapes s .overflow) ↔
      ¬ (initial.answerAll requests).Fits shapes) ∧
    ((initial.answerAll requests).Fits shapes → (initial.answerAll requests).FixedPoint shapes) ∧
    ∀ shapes', shapes.Perm shapes' →
      ((initial.answerAll requests).Fits shapes' ↔ (initial.answerAll requests).Fits shapes) ∧
      ((initial.answerAll requests).Fits shapes →
        (∀ name, ((initial.answerAll requests).registerRecords shapes').1.get? name =
          ((initial.answerAll requests).registerRecords shapes).1.get? name) ∧
        ∀ s e, (initial.answerAll requests).Fails shapes' s e ↔
          (initial.answerAll requests).Fails shapes s e) := by
  have hgrown := grown_answerAll requests
  refine ⟨fun s hs => ?_, h.overflows_iff hgrown, h.fixedPoint hgrown, fun shapes' hperm => ?_⟩
  · constructor
    · rintro ⟨l, hl⟩
      exact hl.grounded.orderly h
    · exact fun horderly => (horderly.grounded hs rfl).extent h
  · refine ⟨⟨fun hfits => hfits.perm hperm.symm, fun hfits => hfits.perm hperm⟩, fun hfits => ?_⟩
    exact ⟨h.get?_perm hgrown hfits hperm, h.fails_perm hgrown hfits hperm⟩

/-- A record in front of the one that it holds, a cycle and a record of unknown contents. -/
def mixedShapes : List RecordShape :=
  [⟨"Line", [("start", .base "Point"), ("stop", .base "Point")]⟩, ⟨"A", [("b", .base "B")]⟩,
    ⟨"B", [("a", .base "A")]⟩, ⟨"C", [("m", .base "Missing")]⟩,
    ⟨"Point", [("x", .int), ("y", .int)]⟩]

theorem records_fixedPoint_mixed :
    (initial.answerAll []).Admits mixedShapes ∧ (initial.answerAll []).Fits mixedShapes ∧
    (initial.answerAll []).Orderly mixedShapes "Line" ∧
    ¬ (initial.answerAll []).Orderly mixedShapes "B" ∧
    (((initial.answerAll []).registerRecords mixedShapes).2.map Prod.fst).count 2 = 1 ∧
    (((initial.answerAll []).registerRecords mixedShapes.reverse).1.get? "Line").map Layout.size =
      some 32 := by
  have hadmits : (initial.answerAll []).Admits mixedShapes :=
    ⟨by decide, by decide, by decide⟩
  obtain ⟨-, hoverflows, hfixed, horders⟩ := records_fixedPoint [] hadmits
  have hnone : ((initial.answerAll []).rounds (numbered mixedShapes) 5).errors = [] := rfl
  have hfits : (initial.answerAll []).Fits mixedShapes := by
    refine not_not.1 (mt hoverflows.2 ?_)
    rintro ⟨s, i, -, he⟩
    simp only [registerRecords, List.mem_mergeSort] at he
    rcases List.mem_append.1 he with he | hleft
    · exact absurd (hnone ▸ he) List.not_mem_nil
    · obtain ⟨w, -, heq⟩ := List.mem_map.1 hleft
      exact stuck_ne_overflow _ _ _ (Prod.mk.inj heq).2
  replace hfixed := hfixed hfits
  have hline : ((initial.answerAll []).registerRecords mixedShapes).1.contains "Line" = true := rfl
  have hcycle : ((initial.answerAll []).registerRecords mixedShapes).1.contains "B" = false := rfl
  refine ⟨hadmits, hfits, ?_, fun horderly => ?_, ?_, ?_⟩
  · rcases (hfixed.registers "Line").1 hline with hold | ⟨s, -, -, horderly⟩
    · cases hold
    · exact horderly
  · have hdeclared : ⟨"B", [("a", .base "A")]⟩ ∈ mixedShapes := by simp [mixedShapes]
    have hin := (hfixed.registers "B").2 (.inr ⟨_, hdeclared, rfl, horderly⟩)
    rw [hcycle] at hin
    cases hin
  · rw [hfixed.errors 2 ⟨"B", [("a", .base "A")]⟩ rfl, hcycle]
    rfl
  · rw [((horders _ mixedShapes.reverse_perm.symm).2 hfits).1 "Line"]
    rfl

/-- A record of eight bytes, and others that are twice as long each. -/
def doubled : Nat → RecordShape
  | 0 => ⟨"A0", [("x", .int)]⟩
  | n + 1 => ⟨"A" ++ toString (n + 1), [("a", .base (doubled n).name),
    ("b", .base (doubled n).name)]⟩

def doublingShapes : List RecordShape := (List.range 62).map doubled

theorem doubled_extent {n : Nat} (h : n < 62) : ∃ l,
    (initial.answerAll []).Extent doublingShapes (doubled n).name l ∧ l.size = 8 * 2 ^ n ∧
      l.alignment = 8 := by
  have hmem : doubled n ∈ doublingShapes := List.mem_map_of_mem (List.mem_range.2 h)
  induction n with
  | zero =>
    have hint : initial.LaysAll (doubled 0).members [.primitive 8 .integer] := .cons rfl .nil
    exact ⟨_, .record initial hmem hint fun field inner l _ hl => .known hl, by decide, by decide⟩
  | succ n ih =>
    obtain ⟨l, hl, hsize, halign⟩ := ih (by omega)
      (List.mem_map_of_mem (List.mem_range.2 (by omega)))
    have hget : (Registry.mk [((doubled n).name, l)]).get? (doubled n).name = some l := by
      simp [get?]
    have htwo : (Registry.mk [((doubled n).name, l)]).LaysAll (doubled (n + 1)).members [l, l] :=
      .cons (layoutOf_base.2 hget) (.cons (layoutOf_base.2 hget) .nil)
    refine ⟨_, .record _ hmem htwo fun field inner k hm hk => ?_, ?_, ?_⟩
    · have hinner : inner = (doubled n).name := by
        simp [doubled] at hm
        exact hm.elim And.right And.right
      subst hinner
      rw [hget] at hk
      cases hk
      exact hl
    · simp [doubled, arrange, PlacedMembers.behind, PlacedMembers.layout, alignUp, hsize, halign]
      omega
    · simp [doubled, arrange, PlacedMembers.behind, PlacedMembers.layout, halign]

/-- The longest one has `2 ^ 64` bytes, so it is not laid out, although all that it holds is. -/
theorem doublingShapes_overflow : (initial.answerAll []).Admits doublingShapes ∧
    (∀ s ∈ doublingShapes, (initial.answerAll []).Orderly doublingShapes s.name) ∧
    (∃ s, (initial.answerAll []).Fails doublingShapes s .overflow) ∧
    ¬ (initial.answerAll []).FixedPoint doublingShapes := by
  have hadmits : (initial.answerAll []).Admits doublingShapes := ⟨by decide, by decide, by decide⟩
  have horderly : ∀ s ∈ doublingShapes, (initial.answerAll []).Orderly doublingShapes s.name := by
    intro s hs
    obtain ⟨n, hn, rfl⟩ := List.mem_map.1 hs
    obtain ⟨l, hl, -, -⟩ := doubled_extent (List.mem_range.1 hn)
    exact hl.grounded.orderly hadmits
  have hfails : ∃ s, (initial.answerAll []).Fails doublingShapes s .overflow := by
    refine (hadmits.overflows_iff (grown_answerAll [])).2 fun hfits => ?_
    obtain ⟨l, hl, hsize, -⟩ := doubled_extent (n := 61) (by decide)
    have hword := hfits _ (List.mem_map_of_mem (List.mem_range.2 (by decide))) l hl
    rw [hsize, wordLimit] at hword
    omega
  refine ⟨hadmits, horderly, hfails, fun hfixed => ?_⟩
  obtain ⟨s, i, hi, he⟩ := hfails
  have hs := List.mem_of_getElem? hi
  have hin := (hfixed.registers s.name).2 (.inr ⟨s, hs, rfl, horderly s hs⟩)
  have hcount := hfixed.errors i s hi
  rw [if_pos hin, List.count_eq_zero] at hcount
  exact hcount (List.mem_map_of_mem (f := Prod.fst) he)

end RegionCompiler.Registry
