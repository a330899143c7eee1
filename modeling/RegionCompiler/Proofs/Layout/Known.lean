import RegionCompiler.Layout
import RegionCompiler.Proofs.Tidy

/-! Types with a layout. A registry that took in a list of records knows each of them unless it
gave an error for one, and every layout in it comes from a record that was asked for. -/
namespace RegionCompiler

/-- Data types whose base name is registered. They have a layout at every depth. -/
def Ty.Known (r : Registry) : Ty → Prop
  | .base name => r.contains name
  | .pointer t | .array t _ => t.Known r
  | .invalid | .function _ _ _ _ => False

namespace Ty

variable {r : Registry} {t a b : Ty}

theorem Known.isValid (h : t.Known r) : t.isValid := by
  cases t <;> first | rfl | exact h.elim

theorem Known.not_isFunction (h : t.Known r) : t.isFunction = false := by
  cases t <;> first | rfl | exact h.elim

theorem Known.layoutOf (h : t.Known r) : ∃ l, r.layoutOf t = .ok l := by
  cases t with
  | invalid => exact h.elim
  | base name =>
    obtain ⟨l, hl⟩ := Option.isSome_iff_exists.1 h
    exact ⟨l, by simp [Registry.layoutOf, hl]⟩
  | pointer t => exact ⟨_, rfl⟩
  | array t n => exact ⟨_, rfl⟩
  | function t ps v f => exact h.elim

theorem Known.withoutModifier (h : t.Known r) (hm : t.isPointer ∨ t.isArray) :
    t.withoutModifier.Known r := by
  cases t with
  | pointer t => exact h
  | array t n => exact h
  | _ => simp [isPointer, isArray] at hm

theorem Known.withModifier_pointer (h : t.Known r) : (t.withModifier .pointer).Known r := by
  cases t <;> exact h

theorem known_of_name? {name : String} (h : r.contains name) :
    ∀ t : Ty, t.IsData → t.name? = some name → t.Known r
  | .base _, _, hn => by
    cases hn
    exact h
  | .pointer t, hd, hn => known_of_name? h t hd hn
  | .array t _, hd, hn => known_of_name? h t hd hn

/-- Types that agree differ in the lengths of arrays alone, which no layout depends on. -/
theorem layoutOf_of_agrees {l : Layout} (h : a.agrees b) (hl : r.layoutOf a = .ok l) :
    r.layoutOf b = .ok l := by
  cases a <;> cases b <;> simp [agrees] at h
  · rw [← h]
    exact hl
  · exact hl
  · exact hl
  · cases hl

theorem agrees_base {name : String} (h : t.agrees (.base name)) : t = .base name := by
  cases t <;> simp [agrees] at h
  rw [h]

end Ty

/-- The first member lies at the next place that suits it, and the others lie behind it. -/
def PlacedMembers.behind (others : PlacedMembers) (name : String) (ty : Ty) (k : Layout)
    (here : Nat) : PlacedMembers :=
  { others with
    members := ⟨name, ty, here⟩ :: others.members
    leaves := k.leaves.map (Leaf.shift here) ++ others.leaves }

@[simp]
theorem PlacedMembers.behind_stop (others : PlacedMembers) (name : String) (ty : Ty) (k : Layout)
    (here : Nat) : (others.behind name ty k here).stop = others.stop := rfl

theorem map_eq_ok {ε α β : Type} {f : α → β} {x : Except ε α} {b : β} :
    x.map f = .ok b ↔ ∃ a, x = .ok a ∧ b = f a := by
  cases x <;> simp [Except.map, eq_comm]

theorem map_eq_error {ε α β : Type} {f : α → β} {x : Except ε α} {e : ε} :
    x.map f = .error e ↔ x = .error e := by
  cases x <;> simp [Except.map]

namespace Registry

/-- What is registered stays as it is. -/
def Le (r s : Registry) : Prop := ∀ name l, r.get? name = some l → s.get? name = some l

theorem Le.refl (r : Registry) : r.Le r := fun _ _ h => h

theorem Le.trans {r s t : Registry} (h : r.Le s) (h' : s.Le t) : r.Le t :=
  fun name l hl => h' name l (h name l hl)

theorem Le.contains {r s : Registry} (h : r.Le s) {name : String} (hc : r.contains name) :
    s.contains name := by
  obtain ⟨l, hl⟩ := Option.isSome_iff_exists.1 hc
  exact Option.isSome_iff_exists.2 ⟨l, h name l hl⟩

theorem get?_insert (r : Registry) (name other : String) (l : Layout) :
    (r.insert name l).get? other = (r.get? other).or (if other = name then some l else none) := by
  rw [get?, insert, List.lookup_append, List.lookup_cons, List.lookup_nil]
  by_cases h : other = name
  · simp [get?, h]
  · simp [get?, h, beq_eq_false_iff_ne.2 h]

/-- Every layout holds members of a declared record and travels in at most two parts. -/
def Sound (declared : List RecordShape) (r : Registry) : Prop :=
  ∀ name l, r.get? name = some l →
    (∀ m ∈ l.members, ∃ s ∈ declared, (m.name, m.ty) ∈ s.members) ∧ l.classes.length ≤ 2

theorem Sound.mono {r : Registry} {declared more : List RecordShape} (h : r.Sound declared)
    (hmore : declared ⊆ more) : r.Sound more := by
  intro name l hl
  obtain ⟨hmembers, hclasses⟩ := h name l hl
  refine ⟨fun m hm => ?_, hclasses⟩
  obtain ⟨shape, hshape, hmember⟩ := hmembers m hm
  exact ⟨shape, hmore hshape, hmember⟩

theorem length_classify (size : Nat) (leaves : List Leaf) : (classify size leaves).length ≤ 2 := by
  unfold classify
  split
  · simp
  · rw [List.length_map, List.length_range]
    omega

theorem place_first (r : Registry) (offset alignment : Nat) {name : String} {ty : Ty}
    (rest : List (String × Ty)) {k : Layout} (hk : r.layoutOf ty = .ok k) :
    r.place offset alignment ((name, ty) :: rest) =
      if wordLimit ≤ alignUp offset k.alignment + k.size then .error .overflow
      else (r.place (alignUp offset k.alignment + k.size) (max alignment k.alignment) rest).map
        (·.behind name ty k (alignUp offset k.alignment)) := by
  simp only [place, hk, bind, Except.bind]
  split
  · rfl
  · cases r.place (alignUp offset k.alignment + k.size) (max alignment k.alignment) rest <;> rfl

theorem place_cons {r : Registry} {offset alignment : Nat} {name : String} {ty : Ty}
    {rest : List (String × Ty)} {placed : PlacedMembers}
    (h : r.place offset alignment ((name, ty) :: rest) = .ok placed) :
    ∃ k others, r.layoutOf ty = .ok k ∧ alignUp offset k.alignment + k.size < wordLimit ∧
      r.place (alignUp offset k.alignment + k.size) (max alignment k.alignment) rest = .ok others ∧
      placed = others.behind name ty k (alignUp offset k.alignment) := by
  cases hk : r.layoutOf ty with
  | error e => simp [place, hk, bind, Except.bind] at h
  | ok k =>
    rw [place_first r offset alignment rest hk] at h
    split at h
    case isTrue => cases h
    case isFalse hfits =>
      obtain ⟨others, hothers, rfl⟩ := map_eq_ok.1 h
      exact ⟨k, others, rfl, Nat.lt_of_not_le hfits, hothers, rfl⟩

/-- Members cannot be placed if one of them has no layout, or if they are too large. -/
theorem place_error {r : Registry} {offset alignment : Nat} {members : List (String × Ty)}
    {e : LayoutError} (h : r.place offset alignment members = .error e) :
    e = .overflow ∨ ∃ m ∈ members, r.layoutOf m.2 = .error e := by
  induction members generalizing offset alignment with
  | nil => cases h
  | cons first rest ih =>
    obtain ⟨name, ty⟩ := first
    cases hk : r.layoutOf ty with
    | error e' =>
      simp only [place, hk, bind, Except.bind] at h
      cases h
      exact .inr ⟨_, List.mem_cons_self, hk⟩
    | ok k =>
      rw [place_first r offset alignment rest hk] at h
      split at h
      case isTrue =>
        cases h
        exact .inl rfl
      case isFalse =>
        refine (ih (map_eq_error.1 h)).imp_right ?_
        rintro ⟨m, hm, hlayout⟩
        exact ⟨m, List.mem_cons_of_mem _ hm, hlayout⟩

theorem place_members {r : Registry} {offset alignment : Nat} {members : List (String × Ty)}
    {placed : PlacedMembers} (h : r.place offset alignment members = .ok placed) :
    placed.members.map (fun m => (m.name, m.ty)) = members := by
  induction members generalizing offset alignment placed with
  | nil =>
    cases h
    rfl
  | cons first rest ih =>
    obtain ⟨k, others, -, -, hothers, rfl⟩ := place_cons h
    simp [PlacedMembers.behind, ih hothers]

theorem recordLayout_place {r : Registry} {members : List (String × Ty)} {l : Layout}
    (h : r.recordLayout members = .ok l) :
    ∃ placed, r.place 0 1 members = .ok placed ∧ l = placed.layout ∧ l.size < wordLimit := by
  simp only [recordLayout, bind, Except.bind] at h
  split at h
  case h_1 => cases h
  case h_2 placed hplaced =>
    split at h
    case isTrue => cases h
    case isFalse hfits =>
      cases h
      exact ⟨placed, hplaced, rfl, Nat.lt_of_not_le hfits⟩

theorem recordLayout_error {r : Registry} {members : List (String × Ty)} {e : LayoutError}
    (h : r.recordLayout members = .error e) :
    e = .overflow ∨ ∃ m ∈ members, r.layoutOf m.2 = .error e := by
  simp only [recordLayout, bind, Except.bind] at h
  split at h
  case h_1 e' he =>
    cases h
    exact place_error he
  case h_2 =>
    split at h
    case isTrue =>
      cases h
      exact .inl rfl
    case isFalse => cases h

theorem recordLayout_spec {r : Registry} {members : List (String × Ty)} {l : Layout}
    (h : r.recordLayout members = .ok l) :
    l.members.map (fun m => (m.name, m.ty)) = members ∧ l.classes.length ≤ 2 := by
  obtain ⟨placed, hplaced, rfl, -⟩ := recordLayout_place h
  exact ⟨place_members hplaced, length_classify _ _⟩

theorem registerType_run (r : Registry) (name : String) (members : List (String × Ty)) :
    (registerType name members).run.run r =
      if r.contains name then (.error (.duplicateType name), r)
      else match r.recordLayout members with
        | .ok l => (.ok l, r.insert name l)
        | .error e => (.error e, r) := by
  have hrun : (registerType name members).run.run r =
      (if r.contains name then throw (.duplicateType name) else do
        let layout ← liftM (r.recordLayout members)
        set (r.insert name layout)
        return layout : ExceptT LayoutError (StateM Registry) Layout).run.run r := rfl
  rw [hrun]
  split
  · rfl
  · cases r.recordLayout members <;> rfl

theorem register_eq (r : Registry) (name : String) (members : List (String × Ty)) :
    r.register name members =
      if r.contains name then .error (.duplicateType name)
      else (r.recordLayout members).map (r.insert name) := by
  rw [register, registerType_run]
  cases r.contains name <;> cases r.recordLayout members <;> rfl

theorem registerType_register (r : Registry) (name : String) (members : List (String × Ty)) :
    (∃ l next, (registerType name members).run.run r = (.ok l, next) ∧
      r.register name members = .ok next) ∨
    ∃ e, (registerType name members).run.run r = (.error e, r) ∧
      r.register name members = .error e := by
  rw [register_eq, registerType_run]
  split
  · exact .inr ⟨_, rfl, rfl⟩
  · cases r.recordLayout members with
    | ok l => exact .inl ⟨l, _, rfl, rfl⟩
    | error e => exact .inr ⟨e, rfl, rfl⟩

theorem register_spec {r next : Registry} {name : String} {members : List (String × Ty)}
    (h : r.register name members = .ok next) :
    ∃ l, r.recordLayout members = .ok l ∧ r.get? name = none ∧ next = r.insert name l := by
  rw [register_eq] at h
  split at h
  · cases h
  · rename_i hfree
    obtain ⟨l, hl, rfl⟩ := map_eq_ok.1 h
    exact ⟨l, hl, by simpa [contains] using hfree, rfl⟩

theorem register_error {r : Registry} {name : String} {members : List (String × Ty)}
    {e : LayoutError} (h : r.register name members = .error e) :
    e = .duplicateType name ∧ r.contains name ∨ e = .overflow ∨
      ∃ m ∈ members, r.layoutOf m.2 = .error e := by
  rw [register_eq] at h
  split at h
  · cases h
    exact .inl ⟨rfl, ‹_›⟩
  · exact .inr (recordLayout_error (map_eq_error.1 h))

theorem register_le {r next : Registry} {name : String} {members : List (String × Ty)}
    (h : r.register name members = .ok next) : r.Le next := by
  obtain ⟨l, -, -, rfl⟩ := register_spec h
  intro other l' hl'
  rw [get?_insert, hl', Option.some_or]

theorem register_contains {r next : Registry} {name : String} {members : List (String × Ty)}
    (h : r.register name members = .ok next) : next.contains name := by
  obtain ⟨l, -, hfree, rfl⟩ := register_spec h
  simp [contains, get?_insert, hfree]

theorem register_sound {declared : List RecordShape} {r next : Registry} {shape : RecordShape}
    (hr : r.Sound declared) (hs : shape ∈ declared)
    (h : r.register shape.name shape.members = .ok next) : next.Sound declared := by
  obtain ⟨l, hl, -, rfl⟩ := register_spec h
  obtain ⟨hmembers, hclasses⟩ := recordLayout_spec hl
  intro name l' hl'
  rw [get?_insert, Option.or_eq_some_iff] at hl'
  rcases hl' with hl' | ⟨-, hl'⟩
  · exact hr name l' hl'
  · obtain ⟨-, rfl⟩ : name = shape.name ∧ l = l' := by simpa using hl'
    refine ⟨fun m hm => ⟨shape, hs, ?_⟩, hclasses⟩
    rw [← hmembers]
    exact List.mem_map_of_mem hm

/-- The only member without a layout that a ready record may have is a function. -/
theorem layoutOf_of_ready {r : Registry} {shape : RecordShape} (hready : r.isReady shape)
    {m : String × Ty} (hm : m ∈ shape.members) : (∃ k, r.layoutOf m.2 = .ok k) ∨
      m.2.isFunction ∧ r.layoutOf m.2 = .error (.notMaterializable m.2) := by
  have hmember := List.all_eq_true.1 hready m hm
  obtain ⟨name, ty⟩ := m
  cases ty with
  | invalid => cases hmember
  | base other =>
    obtain ⟨l, hl⟩ := Option.isSome_iff_exists.1 hmember
    exact .inl ⟨l, by simp [layoutOf, hl]⟩
  | pointer t => exact .inl ⟨_, rfl⟩
  | array t n => exact .inl ⟨_, rfl⟩
  | function t ps v f => exact .inr ⟨rfl, rfl⟩

theorem register_refuses {r : Registry} {shape : RecordShape} {e : LayoutError}
    (hready : r.isReady shape) (h : r.register shape.name shape.members = .error e) :
    e = .duplicateType shape.name ∧ r.contains shape.name ∨ e = .overflow ∨
      ∃ m ∈ shape.members, m.2.isFunction ∧ e = .notMaterializable m.2 := by
  refine (register_error h).imp_right (.imp_right ?_)
  rintro ⟨m, hm, hlayout⟩
  rcases layoutOf_of_ready hready hm with ⟨k, hk⟩ | ⟨hfunction, herror⟩
  · rw [hk] at hlayout
    cases hlayout
  · rw [herror] at hlayout
    cases hlayout
    exact ⟨m, hm, hfunction, rfl⟩

theorem register_not_unknownType {r : Registry} {shape : RecordShape} {e : LayoutError}
    (hready : r.isReady shape) (h : r.register shape.name shape.members = .error e) (t : Ty) :
    e ≠ .unknownType t := by
  rcases register_refuses hready h with ⟨rfl, -⟩ | rfl | ⟨m, -, -, rfl⟩ <;> simp

/-- A type that is neither registered nor among the records to come. -/
def Missing (r : Registry) (shapes : List RecordShape) : Ty → Prop
  | .base name => ¬ r.contains name ∧ ∀ s ∈ shapes, s.name ≠ name
  | .invalid => True
  | _ => False

/-- Why the record may have failed with the error. -/
def Blamed (r : Registry) (shapes : List RecordShape) (shape : RecordShape) (e : LayoutError) :
    Prop :=
  ∀ t, e = .unknownType t → ∃ name, (name, t) ∈ shape.members ∧ r.Missing shapes t

section Rounds

variable {declared : List RecordShape} {r : Registry} {waiting : List (Nat × RecordShape)}

theorem round_cons (index : Nat) (shape : RecordShape) (rest : List (Nat × RecordShape)) :
    (∃ next, r.isReady shape ∧ r.register shape.name shape.members = .ok next ∧
      r.round ((index, shape) :: rest) = next.round rest) ∨
    (∃ e, r.isReady shape ∧ r.register shape.name shape.members = .error e ∧
      r.round ((index, shape) :: rest) =
        { r.round rest with errors := (index, e) :: (r.round rest).errors }) ∨
    (r.isReady shape = false ∧ r.round ((index, shape) :: rest) =
      { r.round rest with waiting := (index, shape) :: (r.round rest).waiting }) := by
  rw [round]
  split
  case isTrue hready =>
    rcases r.registerType_register shape.name shape.members with
      ⟨l, next, hrun, hnext⟩ | ⟨e, hrun, he⟩ <;> rw [hrun]
    · exact .inl ⟨next, hready, hnext, rfl⟩
    · exact .inr (.inl ⟨e, hready, he, rfl⟩)
  case isFalse hwaits => exact .inr (.inr ⟨by simpa using hwaits, rfl⟩)

theorem rounds_succ (waiting : List (Nat × RecordShape)) (n : Nat) :
    ((r.round waiting).waiting.length < waiting.length ∧ r.rounds waiting (n + 1) =
      { (r.round waiting).registry.rounds (r.round waiting).waiting n with
        errors := (r.round waiting).errors ++
          ((r.round waiting).registry.rounds (r.round waiting).waiting n).errors }) ∨
    (waiting.length ≤ (r.round waiting).waiting.length ∧
      r.rounds waiting (n + 1) = r.round waiting) := by
  simp only [rounds]
  split
  case isTrue hprogress => exact .inl ⟨hprogress, rfl⟩
  case isFalse hstop => exact .inr ⟨Nat.not_lt.1 hstop, rfl⟩

theorem round_le : r.Le (r.round waiting).registry := by
  induction waiting generalizing r with
  | nil => exact Le.refl r
  | cons first rest ih =>
    rcases r.round_cons first.1 first.2 rest with
      ⟨next, -, hnext, hround⟩ | ⟨e, -, -, hround⟩ | ⟨-, hround⟩ <;> rw [hround]
    · exact (register_le hnext).trans ih
    · exact ih
    · exact ih

theorem round_sound (hr : r.Sound declared) (hw : ∀ w ∈ waiting, w.2 ∈ declared) :
    (r.round waiting).registry.Sound declared := by
  induction waiting generalizing r with
  | nil => exact hr
  | cons first rest ih =>
    obtain ⟨hfirst, hrest⟩ := List.forall_mem_cons.1 hw
    rcases r.round_cons first.1 first.2 rest with
      ⟨next, -, hnext, hround⟩ | ⟨e, -, -, hround⟩ | ⟨-, hround⟩ <;> rw [hround]
    · exact ih (register_sound hr hfirst hnext) hrest
    · exact ih hr hrest
    · exact ih hr hrest

theorem round_cases {w : Nat × RecordShape} (hw : w ∈ waiting) :
    (r.round waiting).registry.contains w.2.name ∨ (∃ e, (w.1, e) ∈ (r.round waiting).errors) ∨
      w ∈ (r.round waiting).waiting := by
  induction waiting generalizing r with
  | nil => cases hw
  | cons first rest ih =>
    rcases r.round_cons first.1 first.2 rest with
      ⟨next, -, hnext, hround⟩ | ⟨e, -, -, hround⟩ | ⟨-, hround⟩ <;> rw [hround]
    · rcases List.mem_cons.1 hw with rfl | hw
      · exact .inl (round_le.contains (register_contains hnext))
      · exact ih hw
    · rcases List.mem_cons.1 hw with rfl | hw
      · exact .inr (.inl ⟨e, List.mem_cons_self⟩)
      · exact (ih hw).imp_right (.imp_left fun ⟨e', he'⟩ => ⟨e', List.mem_cons_of_mem _ he'⟩)
    · rcases List.mem_cons.1 hw with rfl | hw
      · exact .inr (.inr List.mem_cons_self)
      · exact (ih hw).imp_right (.imp_right (List.mem_cons_of_mem _))

theorem round_sublist : (r.round waiting).waiting.Sublist waiting := by
  induction waiting generalizing r with
  | nil => exact .slnil
  | cons first rest ih =>
    rcases r.round_cons first.1 first.2 rest with
      ⟨next, -, -, hround⟩ | ⟨e, -, -, hround⟩ | ⟨-, hround⟩ <;> rw [hround]
    · exact ih.cons _
    · exact ih.cons _
    · exact ih.cons_cons _

theorem round_waiting_subset : (r.round waiting).waiting ⊆ waiting :=
  round_sublist.subset

theorem round_errors {i : Nat} {e : LayoutError} (he : (i, e) ∈ (r.round waiting).errors) :
    ∃ shape, (i, shape) ∈ waiting ∧ ∀ t, e ≠ .unknownType t := by
  induction waiting generalizing r with
  | nil => cases he
  | cons first rest ih =>
    have hbehind {s : Registry} (h : (i, e) ∈ (s.round rest).errors) :
        ∃ shape, (i, shape) ∈ first :: rest ∧ ∀ t, e ≠ .unknownType t := by
      obtain ⟨shape, hs, ht⟩ := ih h
      exact ⟨shape, List.mem_cons_of_mem _ hs, ht⟩
    rcases r.round_cons first.1 first.2 rest with
      ⟨next, -, -, hround⟩ | ⟨e', hready, hfails, hround⟩ | ⟨-, hround⟩ <;> rw [hround] at he
    · exact hbehind he
    · rcases List.mem_cons.1 he with he | he
      · cases he
        exact ⟨first.2, List.mem_cons_self, register_not_unknownType hready hfails⟩
      · exact hbehind he
    · exact hbehind he

theorem rounds_le (n : Nat) : r.Le (r.rounds waiting n).registry := by
  induction n generalizing r waiting with
  | zero => exact Le.refl r
  | succ n ih =>
    rcases r.rounds_succ waiting n with ⟨-, hrounds⟩ | ⟨-, hrounds⟩ <;> rw [hrounds]
    · exact round_le.trans ih
    · exact round_le

theorem rounds_sound (hr : r.Sound declared) (hw : ∀ w ∈ waiting, w.2 ∈ declared) (n : Nat) :
    (r.rounds waiting n).registry.Sound declared := by
  induction n generalizing r waiting with
  | zero => exact hr
  | succ n ih =>
    rcases r.rounds_succ waiting n with ⟨-, hrounds⟩ | ⟨-, hrounds⟩ <;> rw [hrounds]
    · exact ih (round_sound hr hw) fun w hw' => hw w (round_waiting_subset hw')
    · exact round_sound hr hw

theorem rounds_cases (n : Nat) {w : Nat × RecordShape} (hw : w ∈ waiting) :
    (r.rounds waiting n).registry.contains w.2.name ∨
      (∃ e, (w.1, e) ∈ (r.rounds waiting n).errors) ∨ w ∈ (r.rounds waiting n).waiting := by
  induction n generalizing r waiting with
  | zero => exact .inr (.inr hw)
  | succ n ih =>
    rcases r.rounds_succ waiting n with ⟨-, hrounds⟩ | ⟨-, hrounds⟩ <;> rw [hrounds]
    · rcases round_cases (r := r) hw with h | ⟨e, he⟩ | h
      · exact .inl ((rounds_le n).contains h)
      · exact .inr (.inl ⟨e, List.mem_append_left _ he⟩)
      · exact (ih h).imp_right (.imp_left fun ⟨e, he⟩ => ⟨e, List.mem_append_right _ he⟩)
    · exact round_cases hw

theorem rounds_waiting_subset (n : Nat) : (r.rounds waiting n).waiting ⊆ waiting := by
  induction n generalizing r waiting with
  | zero => exact fun _ h => h
  | succ n ih =>
    rcases r.rounds_succ waiting n with ⟨-, hrounds⟩ | ⟨-, hrounds⟩ <;> rw [hrounds]
    · exact fun w hw => round_waiting_subset (ih hw)
    · exact round_waiting_subset

theorem rounds_errors (n : Nat) {i : Nat} {e : LayoutError}
    (he : (i, e) ∈ (r.rounds waiting n).errors) :
    ∃ shape, (i, shape) ∈ waiting ∧ ∀ t, e ≠ .unknownType t := by
  induction n generalizing r waiting with
  | zero => cases he
  | succ n ih =>
    rcases r.rounds_succ waiting n with ⟨-, hrounds⟩ | ⟨-, hrounds⟩ <;> rw [hrounds] at he
    · rcases List.mem_append.1 he with he | he
      · exact round_errors he
      · obtain ⟨shape, hs, ht⟩ := ih he
        exact ⟨shape, round_waiting_subset hs, ht⟩
    · exact round_errors he

end Rounds

theorem stuck_blamed {r : Registry} {shapes : List RecordShape} {shape : RecordShape} :
    r.Blamed shapes shape (r.stuck shapes shape) := by
  intro t ht
  simp only [stuck] at ht
  split at ht
  · rename_i name ty heq
    cases ht
    refine ⟨name, List.mem_of_find?_eq_some heq, ?_⟩
    have h := List.find?_some heq
    cases t with
    | base other => simpa [Missing] using h
    | invalid => trivial
    | _ => simp at h
  · cases ht

section Records

variable {r : Registry} {shapes : List RecordShape}

theorem mem_zip_range {i : Nat} {shape : RecordShape}
    (h : (i, shape) ∈ (List.range shapes.length).zip shapes) : shapes[i]? = some shape := by
  obtain ⟨n, hn⟩ := List.mem_iff_getElem?.1 h
  rw [List.getElem?_zip_eq_some] at hn
  obtain ⟨hi, hs⟩ := hn
  obtain ⟨hlt, rfl⟩ := List.getElem?_eq_some_iff.1 hi
  simpa using hs

theorem registerRecords_le : r.Le (r.registerRecords shapes).1 := rounds_le _

theorem registerRecords_sound {declared : List RecordShape} (hr : r.Sound declared)
    (hshapes : shapes ⊆ declared) : (r.registerRecords shapes).1.Sound declared := by
  refine rounds_sound hr (fun w hw => ?_) _
  exact hshapes (List.mem_of_getElem? (mem_zip_range hw))

theorem registerRecords_errors {i : Nat} {e : LayoutError}
    (he : (i, e) ∈ (r.registerRecords shapes).2) :
    ∃ shape, shapes[i]? = some shape ∧ (r.registerRecords shapes).1.Blamed shapes shape e := by
  simp only [registerRecords, List.mem_mergeSort, List.mem_append, List.mem_map] at he
  rcases he with he | ⟨⟨j, shape⟩, hw, hj⟩
  · obtain ⟨shape, hs, ht⟩ := rounds_errors _ he
    exact ⟨shape, mem_zip_range hs, fun t h => absurd h (ht t)⟩
  · cases hj
    exact ⟨shape, mem_zip_range (rounds_waiting_subset _ hw), stuck_blamed⟩

theorem registerRecords_contains (h : (r.registerRecords shapes).2 = []) {shape : RecordShape}
    (hs : shape ∈ shapes) : (r.registerRecords shapes).1.contains shape.name := by
  obtain ⟨i, hi⟩ := List.mem_iff_getElem?.1 hs
  have hw : (i, shape) ∈ (List.range shapes.length).zip shapes := by
    refine List.mem_iff_getElem?.2 ⟨i, List.getElem?_zip_eq_some.2 ⟨?_, hi⟩⟩
    simp [(List.getElem?_eq_some_iff.1 hi).1]
  have hnone : ∀ x, x ∉ (r.registerRecords shapes).2 := by simp [h]
  simp only [registerRecords, List.mem_mergeSort, List.mem_append, List.mem_map] at hnone ⊢
  rcases rounds_cases (r := r) _ hw with hc | ⟨e, he⟩ | hwait
  · exact hc
  · exact absurd (.inl he) (hnone _)
  · exact absurd (.inr ⟨_, hwait, rfl⟩) (hnone _)

end Records

theorem initial_sound (shapes : List RecordShape) : initial.Sound shapes := by
  intro name l hl
  have hmem : (name, l) ∈ initial.entries := by
    obtain ⟨before, after, heq, -⟩ := List.lookup_eq_some_iff.1 hl
    rw [heq]
    simp
  simp only [initial, List.mem_cons, Prod.mk.injEq, List.not_mem_nil, or_false] at hmem
  rcases hmem with ⟨-, rfl⟩ | ⟨-, rfl⟩ | ⟨-, rfl⟩ | ⟨-, rfl⟩ | ⟨-, rfl⟩ | ⟨-, rfl⟩ | ⟨-, rfl⟩ <;>
    simp [Layout.primitive]

end Registry

end RegionCompiler
