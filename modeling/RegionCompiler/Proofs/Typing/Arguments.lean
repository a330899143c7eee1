import Mathlib.Data.List.Nodup
import Mathlib.Data.List.Perm.Subperm
import RegionCompiler.Typing.Infer

/-! Arguments of record expressions. Once names and number are right, each member has exactly one
argument, and sorting by position lines the arguments up with the members. -/
namespace RegionCompiler.Typing

theorem memberFor_eq_getElem? (members : List LayoutMember) (position : Nat)
    (name : Option (Located String)) :
    memberFor members position name = members[memberPosition members position name]? := by
  cases name with
  | none => rfl
  | some n => exact List.find?_eq_getElem?_findIdx

def positionsFrom (members : List LayoutMember) (position : Nat) : List Argument → List Nat
  | [] => []
  | a :: rest =>
    memberPosition members position a.name :: positionsFrom members (position + 1) rest

theorem map_position_inferArguments (env : Env) (scope : ScopePath)
    (members : List LayoutMember) (position : Nat) (arguments : List Argument) :
    (inferArguments env scope members position arguments).map (·.position) =
      positionsFrom members position arguments := by
  induction arguments generalizing position with
  | nil => simp [inferArguments, positionsFrom]
  | cons a rest ih =>
    obtain ⟨name, value⟩ := a
    simp [inferArguments, positionsFrom, ih, Argument.name]

theorem positionsFrom_of_unnamed (members : List LayoutMember) (position : Nat)
    {arguments : List Argument} (h : ∀ a ∈ arguments, a.name = none) :
    positionsFrom members position arguments = List.range' position arguments.length := by
  induction arguments generalizing position with
  | nil => rfl
  | cons a rest ih =>
    rw [positionsFrom, h a (by simp), ih _ fun b hb => h b (by simp [hb])]
    rfl

theorem positionsFrom_of_named (members : List LayoutMember) (position : Nat)
    {arguments : List Argument} {names : List String}
    (h : arguments.map (fun a => a.name.map (·.value)) = names.map some) :
    positionsFrom members position arguments =
      names.map fun n => members.findIdx (·.name == n) := by
  induction arguments generalizing position names with
  | nil =>
    have : names = [] := by simpa using h.symm
    simp [this, positionsFrom]
  | cons a rest ih =>
    cases names with
    | nil => simp at h
    | cons n names =>
      simp only [List.map_cons, List.cons.injEq] at h
      obtain ⟨name, hname, hn⟩ := Option.map_eq_some_iff.1 h.1
      rw [positionsFrom, hname, ih _ h.2, List.map_cons]
      simp [memberPosition, hn]

/-- All arguments have names, which are the members' names in some order, and no name occurs
twice. -/
def CoversMembers (members : List LayoutMember) (arguments : List Argument) : Prop :=
  ∃ names : List String, arguments.map (fun a => a.name.map (·.value)) = names.map some ∧
    names.Perm (members.map (·.name)) ∧ names.Nodup

theorem CoversMembers.length_eq {members : List LayoutMember} {arguments : List Argument}
    (h : CoversMembers members arguments) : arguments.length = members.length := by
  obtain ⟨names, hnames, hperm, -⟩ := h
  have hlength := congrArg List.length hnames
  simp only [List.length_map] at hlength
  rw [hlength, hperm.length_eq, List.length_map]

theorem CoversMembers.named {members : List LayoutMember} {arguments : List Argument}
    (h : CoversMembers members arguments) :
    ∀ a ∈ arguments, ∃ n, a.name = some n ∧ n.value ∈ members.map (·.name) := by
  obtain ⟨names, hnames, hperm, -⟩ := h
  intro a ha
  have hmem : a.name.map (·.value) ∈ names.map some := by
    rw [← hnames]
    exact List.mem_map_of_mem ha
  obtain ⟨n, hn, heq⟩ := List.mem_map.1 hmem
  obtain ⟨given, hgiven, rfl⟩ := Option.map_eq_some_iff.1 heq.symm
  exact ⟨given, hgiven, hperm.mem_iff.1 hn⟩

theorem CoversMembers.positions_perm {members : List LayoutMember} {arguments : List Argument}
    (h : CoversMembers members arguments) :
    (positionsFrom members 0 arguments).Perm (List.range members.length) := by
  obtain ⟨names, hnames, hperm, hnodup⟩ := h
  have hmembers : (members.map fun m => members.findIdx (·.name == m.name)) =
      List.range members.length := by
    refine List.ext_getElem (by simp) fun i hi _ => ?_
    rw [List.getElem_map, List.getElem_range, List.findIdx_eq (by simpa using hi)]
    refine ⟨by simp, fun j hj => ?_⟩
    have hdistinct := List.nodup_iff_injective_getElem.1 (hperm.nodup_iff.1 hnodup)
    have hlength : i < members.length := by simpa using hi
    have hne : members[j].name ≠ members[i].name := fun heq => by
      have hsame := @hdistinct ⟨j, by rw [List.length_map]; omega⟩
        ⟨i, by rw [List.length_map]; omega⟩ (by simpa using heq)
      exact absurd (congrArg Fin.val hsame) (Nat.ne_of_lt hj)
    simpa using hne
  rw [positionsFrom_of_named members 0 hnames, ← hmembers]
  have hmapped := hperm.map fun n => members.findIdx (·.name == n)
  rwa [List.map_map] at hmapped

theorem coversMembers_of_count {members : List LayoutMember} {arguments : List Argument}
    {names : List String} (h : arguments.map (fun a => a.name.map (·.value)) = names.map some)
    (hknown : ∀ n ∈ names, ∃ m ∈ members, m.name = n)
    (hcount : ∀ m ∈ members, names.count m.name = 1)
    (hlength : arguments.length = members.length) : CoversMembers members arguments := by
  have hnames : names.length = members.length := by
    rw [← hlength]
    simpa using (congrArg List.length h).symm
  have hnodup : names.Nodup := by
    refine List.nodup_iff_count_le_one.2 fun n => ?_
    by_cases hn : n ∈ names
    · obtain ⟨m, hm, rfl⟩ := hknown n hn
      exact Nat.le_of_eq (hcount m hm)
    · simp [List.count_eq_zero_of_not_mem hn]
  refine ⟨names, h, ?_, hnodup⟩
  refine (hnodup.subperm fun n hn => ?_).perm_of_length_le (by simp [hnames])
  obtain ⟨m, hm, rfl⟩ := hknown n hn
  exact List.mem_map_of_mem hm

theorem filter_isNamed_length {arguments : List Argument} {names : List String}
    (h : arguments.map (fun a => a.name.map (·.value)) = names.map some) (name : String) :
    (arguments.filter (isNamed · name)).length = names.count name := by
  induction arguments generalizing names with
  | nil =>
    have : names = [] := by simpa using h.symm
    simp [this]
  | cons a rest ih =>
    cases names with
    | nil => simp at h
    | cons n names =>
      simp only [List.map_cons, List.cons.injEq] at h
      obtain ⟨given, hgiven, hn⟩ := Option.map_eq_some_iff.1 h.1
      have hnamed : isNamed a name = (n == name) := by simp [isNamed, hgiven, hn]
      rw [List.filter_cons, hnamed, List.count_cons, ← ih h.2]
      split <;> simp

theorem exists_names {arguments : List Argument} (h : ∀ a ∈ arguments, a.name.isSome) :
    ∃ names : List String,
      arguments.map (fun a => a.name.map (·.value)) = names.map some := by
  induction arguments with
  | nil => exact ⟨[], rfl⟩
  | cons a rest ih =>
    obtain ⟨names, hnames⟩ := ih fun b hb => h b (by simp [hb])
    obtain ⟨n, hn⟩ := Option.isSome_iff_exists.1 (h a (by simp))
    exact ⟨n.value :: names, by simp [hn, hnames]⟩

/-- Arguments that pass the checks have no names and the right number, or cover the members. -/
theorem checkArguments_cases {span : Span} {ty : Ty} {layout : Layout} {arguments : List Argument}
    (h : checkArguments span ty layout arguments = .ok ()) :
    (∀ a ∈ arguments, a.name = none) ∧ arguments.length = layout.members.length ∨
      CoversMembers layout.members arguments := by
  unfold checkArguments at h
  dsimp only at h
  split at h
  · cases h
  · rename_i hformat
    split at h
    · cases h
    · rename_i hunknown
      split at h
      · cases h
      · rename_i hcover
        simp only [not_or, not_and, Bool.not_eq_true', not_not] at hcover
        obtain ⟨hcovered, hlength⟩ := hcover
        by_cases hnone : (arguments.filter (·.name.isSome)).length = 0
        · refine .inl ⟨fun a ha => ?_, hlength⟩
          have := List.filter_eq_nil_iff.1 (List.length_eq_zero_iff.1 hnone) a ha
          simpa using this
        · have hsame : (arguments.filter (·.name.isSome)).length = arguments.length := by
            by_contra hne
            exact hformat ⟨hnone, hne⟩
          have hall : ∀ a ∈ arguments, a.name.isSome := by
            simpa using List.length_filter_eq_length_iff.1 hsame
          obtain ⟨names, hnames⟩ := exists_names hall
          refine .inr (coversMembers_of_count hnames ?_ ?_ hlength)
          · intro n hn
            have hmem : some n ∈ arguments.map (fun a => a.name.map (·.value)) := by
              rw [hnames]
              exact List.mem_map_of_mem hn
            obtain ⟨a, ha, hname⟩ := List.mem_map.1 hmem
            obtain ⟨given, hgiven, rfl⟩ := Option.map_eq_some_iff.1 hname
            have hfound := List.findSome?_eq_none_iff.1 hunknown a ha
            simp only [hgiven, Option.bind_some, ite_eq_right_iff, reduceCtorEq, imp_false,
              Option.isNone_iff_eq_none] at hfound
            obtain ⟨m, hm⟩ := Option.ne_none_iff_exists'.1 hfound
            refine ⟨m, List.mem_of_find?_eq_some hm, ?_⟩
            simpa using List.find?_some hm
          · intro m hm
            rw [← filter_isNamed_length hnames]
            have hone := hcovered hnone
            rw [Bool.not_eq_false, List.all_eq_true] at hone
            exact of_decide_eq_true (hone m hm)

theorem checkArguments_of_covers (span : Span) (ty : Ty) {layout : Layout}
    {arguments : List Argument} (h : CoversMembers layout.members arguments) :
    checkArguments span ty layout arguments = .ok () := by
  have hlength := h.length_eq
  have hall := h.named
  obtain ⟨names, hnames, hperm, hnodup⟩ := h
  have hnamed : arguments.filter (·.name.isSome) = arguments := by
    refine List.filter_eq_self.2 fun a ha => ?_
    obtain ⟨n, hn, -⟩ := hall a ha
    simp [hn]
  have hunknown : (arguments.findSome? fun a => a.name.bind fun n =>
      if (layout.member? n.value).isNone then some n else none) = none := by
    refine List.findSome?_eq_none_iff.2 fun a ha => ?_
    obtain ⟨n, hn, hmember⟩ := hall a ha
    obtain ⟨m, hm, hname⟩ := List.mem_map.1 hmember
    have hfound : (layout.member? n.value).isSome := by
      rw [Layout.member?, List.find?_isSome]
      exact ⟨m, hm, by simp [hname]⟩
    simp [hn, Option.isSome_iff_ne_none.1 hfound]
  have hcovered : (layout.members.all fun m =>
      (arguments.filter (isNamed · m.name)).length = 1) = true := by
    refine List.all_eq_true.2 fun m hm => decide_eq_true ?_
    rw [filter_isNamed_length hnames]
    exact List.count_eq_one_of_mem hnodup (hperm.mem_iff.2 (List.mem_map_of_mem hm))
  unfold checkArguments
  simp only [hnamed, hunknown, hcovered, hlength]
  simp

theorem checkArguments_error {span : Span} {ty : Ty} {layout : Layout} {arguments : List Argument}
    {d : Diagnostic} (h : checkArguments span ty layout arguments = .error d) :
    ∃ place problem, d = problemAt place problem ∧ (problem = .constructorFormat ∨
      (∃ name, problem = .constructorUnknownMember ty name) ∨
      problem = .constructorCount ty layout.members.length arguments.length) := by
  unfold checkArguments at h
  dsimp only at h
  split at h
  · cases h
    exact ⟨_, _, rfl, .inl rfl⟩
  · split at h
    · cases h
      exact ⟨_, _, rfl, .inr (.inl ⟨_, rfl⟩)⟩
    · split at h
      · cases h
        exact ⟨_, _, rfl, .inr (.inr rfl)⟩
      · cases h

theorem positions_perm_of_checkArguments {span : Span} {ty : Ty} {layout : Layout}
    {arguments : List Argument} (h : checkArguments span ty layout arguments = .ok ()) :
    (positionsFrom layout.members 0 arguments).Perm (List.range layout.members.length) := by
  rcases checkArguments_cases h with ⟨hall, hlength⟩ | hcovers
  · rw [positionsFrom_of_unnamed _ _ hall, hlength, ← List.range_eq_range']
  · exact hcovers.positions_perm

theorem map_position_mergeSort {env : Env} {scope : ScopePath} {span : Span} {ty : Ty}
    {layout : Layout} {arguments : List Argument}
    (h : checkArguments span ty layout arguments = .ok ()) :
    ((inferArguments env scope layout.members 0 arguments).mergeSort
      fun a b => a.position ≤ b.position).map (·.position) = List.range layout.members.length := by
  have hperm := (List.mergeSort_perm (inferArguments env scope layout.members 0 arguments)
    fun a b => a.position ≤ b.position).map (·.position)
  rw [map_position_inferArguments] at hperm
  have hsorted : ((inferArguments env scope layout.members 0 arguments).mergeSort
      fun a b => a.position ≤ b.position).Pairwise fun a b => decide (a.position ≤ b.position) := by
    refine List.pairwise_mergeSort (fun a b c hab hbc => ?_) (fun a b => ?_) _
    · simp only [decide_eq_true_eq] at hab hbc ⊢
      exact Nat.le_trans hab hbc
    · simpa using Nat.le_total a.position b.position
  refine List.Perm.eq_of_pairwise (fun a b _ _ hab hba => Nat.le_antisymm hab hba) ?_
    List.pairwise_le_range (hperm.trans (positions_perm_of_checkArguments h))
  rw [List.pairwise_map]
  exact hsorted.imp fun hab => of_decide_eq_true hab

end RegionCompiler.Typing
