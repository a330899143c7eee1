import RegionCompiler.Proofs.Typing.Annotation
import RegionCompiler.Proofs.Typing.Arguments

/-! Record expressions whose arguments have names. What passes the checks is put into the order of
the members, each value with its name. -/
namespace RegionCompiler

theorem Argument.AllFill.map_name {arguments arguments' : List Argument}
    (h : Argument.AllFill arguments arguments') :
    arguments'.map (·.name) = arguments.map (·.name) := by
  induction arguments generalizing arguments' with
  | nil =>
    cases h
    rfl
  | cons a rest ih =>
    cases h with
    | cons _ hrest => exact congrArg (_ :: ·) (ih hrest)

namespace Typing

variable {env : Env} {scope : ScopePath} {hint : Ty} {node : Node} {record : Located String}
  {layout : Layout} {arguments : List Argument}

theorem name_eq_of_inferArguments {members : List LayoutMember} {position : Nat}
    (h : ∀ a ∈ arguments, ∃ n, a.name = some n ∧ n.value ∈ members.map (·.name)) :
    ∀ c ∈ inferArguments env scope members position arguments,
      c.before.name.map (·.value) = members[c.position]?.map (·.name) := by
  induction arguments generalizing position with
  | nil => simp [inferArguments]
  | cons a rest ih =>
    obtain ⟨name, value⟩ := a
    rw [inferArguments]
    refine List.forall_mem_cons.2 ⟨?_, ih fun b hb => h b (List.mem_cons_of_mem _ hb)⟩
    obtain ⟨n, hn, hmember⟩ := h _ List.mem_cons_self
    obtain rfl : name = some n := hn
    obtain ⟨m, hm, hname⟩ := List.mem_map.1 hmember
    have hlt : members.findIdx (·.name == n.value) < members.length :=
      List.findIdx_lt_length_of_exists ⟨m, hm, by simp [hname]⟩
    have hfound : members[members.findIdx (·.name == n.value)].name = n.value := by
      simpa using @List.findIdx_getElem _ (·.name == n.value) members hlt
    change some n.value = members[members.findIdx (·.name == n.value)]?.map (·.name)
    rw [List.getElem?_eq_getElem hlt, Option.map_some, hfound]

theorem checkArguments_iff_covers (span : Span) (ty : Ty)
    (hnamed : ∃ a ∈ arguments, a.name.isSome) :
    checkArguments span ty layout arguments = .ok () ↔ CoversMembers layout.members arguments := by
  refine ⟨fun h => (checkArguments_cases h).resolve_left ?_, checkArguments_of_covers span ty⟩
  rintro ⟨hnone, -⟩
  obtain ⟨a, ha, hname⟩ := hnamed
  simp [hnone a ha] at hname

/-- Arguments that do not pass stay as they were. -/
theorem infer_construct_rejected (hl : env.layouts.get? record.value = some layout)
    {d : Diagnostic}
    (h : checkArguments node.span (.base record.value) layout arguments = .error d) :
    infer env scope hint (.construct node record arguments) =
      (.construct { node with ty := some .invalid } record arguments, .error d) := by
  rw [infer]
  simp only [hl, h, recorded]

theorem infer_construct_ordered (hl : env.layouts.get? record.value = some layout)
    (h : CoversMembers layout.members arguments) :
    ∃ ordered settled result, arguments.Perm ordered ∧ Argument.AllFill ordered settled ∧
      settled.map (fun a => a.name.map (·.value)) = layout.members.map (some ·.name) ∧
      infer env scope hint (.construct node record arguments) =
        (.construct { node with ty := some (recorded result) } record settled, result) ∧
      ∀ t, result = .ok t → t = .base record.value := by
  have hcheck := checkArguments_of_covers node.span (.base record.value) h
  have hsorted := List.mergeSort_perm (inferArguments env scope layout.members 0 arguments)
    fun a b => a.position ≤ b.position
  have hperm := (hsorted.map CheckedArgument.before).symm
  rw [map_before_inferArguments] at hperm
  have hfills := settleArguments_fills fun a ha =>
    inferArguments_fills env scope layout.members 0 arguments a (hsorted.mem_iff.1 ha)
  have hnames : ((inferArguments env scope layout.members 0 arguments).mergeSort
      fun a b => a.position ≤ b.position).map (fun c => c.before.name.map (·.value)) =
      layout.members.map (some ·.name) := by
    have hplaces := congrArg (List.map fun i => layout.members[i]?.map (·.name))
      (@map_position_mergeSort env scope _ _ _ _ hcheck)
    rw [List.map_map] at hplaces
    rw [List.map_congr_left fun c hc => name_eq_of_inferArguments h.named c (hsorted.mem_iff.1 hc)]
    refine hplaces.trans (List.ext_getElem (by simp) fun i hi hi' => ?_)
    have hlt : i < layout.members.length := by simpa using hi'
    simp [hlt]
  cases hs : settleArguments ((inferArguments env scope layout.members 0 arguments).mergeSort
      fun a b => a.position ≤ b.position) with | mk settled outcome
  rw [hs] at hfills
  refine ⟨_, settled, outcome.map fun () => .base record.value, hperm, hfills, ?_, ?_, ?_⟩
  · have hkept := congrArg (List.map (Option.map fun n : Located String => n.value)) hfills.map_name
    simp only [List.map_map] at hkept
    exact hkept.trans hnames
  · rw [infer]
    simp only [hl, hcheck, hs]
  · intro t ht
    cases outcome with
    | error d => cases ht
    | ok _ =>
      cases ht
      rfl

end Typing

end RegionCompiler
