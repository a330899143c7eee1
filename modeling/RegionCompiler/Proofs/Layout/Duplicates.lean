import RegionCompiler.Proofs.Layout.Cycles

/-! Records that share a name. One of them is registered, and the reports on the others depend on
when the rounds come to them: a record is refused for one before it, or, if it had to wait, for one
behind it that did not. -/
namespace RegionCompiler.Registry

/-- Positions that grow from record to record. -/
def Numbered (waiting : List (Nat × RecordShape)) : Prop :=
  waiting.Pairwise fun v w => v.1 < w.1

section Rounds

variable {r : Registry} {waiting : List (Nat × RecordShape)} {final : Round} {i : Nat}
  {name : String}

theorem contains_register {next : Registry} {shape : RecordShape}
    (h : r.register shape.name shape.members = .ok next) (hname : next.contains name) :
    r.contains name ∨ shape.name = name := by
  obtain ⟨l, hl⟩ := Option.isSome_iff_exists.1 hname
  rcases get?_register h hl with hold | ⟨rfl, -⟩
  · exact .inl (by rw [contains, hold]; rfl)
  · exact .inr rfl

/-- Only records that are not ready wait for another round. -/
theorem not_ready_of_waiting {w : Nat × RecordShape} (hw : w ∈ (r.round waiting).waiting) :
    r.isReady w.2 = false := by
  induction waiting generalizing r with
  | nil => cases hw
  | cons first rest ih =>
    rcases r.round_cons first.1 first.2 rest with
      ⟨next, -, hnext, hround⟩ | ⟨e, -, -, hround⟩ | ⟨hwaits, hround⟩ <;> rw [hround] at hw
    · by_contra hready
      have hlater := isReady_mono (register_le hnext) (by simpa using hready)
      rw [ih hw] at hlater
      cases hlater
    · exact ih hw
    · rcases List.mem_cons.1 hw with rfl | hw
      · exact hwaits
      · exact ih hw

theorem duplicate_round (hwaiting : Numbered waiting)
    (h : (i, .duplicateType name) ∈ (r.round waiting).errors) :
    ∃ s, (i, s) ∈ waiting ∧ s.name = name ∧
      (r.contains name ∨ ∃ w ∈ waiting, w.2.name = name ∧ w.1 < i) := by
  induction waiting generalizing r with
  | nil => cases h
  | cons first rest ih =>
    obtain ⟨hfirst, hrest⟩ := List.pairwise_cons.1 hwaiting
    rcases r.round_cons first.1 first.2 rest with
      ⟨next, -, hnext, hround⟩ | ⟨e, hready, he, hround⟩ | ⟨-, hround⟩ <;> rw [hround] at h
    · obtain ⟨s, hs, hname, hcause⟩ := ih hrest h
      refine ⟨s, List.mem_cons_of_mem _ hs, hname, ?_⟩
      rcases hcause with hcontains | ⟨w, hw, hwname, hlt⟩
      · refine (contains_register hnext hcontains).imp_right fun hown => ?_
        exact ⟨first, List.mem_cons_self, hown, hfirst _ hs⟩
      · exact .inr ⟨w, List.mem_cons_of_mem _ hw, hwname, hlt⟩
    · rcases List.mem_cons.1 h with heq | h
      · cases heq
        rcases register_refuses hready he with ⟨hdup, hname⟩ | hlarge | ⟨m, -, -, hfunction⟩
        · cases hdup
          exact ⟨first.2, List.mem_cons_self, rfl, .inl hname⟩
        · cases hlarge
        · cases hfunction
      · obtain ⟨s, hs, hname, hcause⟩ := ih hrest h
        exact ⟨s, List.mem_cons_of_mem _ hs, hname, hcause.imp_right fun ⟨w, hw, hother⟩ =>
          ⟨w, List.mem_cons_of_mem _ hw, hother⟩⟩
    · obtain ⟨s, hs, hname, hcause⟩ := ih hrest h
      exact ⟨s, List.mem_cons_of_mem _ hs, hname, hcause.imp_right fun ⟨w, hw, hother⟩ =>
        ⟨w, List.mem_cons_of_mem _ hw, hother⟩⟩

/-- What a round registers is not among what it leaves waiting. -/
theorem contains_round (hwaiting : Numbered waiting) {w : Nat × RecordShape}
    (hw : w ∈ (r.round waiting).waiting) (h : (r.round waiting).registry.contains name) :
    r.contains name ∨ ∃ v ∈ waiting, v.2.name = name ∧ v.1 ≠ w.1 := by
  induction waiting generalizing r with
  | nil => cases hw
  | cons first rest ih =>
    obtain ⟨hfirst, hrest⟩ := List.pairwise_cons.1 hwaiting
    rcases r.round_cons first.1 first.2 rest with
      ⟨next, -, hnext, hround⟩ | ⟨e, -, -, hround⟩ | ⟨-, hround⟩ <;> rw [hround] at hw h
    · rcases ih hrest hw h with hcontains | ⟨v, hv, hother⟩
      · refine (contains_register hnext hcontains).imp_right fun hown => ?_
        exact ⟨first, List.mem_cons_self, hown, (hfirst w (round_sublist.subset hw)).ne⟩
      · exact .inr ⟨v, List.mem_cons_of_mem _ hv, hother⟩
    · exact (ih hrest hw h).imp_right fun ⟨v, hv, hother⟩ => ⟨v, List.mem_cons_of_mem _ hv, hother⟩
    · rcases List.mem_cons.1 hw with rfl | hw
      · obtain ⟨l, hl⟩ := Option.isSome_iff_exists.1 h
        rcases get?_round hl with hold | ⟨v, hv, hname, -⟩
        · exact .inl (by rw [contains, hold]; rfl)
        · exact .inr ⟨v, List.mem_cons_of_mem _ hv, hname, (hfirst v hv).ne'⟩
      · exact (ih hrest hw h).imp_right fun ⟨v, hv, hother⟩ =>
          ⟨v, List.mem_cons_of_mem _ hv, hother⟩

/-- A record is refused for one before it, or for one behind it while it was not ready. -/
theorem Settles.duplicate (h : r.Settles waiting final) (hwaiting : Numbered waiting)
    (he : (i, .duplicateType name) ∈ final.errors) : ∃ s, (i, s) ∈ waiting ∧ s.name = name ∧
      (r.contains name ∨ ∃ w ∈ waiting, w.2.name = name ∧
        (w.1 < i ∨ i < w.1 ∧ r.isReady s = false)) := by
  have hround {r : Registry} {waiting : List (Nat × RecordShape)} (hwaiting : Numbered waiting)
      (he : (i, .duplicateType name) ∈ (r.round waiting).errors) :
      ∃ s, (i, s) ∈ waiting ∧ s.name = name ∧ (r.contains name ∨ ∃ w ∈ waiting,
        w.2.name = name ∧ (w.1 < i ∨ i < w.1 ∧ r.isReady s = false)) := by
    obtain ⟨s, hs, hname, hcause⟩ := duplicate_round hwaiting he
    exact ⟨s, hs, hname, hcause.imp_right fun ⟨w, hw, hwname, hlt⟩ => ⟨w, hw, hwname, .inl hlt⟩⟩
  induction h with
  | last _ => exact hround hwaiting he
  | @next r waiting final _ _ ih =>
    rcases List.mem_append.1 he with he | he
    · exact hround hwaiting he
    · obtain ⟨s, hs, hname, hcause⟩ := ih (hwaiting.sublist round_sublist) he
      have hready : r.isReady s = false := not_ready_of_waiting hs
      refine ⟨s, round_sublist.subset hs, hname, ?_⟩
      rcases hcause with hcontains | ⟨w, hw, hwname, hplace⟩
      · refine (contains_round hwaiting hs hcontains).imp_right fun ⟨v, hv, hvname, hne⟩ => ?_
        exact ⟨v, hv, hvname, hne.lt_or_gt.imp_right fun hgt => ⟨hgt, hready⟩⟩
      · exact .inr ⟨w, round_sublist.subset hw, hwname, hplace.imp_right fun h => ⟨h.1, hready⟩⟩

end Rounds

/-- A record that is reported for its name has a name of the registry or of another record. If none
of the others stands before it, it was not ready at the start. -/
theorem registerRecords_duplicate {r : Registry} {shapes : List RecordShape} {i : Nat}
    {name : String} (h : (i, .duplicateType name) ∈ (r.registerRecords shapes).2) :
    ∃ s, shapes[i]? = some s ∧ s.name = name ∧ (r.contains name ∨
      ∃ j s', shapes[j]? = some s' ∧ s'.name = name ∧ (j < i ∨ i < j ∧ r.isReady s = false)) := by
  obtain ⟨final, hfinal, -, herrors⟩ := registerRecords_settles r shapes
  have hnumbered : Numbered (numbered shapes) := by
    refine List.pairwise_map.1 ?_
    rw [map_fst_numbered]
    exact List.pairwise_lt_range
  rcases List.mem_append.1 (herrors.mem_iff.1 h) with he | hleft
  · obtain ⟨s, hs, hname, hcause⟩ := hfinal.duplicate hnumbered he
    refine ⟨s, mem_numbered.1 hs, hname, hcause.imp_right ?_⟩
    rintro ⟨⟨j, s'⟩, hw, hother⟩
    exact ⟨j, s', mem_numbered.1 hw, hother⟩
  · obtain ⟨w, -, heq⟩ := List.mem_map.1 hleft
    obtain ⟨-, hstuck⟩ := Prod.mk.inj heq
    rcases stuck_cases final.registry shapes w.2 with ⟨m, -, -, hcase⟩ | ⟨-, hcase⟩ <;>
      rw [hcase] at hstuck <;> cases hstuck

end RegionCompiler.Registry
