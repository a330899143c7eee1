import Mathlib
import RegionCompiler.Source

/-! Locations as counts of the text before them, and the lines that they select. -/
namespace RegionCompiler

/-- Where the text goes on behind `before`. The column counts what follows the last newline. -/
def Location.behind (before : List Char) : Location where
  offset := (before.map Char.utf8Size).sum
  line := before.count '\n'
  column := (before.rtakeWhile (· ≠ '\n')).length

/-- The location lies between two characters of the text, or at one of its ends. -/
def Location.IsIn (at_ : Location) (text : List Char) : Prop :=
  ∃ before, before <+: text ∧ at_ = .behind before

namespace Location

variable {before word : List Char}

@[simp] theorem behind_nil : behind [] = origin := by simp [behind, origin]

theorem behind_concat (before : List Char) (c : Char) :
    behind (before ++ [c]) = (behind before).advance c := by
  by_cases h : c = '\n' <;> simp [behind, advance, h]

theorem advanceBy_behind (before word : List Char) :
    (behind before).advanceBy word = behind (before ++ word) := by
  induction word generalizing before with
  | nil => simp
  | cons c word ih =>
    rw [advanceBy_cons, ← behind_concat, ih, List.append_assoc, List.singleton_append]

theorem line_behind_append (before word : List Char) :
    (behind (before ++ word)).line = (behind before).line + word.count '\n' :=
  List.count_append

theorem offset_le (before word : List Char) :
    (behind before).offset ≤ (behind (before ++ word)).offset := by
  simp [behind]

theorem offset_lt (before : List Char) (h : word ≠ []) :
    (behind before).offset < (behind (before ++ word)).offset := by
  obtain ⟨c, rest, rfl⟩ := List.exists_cons_of_ne_nil h
  have := c.utf8Size_pos
  simp only [behind, List.map_append, List.map_cons, List.sum_append, List.sum_cons]
  omega

end Location

namespace Source

/-- A character joins what follows the last newline only if there is no newline. -/
theorem rtakeWhile_cons (d : Char) (before : List Char) :
    (d :: before).rtakeWhile (· ≠ '\n') =
      if '\n' ∈ d :: before then before.rtakeWhile (· ≠ '\n') else d :: before := by
  induction before using List.reverseRecOn with
  | nil => by_cases hd : d = '\n' <;> simp [List.rtakeWhile, hd, eq_comm]
  | append_singleton before c ih =>
    rw [← List.cons_append]
    by_cases hc : c = '\n'
    · simp [hc]
    · rw [List.rtakeWhile_concat_pos _ _ _ (by simpa using hc), ih,
        List.rtakeWhile_concat_pos _ _ _ (by simpa using hc)]
      have hiff : '\n' ∈ d :: before ++ [c] ↔ '\n' ∈ d :: before := by
        simp [List.mem_append, Ne.symm hc]
      by_cases hmem : '\n' ∈ d :: before
      · rw [if_pos hmem, if_pos (hiff.2 hmem)]
      · rw [if_neg hmem, if_neg fun h => hmem (hiff.1 h)]

theorem splitLines_get (before : List Char) {c : Char} (hc : c ≠ '\n') (after : List Char) :
    ∃ more, (splitLines (before ++ c :: after))[before.count '\n']? =
      some (before.rtakeWhile (· ≠ '\n') ++ c :: more) := by
  induction before with
  | nil =>
    rw [List.nil_append, splitLines, if_neg hc]
    split <;> exact ⟨_, rfl⟩
  | cons d before ih =>
    obtain ⟨more, hmore⟩ := ih
    rw [List.cons_append, splitLines, rtakeWhile_cons]
    by_cases hd : d = '\n'
    · exact ⟨more, by simp [hd, hmore]⟩
    · rw [if_neg hd, List.count_cons_of_ne hd]
      cases hlines : splitLines (before ++ c :: after) with
      | nil => simp [hlines] at hmore
      | cons line lines =>
        rw [hlines] at hmore
        refine ⟨more, ?_⟩
        by_cases hmem : '\n' ∈ before
        · obtain ⟨k, hk⟩ := Nat.exists_eq_succ_of_ne_zero (List.count_pos_iff.2 hmem).ne'
          simpa [hk, hmem] using hmore
        · have hall : before.rtakeWhile (· ≠ '\n') = before :=
            List.rtakeWhile_eq_self_iff.2 fun x hx => by
              simpa using fun h : x = '\n' => hmem (h ▸ hx)
          rw [hall, List.count_eq_zero_of_not_mem hmem] at hmore
          simpa [hmem, Ne.symm hd, List.count_eq_zero_of_not_mem hmem] using hmore

/-- Only what ends the line is dropped. -/
theorem dropTerminator_get (before : List Char) {c : Char} (hline : c ≠ '\n') (hreturn : c ≠ '\r')
    (more : List Char) : ∃ rest, dropTerminator (before ++ c :: more) = before ++ c :: rest := by
  obtain ⟨back, rfl⟩ : ∃ back, more = back.reverse := ⟨more.reverse, (List.reverse_reverse _).symm⟩
  have hreverse : (before ++ c :: back.reverse).reverse = back ++ c :: before.reverse := by simp
  unfold dropTerminator
  rw [hreverse]
  rcases back with _ | ⟨x, _ | ⟨y, back⟩⟩
  · exact ⟨[], by simp [hline]⟩
  · by_cases hx : x = '\n'
    · exact ⟨[], by simp [hx, hreturn]⟩
    · exact ⟨[x], by simp [hx]⟩
  · by_cases hx : x = '\n'
    · by_cases hy : y = '\r'
      · exact ⟨back.reverse, by simp [hx, hy]⟩
      · exact ⟨back.reverse ++ [y], by simp [hx, hy]⟩
    · exact ⟨back.reverse ++ [y, x], by simp [hx]⟩

theorem lineOf?_get {source : String} {before after : List Char} {c : Char}
    (hsource : source.toList = before ++ c :: after) (hline : c ≠ '\n') (hreturn : c ≠ '\r')
    {span : Span} (hspan : span.start = .behind before) :
    ∃ line, lineOf? source span = some line ∧ line.toList[span.start.column]? = some c := by
  obtain ⟨more, hmore⟩ := splitLines_get before hline after
  obtain ⟨rest, hrest⟩ :=
    dropTerminator_get (before.rtakeWhile (· ≠ '\n')) hline hreturn more
  refine ⟨_, by rw [lineOf?, hsource, hspan, Location.behind, hmore, Option.map_some, hrest], ?_⟩
  rw [String.toList_ofList, hspan, Location.behind, List.getElem?_append_right (Nat.le_refl _),
    Nat.sub_self, List.getElem?_cons_zero]

end Source

end RegionCompiler
