import RegionCompiler.Proofs.Typing.Locals

/-! Mangled names stand for paths. The scopes in front of a name can be read back from its mangled
form, because neither names nor the segments of blocks hold the mark between them. -/
namespace RegionCompiler

/-- The characters that the scopes of a path put in front of a name. -/
def spelled (path : List String) : List Char :=
  path.flatMap fun segment => segment.toList ++ ['$']

/-- The mangled name belongs to the path or to a path within it. -/
def Under (path : List String) (mangled : String) : Prop :=
  spelled path <+: mangled.toList

variable {path : List String} {a b m x y : String}

theorem toList_mangleIn (path : List String) (name : String) :
    (ScopePath.mangleIn path name).toList = spelled path ++ name.toList := by
  simp [ScopePath.mangleIn, spelled, List.flatMap_map]

theorem spelled_append (path more : List String) :
    spelled (path ++ more) = spelled path ++ spelled more := by
  simp [spelled]

theorem under_mangleIn (path : List String) (name : String) :
    Under path (ScopePath.mangleIn path name) := by
  rw [Under, toList_mangleIn]
  exact List.prefix_append _ _

theorem Under.outer {more : List String} (h : Under (path ++ more) m) : Under path m := by
  rw [Under, spelled_append] at h
  exact (List.prefix_append _ _).trans h

theorem Under.segment (ha : Under (path ++ [a]) m) (hb : Under (path ++ [b]) m) (han : IsName a)
    (hbn : IsName b) : a = b := by
  obtain ⟨after, hafter⟩ := ha
  obtain ⟨after', hafter'⟩ := hb
  rw [← hafter', spelled_append, spelled_append, List.append_assoc, List.append_assoc,
    List.append_cancel_left_eq] at hafter
  have hsame : spelled [a] ++ after = spelled [b] ++ after' := hafter
  have ha : Owned a (String.ofList (spelled [a] ++ after)) := ⟨after, by simp [spelled]⟩
  have hb : Owned b (String.ofList (spelled [a] ++ after)) :=
    ⟨after', by rw [hsame]; simp [spelled]⟩
  exact ha.unique hb han hbn

theorem not_under_mangleIn (hx : IsName x) : ¬ Under (path ++ [a]) (ScopePath.mangleIn path x) := by
  rintro ⟨after, hafter⟩
  rw [toList_mangleIn, spelled_append, List.append_assoc, List.append_cancel_left_eq] at hafter
  apply hx
  rw [← hafter]
  simp [spelled]

theorem not_under_of_isName (hx : IsName x) : ¬ Under [a] x := by
  have h := @not_under_mangleIn [] a x hx
  simpa [ScopePath.mangleIn] using h

theorem mangleIn_inj (h : ScopePath.mangleIn path x = ScopePath.mangleIn path y) : x = y := by
  have hchars := congrArg String.toList h
  rw [toList_mangleIn, toList_mangleIn, List.append_cancel_left_eq] at hchars
  exact String.toList_inj.1 hchars

def SegmentKind.segment (kind : SegmentKind) (index : Nat) : String :=
  kind.name ++ toString index

theorem toList_toString (n : Nat) : (toString n).toList = Nat.toDigits 10 n := by
  rw [Nat.toString_eq_ofList_toDigits, String.toList_ofList]

theorem digit_of_mem_toString {n : Nat} {c : Char} (h : c ∈ (toString n).toList) :
    c.isDigit = true := by
  rw [toList_toString] at h
  exact Nat.isDigit_of_mem_toDigits (by omega) (by omega) h

theorem SegmentKind.name_not_digit (kind : SegmentKind) :
    ∀ c ∈ kind.name.toList, c.isDigit = false ∧ c ≠ '$' := by
  cases kind <;> simp [SegmentKind.name]

theorem SegmentKind.segment_isName (kind : SegmentKind) (index : Nat) :
    IsName (kind.segment index) := by
  intro h
  rw [SegmentKind.segment, String.toList_append, List.mem_append] at h
  rcases h with h | h
  · exact (kind.name_not_digit _ h).2 rfl
  · have hdigit := digit_of_mem_toString h
    simp [Char.isDigit] at hdigit

theorem SegmentKind.name_inj {k l : SegmentKind} (h : k.name = l.name) : k = l := by
  cases k <;> cases l <;> first | rfl | (exact absurd h (by decide))

theorem SegmentKind.segment_inj {k l : SegmentKind} {i j : Nat} (h : k.segment i = l.segment j) :
    k = l ∧ i = j := by
  have hname : ∀ (k : SegmentKind) (i : Nat),
      (k.segment i).toList.takeWhile (!·.isDigit) = k.name.toList := by
    intro k i
    rw [SegmentKind.segment, String.toList_append, List.takeWhile_append_of_pos]
    · have hdigits : (toString i).toList.takeWhile (!·.isDigit) = [] := by
        cases hi : (toString i).toList with
        | nil => rfl
        | cons c rest =>
          have hc : c.isDigit = true := digit_of_mem_toString (hi ▸ List.mem_cons_self)
          simp [hc]
      rw [hdigits, List.append_nil]
    · intro c hc
      simp [(k.name_not_digit c hc).1]
  have hk : k = l := by
    apply SegmentKind.name_inj
    apply String.toList_inj.1
    rw [← hname k i, ← hname l j, h]
  subst hk
  have hdigits : Nat.toDigits 10 i = Nat.toDigits 10 j := by
    have hchars := congrArg String.toList h
    rwa [SegmentKind.segment, SegmentKind.segment, String.toList_append, String.toList_append,
      List.append_cancel_left_eq, toList_toString, toList_toString] at hchars
  have hvalue := congrArg (Nat.ofDigitChars 10 · 0) hdigits
  simp only [Nat.ofDigitChars_ten_toDigits] at hvalue
  exact ⟨rfl, hvalue⟩

namespace ScopePath

theorem segments_child (scope : ScopePath) (kind : SegmentKind) (index : Nat) :
    (scope.child kind index).segments = scope.segments ++ [kind.segment index] := by
  simp [segments, child, SegmentKind.segment]

theorem candidates_ofFunction (f name : String) :
    (ofFunction f).candidates name = [(ofFunction f).mangle name] := by
  simp [candidates, ofFunction, segments, mangle]

theorem candidates_child (scope : ScopePath) (kind : SegmentKind) (index : Nat) (name : String) :
    (scope.child kind index).candidates name =
      (scope.child kind index).mangle name :: scope.candidates name := by
  simp only [candidates, mangle, segments_child, List.length_append, List.length_singleton]
  rw [List.range_succ, List.reverse_append, List.map_append]
  have hrest : (List.range scope.segments.length).reverse.map (fun n =>
      mangleIn ((scope.segments ++ [kind.segment index]).take (n + 1)) name) =
      (List.range scope.segments.length).reverse.map fun n =>
        mangleIn (scope.segments.take (n + 1)) name := by
    apply List.map_congr_left
    intro n hn
    have hlt : n < scope.segments.length := by simpa using hn
    rw [List.take_append_of_le_length (by omega)]
  rw [hrest]
  simp [List.take_of_length_le]

end ScopePath

end RegionCompiler
