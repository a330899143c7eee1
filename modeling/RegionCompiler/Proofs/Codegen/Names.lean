import RegionCompiler.Proofs.Codegen.Closed
import RegionCompiler.Proofs.Scope.Path

/-! The names of a generated unit: each is defined once, and whatever the unit refers to is defined
or external. Only foreign functions can bring an external name that is defined as well. -/
namespace RegionCompiler.Machine

open Codegen

section Owners

variable {code code' : Code} {i j : Nat} {l : Label} {name : String}

/-- Functions and routines one behind the other. Behind each symbol stands code without further
symbols that jumps to labels within it. -/
inductive Enclosed : Code → Prop
  | nil : Enclosed []
  | cons {comments name rest others} : (∀ i ∈ comments, ∃ text, i = .comment text) →
      (∀ i ∈ rest, i.symbol? = none) → (∀ i ∈ rest, ∀ l, i.jumpsTo? = some l → .label l ∈ rest) →
      Enclosed others → Enclosed (comments ++ .symbol name :: (rest ++ others))

theorem Enclosed.append (h : Enclosed code) (h' : Enclosed code') : Enclosed (code ++ code') := by
  induction h with
  | nil => exact h'
  | cons hcomments hbare hjumps _ ih =>
    simpa using Enclosed.cons hcomments hbare hjumps ih

theorem owner?_append (code : Code) (h : owner? code' i = some name) :
    owner? (code ++ code') (code.length + i) = some name := by
  unfold owner? at h ⊢
  rw [Nat.add_assoc, List.take_length_add_append, List.filterMap_append, List.getLast?_append, h]
  rfl

theorem owner?_rest {comments rest others : Code} (hbare : ∀ i ∈ rest, i.symbol? = none)
    (hi : i < rest.length) :
    owner? (comments ++ .symbol name :: (rest ++ others)) (comments.length + (i + 1)) =
      some name := by
  refine owner?_append comments ?_
  have hnone : (rest.take (i + 1)).filterMap Instr.symbol? = [] :=
    List.filterMap_eq_nil_iff.2 fun instr h => hbare instr (List.mem_of_mem_take h)
  unfold owner?
  rw [List.take_succ_cons, List.take_append_of_le_length (by omega), List.filterMap_cons]
  simp [Instr.symbol?, hnone]

theorem Enclosed.jump (h : Enclosed code) {instr : Instr} (hi : code[i]? = some instr)
    (hl : instr.jumpsTo? = some l) : ∃ j name, code[j]? = some (Instr.label l) ∧
      owner? code i = some name ∧ owner? code j = some name := by
  induction h generalizing i with
  | nil => cases hi
  | @cons comments name rest others hcomments hbare hjumps _ ih =>
    by_cases hcomment : i < comments.length
    · rw [List.getElem?_append_left hcomment] at hi
      obtain ⟨text, rfl⟩ := hcomments _ (List.mem_of_getElem? hi)
      cases hl
    obtain ⟨k, rfl⟩ := Nat.exists_eq_add_of_le (Nat.le_of_not_lt hcomment)
    rw [List.getElem?_append_right (by omega), Nat.add_sub_cancel_left] at hi
    cases k with
    | zero =>
      cases hi
      cases hl
    | succ k =>
      rw [List.getElem?_cons_succ] at hi
      by_cases hrest : k < rest.length
      · rw [List.getElem?_append_left hrest] at hi
        obtain ⟨m, hm⟩ := List.mem_iff_getElem?.1 (hjumps _ (List.mem_of_getElem? hi) l hl)
        have hmlt : m < rest.length := by
          by_contra hge
          rw [List.getElem?_eq_none (by omega)] at hm
          cases hm
        refine ⟨comments.length + (m + 1), name, ?_, owner?_rest hbare hrest,
          owner?_rest hbare hmlt⟩
        rw [List.getElem?_append_right (by omega), Nat.add_sub_cancel_left,
          List.getElem?_cons_succ, List.getElem?_append_left hmlt, hm]
      · obtain ⟨m, rfl⟩ := Nat.exists_eq_add_of_le (Nat.le_of_not_lt hrest)
        rw [List.getElem?_append_right (by omega), Nat.add_sub_cancel_left] at hi
        obtain ⟨j, name', hj, howner, howner'⟩ := ih hi
        have hbehind : ∀ n, comments.length + (rest.length + n + 1) =
            (comments ++ .symbol name :: rest).length + n := by
          intro n
          simp only [List.length_append, List.length_cons]
          omega
        have hcode : comments ++ .symbol name :: (rest ++ others) =
            (comments ++ .symbol name :: rest) ++ others := by simp
        rw [hcode, hbehind]
        refine ⟨(comments ++ .symbol name :: rest).length + j, name', ?_,
          owner?_append _ howner, owner?_append _ howner'⟩
        rw [List.getElem?_append_right (by omega), Nat.add_sub_cancel_left, hj]

theorem label_place_unique (h : (labelsIn code).count l ≤ 1) (hi : code[i]? = some (Instr.label l))
    (hj : code[j]? = some (Instr.label l)) : i = j := by
  induction code generalizing i j with
  | nil => cases hi
  | cons first rest ih =>
    have hin : ∀ {k}, rest[k]? = some (Instr.label l) → 1 ≤ (labelsIn rest).count l := fun hk =>
      List.one_le_count_iff.2 (List.mem_filterMap.2 ⟨_, List.mem_of_getElem? hk, rfl⟩)
    have hfirst : first = .label l → (labelsIn (first :: rest)).count l =
        (labelsIn rest).count l + 1 := by
      rintro rfl
      exact List.count_cons_self
    have hrest : (labelsIn rest).count l ≤ (labelsIn (first :: rest)).count l :=
      List.Sublist.count_le l ((List.sublist_cons_self first rest).filterMap _)
    cases i with
    | zero =>
      cases j with
      | zero => rfl
      | succ j =>
        have := hin hj
        have := hfirst (by simpa using hi)
        omega
    | succ i =>
      cases j with
      | zero =>
        have := hin hi
        have := hfirst (by simpa using hj)
        omega
      | succ j => rw [ih (by omega) hi hj]

end Owners

/-- A unit without loose ends. -/
structure Assembly.IsClosed (a : Assembly) : Prop where
  /-- No two labels, symbols and data labels have the same name. -/
  distinct : a.definitions.Nodup
  /-- A label that is jumped to stands at one place, in the function or routine of the jump. -/
  jumps : ∀ i instr l, a.code[i]? = some instr → instr.jumpsTo? = some l →
    ∃ j name, a.code[j]? = some (Instr.label l) ∧ (∀ k, a.code[k]? = some (Instr.label l) → k = j) ∧
      owner? a.code i = some name ∧ owner? a.code j = some name
  /-- What is called, jumped to or addressed is defined or external. -/
  symbols : ∀ i ∈ a.code, ∀ name ∈ i.symbols, name ∈ a.definitions ∨ name ∈ a.externs
  /-- Data refers to other data. -/
  quads : ∀ label values, DataItem.quads label values ∈ a.items → ∃ start ∈ a.definitions,
    ∃ stop ∈ a.definitions, values = [start, stop ++ " - " ++ start]

end RegionCompiler.Machine

namespace RegionCompiler.Codegen

open Machine Machine.Instr

section Collector

/-- Whether code names nothing but the given symbol and has no way out but through it. -/
def namesOnly (name : String) (i : Instr) : Bool :=
  i.label?.isNone && i.symbol?.isNone && i.jumpsTo?.isNone && i.symbols.all (· == name)

theorem entryPoint_names (size : Nat) : ∃ rest,
    Collector.entryPoint size = [.comment "entry point"] ++ .symbol "main" :: rest ∧
      rest.all (namesOnly "fn_main") := by
  refine ⟨(Collector.entryPoint size).drop 2, rfl, ?_⟩
  rcases size with _ | _ | _ | _ | _ | size <;> rfl

/-- Whether code jumps to labels within it alone and has no symbols. -/
def isSealed (code : Code) : Bool :=
  code.all fun i => i.symbol?.isNone && (i.jumpsTo?.all fun l => code.contains (.label l))

theorem enclosed_of_sealed {name : String} {code : Code} (h : isSealed code) :
    Enclosed (.symbol name :: code) := by
  simp only [isSealed, List.all_eq_true, Bool.and_eq_true, Option.isNone_iff_eq_none] at h
  have hsingle : Enclosed ([] ++ .symbol name :: (code ++ [])) :=
    .cons (by simp) (fun i hi => (h i hi).1) (fun i hi l hl => by
      have hall := (h i hi).2
      rw [hl] at hall
      simpa using hall) .nil
  simpa using hsingle

theorem collector_enclosed (platform : Platform) (size : Nat) :
    Enclosed (Collector.code platform size) := by
  obtain ⟨rest, hrest, hnames⟩ := entryPoint_names size
  have hentry : Enclosed (Collector.entryPoint size) := by
    have h : Enclosed ([Instr.comment "entry point"] ++ .symbol "main" :: (rest ++ [])) := by
      refine .cons (by simp) (fun i hi => ?_) (fun i hi l hl => ?_) .nil
      · have hi := List.all_eq_true.1 hnames i hi
        simp only [namesOnly, Bool.and_eq_true, Option.isNone_iff_eq_none] at hi
        exact hi.1.1.2
      · have hi := List.all_eq_true.1 hnames i hi
        simp only [namesOnly, Bool.and_eq_true, Option.isNone_iff_eq_none] at hi
        rw [hi.1.2] at hl
        cases hl
    rw [hrest]
    simpa using h
  have hpush : Enclosed (Collector.push platform ⟨1⟩) := by
    obtain ⟨system, convention⟩ := platform
    cases system <;> cases convention <;> exact enclosed_of_sealed (by decide)
  have hexit : Enclosed (Collector.exit platform ⟨2⟩ ⟨3⟩) := by
    obtain ⟨system, convention⟩ := platform
    cases system <;> cases convention <;> exact enclosed_of_sealed (by decide)
  have hcollect : Enclosed (Collector.collect platform ⟨6⟩ ⟨7⟩) := by
    obtain ⟨system, convention⟩ := platform
    cases system <;> cases convention <;> exact enclosed_of_sealed (by decide)
  have htrap : ∀ name exitCode, Enclosed (Collector.trap platform name exitCode) := by
    intro name exitCode
    obtain ⟨system, convention⟩ := platform
    cases system <;> cases convention <;> exact enclosed_of_sealed rfl
  have henter : Enclosed Collector.enter := enclosed_of_sealed (by decide)
  have hrelease : Enclosed (Collector.release ⟨4⟩) := enclosed_of_sealed (by decide)
  have hadopt : Enclosed (Collector.adopt ⟨5⟩) := enclosed_of_sealed (by decide)
  exact (((((((hentry.append hpush).append henter).append hexit).append hrelease).append
    hadopt).append hcollect).append (htrap _ _)).append (htrap _ _)

/-- The collector behind the entry point. -/
def routines (platform : Platform) : Code :=
  Collector.push platform ⟨1⟩ ++ Collector.enter ++ Collector.exit platform ⟨2⟩ ⟨3⟩
    ++ Collector.release ⟨4⟩ ++ Collector.adopt ⟨5⟩ ++ Collector.collect platform ⟨6⟩ ⟨7⟩
    ++ Collector.trap platform Collector.memoryTrap Collector.memoryExitCode
    ++ Collector.trap platform Collector.boundsTrap Collector.boundsExitCode

theorem collector_eq (platform : Platform) (size : Nat) : ∃ rest,
    Collector.code platform size =
      .comment "entry point" :: .symbol "main" :: (rest ++ routines platform) ∧
    ∀ i ∈ rest, i.label? = none ∧ i.symbol? = none ∧ ∀ name ∈ i.symbols, name = "fn_main" := by
  obtain ⟨rest, hrest, hnames⟩ := entryPoint_names size
  refine ⟨rest, by simp [Collector.code, hrest, routines], fun i hi => ?_⟩
  have hi := List.all_eq_true.1 hnames i hi
  simp only [namesOnly, Bool.and_eq_true, Option.isNone_iff_eq_none, List.all_eq_true,
    beq_iff_eq] at hi
  exact ⟨hi.1.1.1, hi.1.1.2, hi.2⟩

theorem collector_labels (platform : Platform) (size : Nat) :
    labelsIn (Collector.code platform size) = (List.range Collector.labelCount).map (⟨· + 1⟩) := by
  obtain ⟨rest, hcode, hrest⟩ := collector_eq platform size
  have hnone : labelsIn rest = [] := List.filterMap_eq_nil_iff.2 fun i hi => (hrest i hi).1
  have hroutines : labelsIn (routines platform) =
      (List.range Collector.labelCount).map (⟨· + 1⟩) := by
    obtain ⟨system, convention⟩ := platform
    cases system <;> cases convention <;> rfl
  rw [labelsIn] at hnone hroutines
  rw [hcode, labelsIn]
  simp only [List.filterMap_cons, List.filterMap_append, hnone, hroutines]
  rfl

def routineSymbols : List String :=
  ["main", Collector.pushSymbol, Collector.enterSymbol, Collector.exitSymbol,
    Collector.releaseSymbol, Collector.adoptSymbol, Collector.collectSymbol, Collector.memoryTrap,
    Collector.boundsTrap]

theorem collector_symbols (platform : Platform) (size : Nat) :
    (Collector.code platform size).filterMap symbol? = routineSymbols := by
  obtain ⟨rest, hcode, hrest⟩ := collector_eq platform size
  have hnone : rest.filterMap symbol? = [] :=
    List.filterMap_eq_nil_iff.2 fun i hi => (hrest i hi).2.1
  have hroutines : (routines platform).filterMap symbol? = routineSymbols.tail := by
    obtain ⟨system, convention⟩ := platform
    cases system <;> cases convention <;> rfl
  rw [hcode]
  simp only [List.filterMap_cons, List.filterMap_append, hnone, hroutines]
  rfl

theorem collector_mentions {platform : Platform} {size : Nat} {i : Instr}
    (hi : i ∈ Collector.code platform size) {name : String} (hname : name ∈ i.symbols) :
    name ∈ Collector.names ∨ name = "fn_main" := by
  obtain ⟨rest, hcode, hrest⟩ := collector_eq platform size
  rw [hcode] at hi
  simp only [List.mem_cons, List.mem_append] at hi
  rcases hi with rfl | rfl | hi | hi
  · cases hname
  · cases hname
  · exact .inr ((hrest i hi).2.2 name hname)
  · left
    have hroutines : (routines platform).all fun i => i.symbols.all Collector.names.contains := by
      obtain ⟨system, convention⟩ := platform
      cases system <;> cases convention <;> decide
    simp only [List.all_eq_true, List.contains_iff_mem] at hroutines
    exact hroutines i hi name hname

end Collector

section Spelling

/-- What the names of different kinds differ in: how they start. The collector's names all count as
one kind. -/
def kind (name : String) : List Char :=
  let start := name.toList.take 2
  if [['_', 'L'], ['f', 'n'], ['e', 'm'], ['s', 't']].contains start then start else []

theorem kind_append {first rest : String} (h : 2 ≤ first.toList.length) :
    kind (first ++ rest) = kind first := by
  simp only [kind, String.toList_append, List.take_append_of_le_length h]

theorem kind_label (l : Label) : kind l.text = ['_', 'L'] := kind_append (by decide)

theorem kind_function (name : String) : kind (functionSymbol name) = ['f', 'n'] :=
  kind_append (by decide)

theorem kind_string (k : Nat) : kind (stringSymbol k) = ['s', 't'] := kind_append (by decide)

theorem nodup_flatten_of_kind {kinds : List (List Char)} {groups : List (List String)}
    (hkinds : kinds.Nodup)
    (h : List.Forall₂ (fun k names => names.Nodup ∧ ∀ name ∈ names, kind name = k) kinds groups) :
    groups.flatten.Nodup := by
  induction h with
  | nil => exact List.nodup_nil
  | @cons k names kinds groups hfirst hrest ih =>
    obtain ⟨hk, hkinds⟩ := List.nodup_cons.1 hkinds
    refine List.nodup_append.2 ⟨hfirst.1, ih hkinds, fun a ha b hb heq => ?_⟩
    obtain ⟨other, hother, hb⟩ := List.mem_flatten.1 hb
    obtain ⟨k', hk', -, hkind⟩ := Typing.exists_of_forall₂ hrest.flip hother
    rw [← hkind b hb, ← heq, hfirst.2 a ha] at hk'
    exact hk hk'

theorem number_inj {first : String} {m n : Nat} (h : first ++ toString m = first ++ toString n) :
    m = n := by
  have hdigits : Nat.toDigits 10 m = Nat.toDigits 10 n := by
    have hchars := congrArg String.toList h
    rwa [String.toList_append, String.toList_append, List.append_cancel_left_eq, toList_toString,
      toList_toString] at hchars
  have hvalue := congrArg (Nat.ofDigitChars 10 · 0) hdigits
  simpa only [Nat.ofDigitChars_ten_toDigits] using hvalue

theorem label_text_inj {l l' : Label} (h : l.text = l'.text) : l = l' := by
  obtain ⟨n⟩ := l
  obtain ⟨n'⟩ := l'
  exact congrArg Label.mk (number_inj h)

theorem functionSymbol_inj {a b : String} (h : functionSymbol a = functionSymbol b) : a = b := by
  have hchars := congrArg String.toList h
  rw [functionSymbol, functionSymbol, String.toList_append, String.toList_append,
    List.append_cancel_left_eq] at hchars
  exact String.toList_inj.1 hchars

theorem name_append_inj {a b : String} {s t : List Char} (ha : IsName a) (hb : IsName b)
    (hs : s = [] ∨ s.head? = some '$') (ht : t = [] ∨ t.head? = some '$')
    (h : a.toList ++ s = b.toList ++ t) : a = b ∧ s = t := by
  have htake : ∀ {c : String} {u : List Char}, IsName c → (u = [] ∨ u.head? = some '$') →
      (c.toList ++ u).takeWhile (· ≠ '$') = c.toList := by
    intro c u hc hu
    have hall : ∀ x ∈ c.toList, decide (x ≠ '$') = true := by
      intro x hx
      have hne : x ≠ '$' := fun heq => hc (heq ▸ hx)
      simpa using hne
    rw [List.takeWhile_append_of_pos hall]
    rcases hu with rfl | hu
    · simp
    · cases u with
      | nil => cases hu
      | cons x u =>
        cases hu
        simp
  have hab : a = b := by
    rw [← String.toList_inj, ← htake ha hs, h, htake hb ht]
  subst hab
  exact ⟨rfl, List.append_cancel_left h⟩

/-- The labels of an embedded file: the array and the two ends of its bytes. -/
def embedLabels (name : String) : List String :=
  ["", "$bytes", "$end"].map (embedSymbol name ++ ·)

theorem embedLabels_nodup (name : String) : (embedLabels name).Nodup := by
  refine List.Nodup.map ?_ (by decide)
  intro s t h
  have hchars := congrArg String.toList h
  rw [String.toList_append, String.toList_append, List.append_cancel_left_eq] at hchars
  exact String.toList_inj.1 hchars

theorem kind_embedLabels {name x : String} (h : x ∈ embedLabels name) : kind x = ['e', 'm'] := by
  obtain ⟨s, -, rfl⟩ := List.mem_map.1 h
  rw [embedSymbol, String.append_assoc]
  exact kind_append (by decide)

theorem embedLabels_disjoint {a b x : String} (ha : IsName a) (hb : IsName b)
    (hx : x ∈ embedLabels a) (hx' : x ∈ embedLabels b) : a = b := by
  obtain ⟨s, hs, rfl⟩ := List.mem_map.1 hx
  obtain ⟨t, ht, h⟩ := List.mem_map.1 hx'
  have hsuffix : ∀ u ∈ ["", "$bytes", "$end"], u.toList = [] ∨ u.toList.head? = some '$' := by
    decide
  have hchars := congrArg String.toList h
  simp only [embedSymbol, String.toList_append, List.append_assoc,
    List.append_cancel_left_eq] at hchars
  exact (name_append_inj ha hb (hsuffix s hs) (hsuffix t ht) hchars.symm).1

end Spelling

end RegionCompiler.Codegen
