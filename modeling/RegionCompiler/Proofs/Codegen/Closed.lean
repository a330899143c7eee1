import RegionCompiler.Proofs.Codegen.AssembledProgram
import RegionCompiler.Proofs.Codegen.Agreement

/-! Names in generated programs. No name is defined twice, and whatever is called, jumped to or
addressed is defined or external; jumps to numbered labels stay within their function. -/
namespace RegionCompiler.Codegen

open Machine Machine.Instr Typing

section Local

/-- Whether an instruction neither defines a name nor refers to one. -/
def isLocal : Instr → Bool
  | .label _ | .symbol _ | .jmp _ | .jcc _ _ | .call _ => false
  | i => i.symbols.isEmpty

variable {i : Instr} {a b : Address}

@[simp] theorem isLocal_load (r : Register) (w : Width) (a : Address) :
    isLocal (mov (.register r w) (.memory w a)) = a.symbols.isEmpty := rfl

@[simp] theorem isLocal_store (r : Register) (w : Width) (a : Address) :
    isLocal (mov (.memory w a) (.register r w)) = a.symbols.isEmpty := by
  simp [isLocal, mov, symbols, Operand.symbols]

@[simp] theorem isLocal_unary (op : UnaryInstr) (w : Width) (a : Address) :
    isLocal (.unary op (.memory w a)) = a.symbols.isEmpty := rfl

@[simp] theorem isLocal_lea (r : Register) (a : Address) :
    isLocal (.lea r a) = a.symbols.isEmpty := rfl

@[simp] theorem isLocal_loadFloat (p : Precision) (x : Xmm) (a : Address) :
    isLocal (.loadFloat p x a) = a.symbols.isEmpty := rfl

@[simp] theorem isLocal_storeFloat (p : Precision) (x : Xmm) (a : Address) :
    isLocal (.storeFloat p a x) = a.symbols.isEmpty := rfl

@[simp] theorem symbols_offset (a : Address) (n : Nat) : (a.offset n).symbols = a.symbols := rfl

@[simp] theorem symbols_at (r : Register) (d : Int) : (Address.at_ r d).symbols = [] := rfl

@[simp] theorem symbols_stack (n : Nat) : (Address.stack n).symbols = [] := rfl

theorem copy_local {size : Nat} (ha : a.symbols = []) (hb : b.symbols = [])
    (h : i ∈ copy a b size) : isLocal i := by
  obtain ⟨offset, width, -, rfl | rfl⟩ := mem_copy h
  · simp [hb]
  · simp [ha]

theorem loadSized_local (r : Register) (ha : a.symbols = []) (size : Nat) (signed : Bool) :
    isLocal (loadSized r a size signed) := by
  unfold loadSized
  split <;> simp [isLocal, symbols, mov, Operand.symbols, ha]

theorem fillSlots_local (shape : Convention.Shape) (single : Bool) (ha : a.symbols = [])
    {slots : List Convention.Slot} (h : i ∈ fillSlots shape single a slots) : isLocal i := by
  induction slots generalizing a with
  | nil => cases h
  | cons s rest ih =>
    rcases List.mem_cons.1 h with rfl | h
    · cases s with
      | general r =>
        unfold fillSlot
        dsimp only
        split
        · exact loadSized_local r ha _ _
        · simp [ha]
      | vector x => simp [fillSlot, ha]
    · exact ih (a := a.offset 8) (by simp [ha]) h

theorem placeArgument_local {copies : Nat} {shape : Convention.Shape} {p : Convention.Placement}
    (ha : a.symbols = []) (h : i ∈ placeArgument copies shape a p) : isLocal i := by
  cases p with
  | registers slots => exact fillSlots_local shape _ ha h
  | both x r =>
    simp only [placeArgument, List.mem_cons, List.not_mem_nil, or_false] at h
    rcases h with rfl | rfl <;> simp [ha]
  | stack offset => exact copy_local (symbols_stack _) ha h
  | reference offset pointer =>
    rcases List.mem_append.1 h with h | h
    · exact copy_local (symbols_stack _) ha h
    · cases pointer with
      | register r => simp [List.mem_singleton.1 h]
      | stack word =>
        simp only [List.mem_cons, List.not_mem_nil, or_false] at h
        rcases h with rfl | rfl <;> simp

theorem placeArguments_local {copies area : Nat} {placements : List Convention.Placement}
    {passed : List Passed} (h : i ∈ placeArguments copies area placements passed) : isLocal i := by
  induction placements generalizing passed with
  | nil => cases h
  | cons p placements ih =>
    cases passed with
    | nil => cases h
    | cons a rest =>
      rcases List.mem_append.1 h with h | h
      · exact placeArgument_local (symbols_stack _) h
      · exact ih h

theorem storeSlots_local {precision : Precision} {slots : List Convention.Slot}
    (ha : a.symbols = []) (h : i ∈ storeSlots precision a slots) : isLocal i := by
  induction slots generalizing a with
  | nil => cases h
  | cons s rest ih =>
    cases s with
    | general r =>
      rcases List.mem_cons.1 h with rfl | h
      · simp [ha]
      · exact ih (a := a.offset 8) (by simp [ha]) h
    | vector x =>
      rcases List.mem_cons.1 h with rfl | h
      · simp [ha]
      · exact ih (a := a.offset 8) (by simp [ha]) h

theorem raise_local {n : Nat} (h : i ∈ raise n) : isLocal i := by
  rw [mem_raise h]
  rfl

theorem lower_local {n : Nat} (h : i ∈ lower n) : isLocal i := by
  rw [mem_lower h]
  rfl

theorem callForeign_local {convention : Convention} {plan : Convention.Plan} {passed : List Passed}
    {symbol : String} {result : Option Convention.Shape}
    (h : i ∈ callForeign convention plan passed symbol result) : isLocal i ∨ i = .call symbol := by
  unfold callForeign at h
  simp only [List.mem_append, List.mem_singleton] at h
  rcases h with (((((h | h) | h) | h) | h) | h) | h
  · exact .inl (lower_local h)
  · exact .inl (placeArguments_local h)
  · left
    split at h
    · simp [List.mem_singleton.1 h]
    · cases h
  · left
    cases convention with
    | systemV =>
      rw [List.mem_singleton.1 h]
      rfl
    | microsoft => cases h
  · exact .inr h
  · left
    split at h
    · exact storeSlots_local (symbols_stack _) h
    · cases h
  · exact .inl (raise_local h)

theorem variableAddress_symbols {env : Env} {mangled : String}
    (h : env.variableAddress mangled = .ok a) : a.symbols = [] := by
  rcases Env.variableAddress_eq h with ⟨_, -, _, -, rfl⟩ | ⟨_, -, _, -, rfl⟩ <;> rfl

theorem Env.Holds.symbols {env : Env} {D : Decls} {Q : Expr → Prop} {n : Nat}
    (h : env.Holds D Q a n) :
    a.symbols = [] := by
  cases h with
  | pointed _ | below _ | element _ _ _ | result => rfl
  | home _ h _ => exact variableAddress_symbols h

end Local

section Names

/-- The names that the code of a function refers to: those of the collector and of C functions, of
functions, of embedded files, and of the literals with the given numbers. -/
inductive Env.Mentions (env : Env) (D : Decls) (first last : Nat) : String → Prop
  | collector {name} : name ∈ Collector.names → Mentions env D first last name
  | function {r} : r ∈ env.routines → Mentions env D first last (functionSymbol r.name)
  | foreign {mangled f} : env.foreignFunction mangled = .ok f →
      Mentions env D first last f.linkName
  | embed {mangled t} : D.declares ⟨mangled, .embed⟩ t →
      Mentions env D first last (embedSymbol mangled)
  | literal {k} : first ≤ k → k < last → Mentions env D first last (stringSymbol k)

theorem Env.Mentions.mono {env : Env} {D : Decls} {first last first' last' : Nat} {name : String}
    (h : env.Mentions D first last name) (hfirst : first' ≤ first) (hlast : last ≤ last') :
    env.Mentions D first' last' name := by
  cases h with
  | collector h => exact .collector h
  | function h => exact .function h
  | foreign h => exact .foreign h
  | embed h => exact .embed h
  | literal h h' => exact .literal (by omega) (by omega)

def labelsIn (code : Code) : List Label := code.filterMap Instr.label?

/-- Code whose names are all accounted for. Labels numbered between the supplies stand in it once,
beside those that are said to; jumps lead there or to labels outside; and every literal that it
keeps is copied under its symbol. -/
structure Closed (env : Env) (D : Decls) (outside : Label → Prop) (standing : List Label)
    (s : Supply) (code : Code) (s' : Supply) : Prop where
  labels : s.labels ≤ s'.labels
  strings : s.strings <+: s'.strings
  placed : ∀ l, (labelsIn code).count l =
    standing.count l + if s.labels < l.number ∧ l.number ≤ s'.labels then 1 else 0
  jumps : ∀ i ∈ code, ∀ l, i.jumpsTo? = some l →
    outside l ∨ s.labels < l.number ∧ l.number ≤ s'.labels
  bare : ∀ i ∈ code, i.symbol? = none
  names : ∀ i ∈ code, ∀ name ∈ i.symbols, env.Mentions D s.strings.length s'.strings.length name
  literals : ∀ k (h : k < s'.strings.length), s.strings.length ≤ k →
    stringCode env.platform (stringSymbol k) s'.strings[k].utf8ByteSize <:+: code

namespace Closed

variable {env : Env} {D : Decls} {outside : Label → Prop} {standing standing' : List Label}
  {s s₁ s' : Supply} {code code' : Code}

/-- Code that changes neither supply and places no label. -/
theorem still (hbare : ∀ i ∈ code, i.label? = none ∧ i.symbol? = none)
    (hjumps : ∀ i ∈ code, ∀ l, i.jumpsTo? = some l → outside l)
    (hnames : ∀ i ∈ code, ∀ name ∈ i.symbols,
      env.Mentions D s.strings.length s.strings.length name) :
    Closed env D outside [] s code s := by
  have hnone : labelsIn code = [] := List.filterMap_eq_nil_iff.2 fun i hi => (hbare i hi).1
  exact {
    labels := Nat.le_refl _
    strings := List.prefix_refl _
    placed := fun l => by
      rw [hnone, if_neg (by omega), Nat.add_zero]
    jumps := fun i hi l hl => .inl (hjumps i hi l hl)
    bare := fun i hi => (hbare i hi).2
    names := hnames
    literals := fun k h h' => absurd h (by omega) }

theorem isLocal_spec {i : Instr} (h : isLocal i) :
    i.label? = none ∧ i.symbol? = none ∧ i.jumpsTo? = none ∧ i.symbols = [] := by
  cases i <;> first
    | (simp [isLocal] at h; done)
    | exact ⟨rfl, rfl, rfl, by simpa [isLocal] using h⟩

/-- Code that is local but for the names it refers to. -/
theorem leaf (h : ∀ i ∈ code, isLocal i ∨ i.label? = none ∧ i.symbol? = none ∧ i.jumpsTo? = none ∧
    ∀ name ∈ i.symbols, env.Mentions D s.strings.length s.strings.length name) :
    Closed env D outside [] s code s := by
  have hall : ∀ i ∈ code, i.label? = none ∧ i.symbol? = none ∧ i.jumpsTo? = none ∧
      ∀ name ∈ i.symbols, env.Mentions D s.strings.length s.strings.length name := by
    intro i hi
    rcases h i hi with hlocal | hi
    · obtain ⟨hlabel, hsymbol, hjump, hnone⟩ := isLocal_spec hlocal
      exact ⟨hlabel, hsymbol, hjump, by simp [hnone]⟩
    · exact hi
  refine still (fun i hi => ⟨(hall i hi).1, (hall i hi).2.1⟩) (fun i hi l hl => ?_)
    fun i hi => (hall i hi).2.2.2
  rw [(hall i hi).2.2.1] at hl
  cases hl

theorem append (h : Closed env D outside standing s code s₁)
    (h' : Closed env D outside standing' s₁ code' s') :
    Closed env D outside (standing ++ standing') s (code ++ code') s' := by
  have hle := h.labels
  have hle' := h'.labels
  have hlength := h.strings.length_le
  have hlength' := h'.strings.length_le
  refine ⟨Nat.le_trans hle hle', h.strings.trans h'.strings, fun l => ?_, ?_, ?_, ?_, ?_⟩
  · have hcount := h.placed l
    have hcount' := h'.placed l
    rw [labelsIn, List.filterMap_append, List.count_append, List.count_append, ← labelsIn,
      ← labelsIn, hcount, hcount']
    split_ifs <;> omega
  · intro i hi l hl
    rcases List.mem_append.1 hi with hi | hi
    · exact (h.jumps i hi l hl).imp_right fun hown => ⟨hown.1, by omega⟩
    · exact (h'.jumps i hi l hl).imp_right fun hown => ⟨by omega, hown.2⟩
  · intro i hi
    exact (List.mem_append.1 hi).elim (h.bare i) (h'.bare i)
  · intro i hi name hname
    rcases List.mem_append.1 hi with hi | hi
    · exact (h.names i hi name hname).mono (Nat.le_refl _) hlength'
    · exact (h'.names i hi name hname).mono hlength (Nat.le_refl _)
  · intro k hk hfirst
    by_cases hmid : k < s₁.strings.length
    · have hsame : s'.strings[k] = s₁.strings[k] := (h'.strings.getElem hmid).symm
      rw [hsame]
      exact (h.literals k hmid hfirst).trans (List.prefix_append _ _).isInfix
    · exact (h'.literals k hk (by omega)).trans (List.suffix_append _ _).isInfix

theorem fresh (h : Closed env D (fun l => outside l ∨ l = ⟨s.labels + 1⟩) standing
      { s with labels := s.labels + 1 } code s')
    (hperm : standing.Perm (⟨s.labels + 1⟩ :: standing')) :
    Closed env D outside standing' s code s' := by
  have hle : s.labels + 1 ≤ s'.labels := h.labels
  refine ⟨by omega, h.strings, fun l => ?_, fun i hi l hl => ?_, h.bare, h.names, h.literals⟩
  · by_cases hl : l = ⟨s.labels + 1⟩
    · subst hl
      rw [h.placed, hperm.count_eq, List.count_cons_self, if_neg (by simp), if_pos (by simp [hle])]
    · have hne : l.number ≠ s.labels + 1 := by
        obtain ⟨n⟩ := l
        simpa using hl
      rw [h.placed, hperm.count_eq, List.count_cons_of_ne (Ne.symm hl)]
      dsimp only
      split_ifs <;> omega
  · rcases h.jumps i hi l hl with (hout | rfl) | hown
    · exact .inl hout
    · exact .inr ⟨by simp, hle⟩
    · exact .inr ⟨by have := hown.1; dsimp only at this; omega, hown.2⟩

end Closed

theorem isFixed_spec {i : Instr} (h : i.isFixed) : i.label? = none ∧ i.symbol? = none ∧
    i.jumpsTo? = none ∧ (∀ name ∈ i.symbols, name ∈ Collector.names) ∧
    ∀ v ∈ i.numbers, v.natAbs ≤ 64 := by
  simp only [isFixed, Bool.and_eq_true, Option.isNone_iff_eq_none, List.all_eq_true,
    decide_eq_true_eq, List.contains_iff_mem] at h
  exact ⟨h.1.1.1.2, h.1.1.2, h.1.2, h.1.1.1.1, h.2⟩

theorem Assembled.closed {env : Env} {D : Decls} {Q : Expr → Prop} {outside : Label → Prop}
    {standing : List Label} {s s' : Supply} {code : Code}
    (h : Assembled env D Q outside standing s code s') :
    Closed env D outside standing s code s' := by
  have hfixed : ∀ {first last : Nat} {i : Instr}, i.isFixed → i.label? = none ∧
      i.symbol? = none ∧ i.jumpsTo? = none ∧ ∀ name ∈ i.symbols, env.Mentions D first last name :=
    fun hi => ⟨(isFixed_spec hi).1, (isFixed_spec hi).2.1, (isFixed_spec hi).2.2.1,
      fun name hname => .collector ((isFixed_spec hi).2.2.2.1 name hname)⟩
  induction h with
  | nil => exact .leaf (by simp)
  | append _ _ ih ih' => exact .append ih ih'
  | fresh _ hperm ih => exact .fresh ih hperm
  | label l =>
    refine ⟨Nat.le_refl _, List.prefix_refl _, fun l' => ?_, ?_, ?_, ?_, fun k h h' => ?_⟩
    · rw [if_neg (by omega)]
      rfl
    · simp [jumpsTo?]
    · simp [symbol?]
    · simp [symbols]
    · exact absurd h (by omega)
  | @jump outside s l h =>
    refine .still ?_ (fun i hi l' hl => ?_) ?_
    · simp [Instr.jump, label?, symbol?]
    · rw [List.mem_singleton.1 hi] at hl
      cases hl
      exact h
    · simp [Instr.jump, symbols, Target.symbols]
  | @jumpIf outside s condition l h =>
    refine .still ?_ (fun i hi l' hl => ?_) ?_
    · simp [Instr.jumpIf, label?, symbol?]
    · rw [List.mem_singleton.1 hi] at hl
      cases hl
      exact h
    · simp [Instr.jumpIf, symbols, Target.symbols]
  | fixed h => exact .leaf fun i hi => .inr (hfixed (h i hi))
  | @string outside s node value _ =>
    have hall : ∀ i ∈ stringCode env.platform (stringSymbol s.strings.length) value.utf8ByteSize,
        i.label? = none ∧ i.symbol? = none ∧ i.jumpsTo? = none ∧ ∀ name ∈ i.symbols,
          env.Mentions D s.strings.length (s.strings.length + 1) name := by
      intro i hi
      rcases mem_stringCode hi with hi | rfl | rfl
      · exact hfixed hi
      · exact ⟨rfl, rfl, rfl, by simp [movImm, symbols, Operand.symbols]⟩
      · refine ⟨rfl, rfl, rfl, fun name hname => ?_⟩
        rw [List.mem_singleton.1 hname]
        exact .literal (Nat.le_refl _) (Nat.lt_succ_self _)
    have hnone : labelsIn (stringCode env.platform (stringSymbol s.strings.length)
        value.utf8ByteSize) = [] := List.filterMap_eq_nil_iff.2 fun i hi => (hall i hi).1
    refine ⟨Nat.le_refl _, List.prefix_append _ _, fun l => ?_, fun i hi l hl => ?_,
      fun i hi => (hall i hi).2.1, ?_, fun k hk hk' => ?_⟩
    · rw [hnone, if_neg (by dsimp only; omega), Nat.add_zero]
    · rw [(hall i hi).2.2.1] at hl
      cases hl
    · simpa using fun i hi => (hall i hi).2.2.2
    · have hlast : k = s.strings.length := by
        rw [List.length_append, List.length_singleton] at hk
        omega
      subst hlast
      simp
  | count _ => exact .leaf fun i hi => .inl (by rw [List.mem_singleton.1 hi]; rfl)
  | home h hi =>
    refine .leaf fun i hi' => .inl ?_
    rw [List.mem_singleton.1 hi']
    have ha := variableAddress_symbols h
    simp only [List.mem_cons, List.not_mem_nil, or_false] at hi
    rcases hi with rfl | rfl | rfl | rfl <;> simp [ha]
  | embed h =>
    refine .leaf fun i hi => .inr ?_
    rw [List.mem_singleton.1 hi]
    refine ⟨rfl, rfl, rfl, fun name hname => ?_⟩
    rw [List.mem_singleton.1 hname]
    exact .embed h
  | lower _ => exact .leaf fun i hi => .inl (lower_local hi)
  | raise _ => exact .leaf fun i hi => .inl (raise_local hi)
  | copy hd hs => exact .leaf fun i hi => .inl (copy_local hd.symbols hs.symbols hi)
  | zero _ =>
    refine .leaf fun i hi => .inl ?_
    obtain ⟨k, -, rfl⟩ := mem_zero hi
    rfl
  | collapse _ _ =>
    refine .leaf fun i hi => .inl ?_
    rcases mem_collapse hi with ⟨k, -, rfl | rfl⟩ | rfl <;> rfl
  | read _ => exact .leaf fun i hi => .inl (by rw [List.mem_singleton.1 hi]; rfl)
  | result => exact .leaf fun i hi => .inl (by rw [List.mem_singleton.1 hi]; rfl)
  | member _ _ => exact .leaf fun i hi => .inl (by rw [mem_memberCode hi]; rfl)
  | index _ =>
    refine .leaf fun i hi => ?_
    rcases mem_indexCode hi with hi | rfl
    · exact .inr (hfixed hi)
    · exact .inl rfl
  | call h =>
    refine .leaf fun i hi => .inr ?_
    rw [List.mem_singleton.1 hi]
    refine ⟨rfl, rfl, rfl, fun name hname => ?_⟩
    rw [List.mem_singleton.1 hname, ← (Env.routine_mem h).2]
    exact .function (Env.routine_mem h).1
  | foreign hsends _ =>
    obtain ⟨_, _, _, _, _, _, _, _, _, -, hf, -⟩ := hsends.call
    refine .leaf fun i hi => (callForeign_local hi).imp_right ?_
    rintro rfl
    refine ⟨rfl, rfl, rfl, fun name hname => ?_⟩
    rw [List.mem_singleton.1 hname]
    exact .foreign hf

end Names

end RegionCompiler.Codegen
