import RegionCompiler.Proofs.Machine.State

/-! Runs of a program that was assembled and linked. A position is an index into the code. What a
piece of code does is said wherever it stands in the code: it falls through to its end, or it
leaves for a label. -/
namespace RegionCompiler.Machine

/-- What an instruction gives a name to: its own position. -/
def Instr.mark? : Instr → Option Target
  | .label l => some (.label l)
  | .symbol name => some (.symbol name)
  | _ => none

def marks (code : Code) : List Target := code.filterMap Instr.mark?

def positionOf (code : Code) (t : Target) : Option Nat :=
  code.findIdx? fun instr => instr.mark? == some t

theorem positionOf_eq {code : Code} (hcode : (marks code).Nodup) {i : Nat} {instr : Instr}
    (hi : code[i]? = some instr) {t : Target} (ht : instr.mark? = some t) :
    positionOf code t = some i := by
  induction code generalizing i with
  | nil => simp at hi
  | cons first rest ih =>
    cases i with
    | zero =>
      cases Option.some.inj hi
      simp [positionOf, List.findIdx?_cons, ht]
    | succ i =>
      have hrest : rest[i]? = some instr := hi
      have hmem : t ∈ marks rest := List.mem_filterMap.2 ⟨instr, List.mem_of_getElem? hrest, ht⟩
      have hsplit : first.mark? ≠ some t ∧ (marks rest).Nodup := by
        rw [marks, List.filterMap_cons] at hcode
        cases hfirst : first.mark? with
        | none =>
          rw [hfirst] at hcode
          exact ⟨by simp, hcode⟩
        | some u =>
          rw [hfirst] at hcode
          refine ⟨?_, (List.nodup_cons.1 hcode).2⟩
          rintro ⟨rfl⟩
          exact (List.nodup_cons.1 hcode).1 hmem
      have hposition := ih hsplit.2 hrest
      rw [positionOf] at hposition ⊢
      simp [List.findIdx?_cons, hsplit.1, hposition]

/-- The call of a C function that led from one state to another is kept. -/
def State.after (s' s : State) (name : String) : State :=
  { s' with calls := s.calls ++ [⟨name, s.registers, s.blocks⟩] }

/-- A program in memory. Names that the code does not define belong to the C library, whose
functions come back to where they were called. -/
structure Image where
  code : Code
  /-- Where the instruction at a position lies. -/
  addressOf : Nat → Word
  /-- The position that an address stands for, when a function returns to it. -/
  positionAt : Word → Nat
  /-- Instructions take up space, so that no two of them return to one address. -/
  positionAt_addressOf : ∀ {i : Nat} {instr : Instr}, code[i]? = some instr →
    instr.isExecutable → positionAt (addressOf (i + 1)) = i + 1
  /-- Where data lies. -/
  symbols : String → Word
  library : String → State → Option State

namespace Image

def step (m : Image) (i : Nat) (s : State) : Option (Nat × State) :=
  match m.code[i]? with
  | none => none
  | some (.call name) =>
    match positionOf m.code (.symbol name) with
    | some j => some (j, s.push (m.addressOf (i + 1)))
    | none => (m.library name s).map fun s' => (i + 1, s'.after s name)
  | some (.jmp t) => (positionOf m.code t).map fun j => (j, s)
  | some (.jcc condition t) =>
    match condition.holds s.flags with
    | none => none
    | some false => some (i + 1, s)
    | some true => (positionOf m.code t).map fun j => (j, s)
  | some .ret => some (m.positionAt s.peek, s.drop)
  | some instr => (s.effect m.symbols instr).map fun s' => (i + 1, s')

/-- Any number of steps. -/
def Runs (m : Image) : Nat × State → Nat × State → Prop :=
  Relation.ReflTransGen fun a b => m.step a.1 a.2 = some b

theorem Runs.step {m : Image} {i : Nat} {s : State} {b : Nat × State}
    (h : m.step i s = some b) : m.Runs (i, s) b :=
  Relation.ReflTransGen.single h

theorem Runs.trans {m : Image} {a b c : Nat × State} (h : m.Runs a b) (h' : m.Runs b c) :
    m.Runs a c :=
  Relation.ReflTransGen.trans h h'

theorem step_effect {m : Image} {i : Nat} {instr : Instr} (hi : m.code[i]? = some instr)
    {s s' : State} (h : s.effect m.symbols instr = some s') :
    m.step i s = some (i + 1, s') := by
  unfold Image.step
  rw [hi]
  cases instr with
  | call _ | jmp _ | jcc _ _ | ret => cases h
  | _ => simp [h]

end Image

/-- A part of the code from a position on. -/
def Sits (code : Code) (i : Nat) (part : Code) : Prop :=
  ∀ k (instr : Instr), part[k]? = some instr → code[i + k]? = some instr

namespace Sits

variable {code part other : Code} {i : Nat} {instr : Instr}

theorem left (h : Sits code i (part ++ other)) : Sits code i part := by
  intro k instr hk
  refine h k instr ?_
  rw [List.getElem?_append_left (List.getElem?_eq_some_iff.1 hk).1, hk]

theorem right (h : Sits code i (part ++ other)) : Sits code (i + part.length) other := by
  intro k instr hk
  rw [Nat.add_assoc]
  refine h _ instr ?_
  rw [List.getElem?_append_right (by omega), Nat.add_sub_cancel_left, hk]

theorem head (h : Sits code i (instr :: other)) : code[i]? = some instr :=
  h 0 instr rfl

theorem tail (h : Sits code i (instr :: other)) : Sits code (i + 1) other :=
  @right code [instr] other i h

theorem take (h : Sits code i part) (n : Nat) : Sits code i (part.take n) := by
  rw [← List.take_append_drop n part] at h
  exact h.left

theorem of_append (before after : Code) :
    Sits (before ++ part ++ after) before.length part := by
  intro k instr hk
  have hlt := (List.getElem?_eq_some_iff.1 hk).1
  rw [List.getElem?_append_left (by rw [List.length_append]; omega),
    List.getElem?_append_right (by omega), Nat.add_sub_cancel_left, hk]

end Sits

/-- Instructions one after the other. -/
def straight (symbols : String → Word) (part : Code) (s : State) : Option State :=
  part.foldlM (fun s instr => s.effect symbols instr) s

@[simp] theorem straight_nil (symbols : String → Word) (s : State) :
    straight symbols [] s = some s := rfl

@[simp] theorem straight_cons (symbols : String → Word) (instr : Instr) (part : Code) (s : State) :
    straight symbols (instr :: part) s = (s.effect symbols instr).bind (straight symbols part) :=
  List.foldlM_cons

@[simp high] theorem bind_straight (symbols : String → Word) (part : Code) (s : State) :
    (some s).bind (straight symbols part) = straight symbols part s := by
  rw [Option.bind_some]

theorem straight_append (symbols : String → Word) (part other : Code) (s : State) :
    straight symbols (part ++ other) s =
      (straight symbols part s).bind (straight symbols other) :=
  List.foldlM_append

namespace Image

section Arrivals

variable {m : Image} {i j : Nat} {s t : State} {P Q : Nat → State → Prop} {part rest : Code}

/-- A run leads to such a position and state. -/
def Arrives (m : Image) (i : Nat) (s : State) (P : Nat → State → Prop) : Prop :=
  ∃ j t, m.Runs (i, s) (j, t) ∧ P j t

namespace Arrives

theorem here (h : P i s) : m.Arrives i s P := ⟨i, s, .refl, h⟩

theorem bind (h : m.Arrives i s P) (hnext : ∀ j t, P j t → m.Arrives j t Q) :
    m.Arrives i s Q := by
  obtain ⟨j, s₁, hfirst, hP⟩ := h
  obtain ⟨k, s₂, hsecond, hQ⟩ := hnext j s₁ hP
  exact ⟨k, s₂, hfirst.trans hsecond, hQ⟩

theorem mono (h : m.Arrives i s P) (hPQ : ∀ j t, P j t → Q j t) : m.Arrives i s Q :=
  h.bind fun j t hP => .here (hPQ j t hP)

theorem step (h : m.step i s = some (j, t)) (hnext : m.Arrives j t P) : m.Arrives i s P := by
  obtain ⟨k, s₂, hruns, hP⟩ := hnext
  exact ⟨k, s₂, (Runs.step h).trans hruns, hP⟩

/-- Instructions that neither jump nor call. -/
theorem straight (hpart : Sits m.code i part) (h : Machine.straight m.symbols part s = some t)
    (hnext : m.Arrives (i + part.length) t P) : m.Arrives i s P := by
  induction part generalizing i s with
  | nil =>
    cases h
    exact hnext
  | cons instr part ih =>
    obtain ⟨s₁, hfirst, hrest⟩ := Option.bind_eq_some_iff.1 h
    refine step (step_effect hpart.head hfirst) (ih hpart.tail hrest ?_)
    rwa [Nat.add_assoc, Nat.add_comm 1]

theorem jump {t : Target} (hi : m.code[i]? = some (.jmp t)) (hj : positionOf m.code t = some j)
    (hnext : m.Arrives j s P) : m.Arrives i s P :=
  step (by simp [Image.step, hi, hj]) hnext

theorem taken {condition : Condition} {t : Target} (hi : m.code[i]? = some (.jcc condition t))
    (h : condition.holds s.flags = some true) (hj : positionOf m.code t = some j)
    (hnext : m.Arrives j s P) : m.Arrives i s P :=
  step (by simp [Image.step, hi, h, hj]) hnext

theorem notTaken {condition : Condition} {t : Target} (hi : m.code[i]? = some (.jcc condition t))
    (h : condition.holds s.flags = some false) (hnext : m.Arrives (i + 1) s P) :
    m.Arrives i s P :=
  step (by simp [Image.step, hi, h]) hnext

theorem library {name : String} (hi : m.code[i]? = some (.call name))
    (hname : positionOf m.code (.symbol name) = none) (h : m.library name s = some t)
    (hnext : m.Arrives (i + 1) (t.after s name) P) : m.Arrives i s P :=
  step (by simp [Image.step, hi, hname, h]) hnext

theorem call {name : String} (hi : m.code[i]? = some (.call name))
    (hj : positionOf m.code (.symbol name) = some j)
    (hnext : m.Arrives j (s.push (m.addressOf (i + 1))) P) : m.Arrives i s P :=
  step (by simp [Image.step, hi, hj]) hnext

theorem ret {instr : Instr} (hj : m.code[j]? = some .ret) (hi : m.code[i]? = some instr)
    (hcall : instr.isExecutable) (hback : s.peek = m.addressOf (i + 1))
    (hnext : m.Arrives (i + 1) s.drop P) : m.Arrives j s P :=
  step (by simp [Image.step, hj, hback, m.positionAt_addressOf hi hcall]) hnext

end Arrives

end Arrivals

end Image

end RegionCompiler.Machine
