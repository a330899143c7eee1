import RegionCompiler.Proofs.Collector.Regions

/-! Sequences of operations on the stack of the collector. A pointer that was pushed is in one
place at a time: it is an entry, it waits to be adopted, it was released and forgotten, or it was
freed. -/
namespace RegionCompiler.Collector

open Machine

/-- An operation, with the pointer that it is about. -/
inductive Op
  | push (p : Word)
  | enter
  | exit
  | release (p : Word)
  | adopt
  | collect (p : Word)
deriving DecidableEq

namespace Op

def routine : Op → Routine
  | push _ => .push
  | enter => .enter
  | exit => .exit
  | release _ => .release
  | adopt => .adopt
  | collect _ => .collect

def pointer : Op → Word
  | push p | release p | collect p => p
  | _ => 0#64

def apply (o : Op) (c : Regions) : Regions := o.routine.apply o.pointer c

def freed (o : Op) (c : Regions) : List Word := o.routine.freed o.pointer c

/-- Whether this is the pointer that the operation is about, if it is about one. -/
def Takes : Op → Word → Prop
  | push p, v | release p, v | collect p, v => v = p
  | _, _ => True

theorem Takes.apply {o : Op} {v : Word} (h : o.Takes v) (c : Regions) :
    o.routine.apply v c = o.apply c := by
  cases o with
  | push p | release p | collect p =>
    obtain rfl : v = p := h
    rfl
  | _ => rfl

theorem Takes.freed {o : Op} {v : Word} (h : o.Takes v) (c : Regions) :
    o.routine.freed v c = o.freed c := by
  cases o with
  | collect p =>
    obtain rfl : v = p := h
    rfl
  | _ => rfl

def pushed : Op → List Word
  | push p => [p]
  | _ => []

/-- How many frames are open after an operation; none, if it closes a frame that was not opened. -/
def level (n : Nat) : Op → Option Nat
  | enter => some (n + 1)
  | exit => if n = 0 then none else some (n - 1)
  | _ => some n

/-- The same after some operations. -/
def depth (n : Nat) (os : List Op) : Option Nat := os.foldlM level n

end Op

/-- Whether an entry points to a block. -/
def isPointer (p : Word) : Bool := p ≠ 0#64 && p ≠ Regions.marker

/-- A stack, and the pointers that were released and never adopted. -/
structure Ledger where
  regions : Regions
  lost : List Word

namespace Ledger

def held (l : Ledger) : List Word := l.regions.entries.filter isPointer

def waiting (l : Ledger) : List Word := if l.regions.moved = 0#64 then [] else [l.regions.moved]

/-- What is allocated but no entry. -/
def detached (l : Ledger) : List Word := l.waiting ++ l.lost

def owned (l : Ledger) : List Word := l.held ++ l.detached

def empty : Ledger := ⟨.empty, []⟩

/-- A release forgets the pointer that was waiting. -/
def step (l : Ledger) (o : Op) : Ledger where
  regions := o.apply l.regions
  lost := (match o with
    | .release _ => l.waiting
    | _ => []) ++ l.lost

/-- What a program may ask for: it pushes what it has just allocated, and collects entries. -/
def Allows (l : Ledger) : Op → Prop
  | .push p => isPointer p ∧ p ∉ l.owned
  | .release p => p ≠ Regions.marker
  | .collect p => isPointer p ∧ p ∈ l.regions.entries
  | _ => True

/-- A ledger in which no pointer has two places. -/
structure Clean (l : Ledger) : Prop where
  nodup : l.owned.Nodup
  moved : l.regions.moved ≠ Regions.marker

variable {l : Ledger} {o : Op} {p : Word}

theorem isPointer_zero : isPointer 0#64 = false := by decide

theorem isPointer_marker : isPointer Regions.marker = false := by decide

theorem perm_exit (es : List Word) (q : Word) :
    ((⟨es, q⟩ : Regions).exit.entries.filter isPointer ++ (⟨es, q⟩ : Regions).garbage).Perm
      (es.filter isPointer) := by
  induction es using List.reverseRecOn with
  | nil => exact .refl _
  | append_singleton es p ih =>
    by_cases hmarker : p = Regions.marker
    · rw [hmarker, Regions.exit_marker, Regions.garbage_marker]
      simp [isPointer_marker]
    · rw [Regions.exit_concat _ _ _ hmarker, Regions.garbage_concat _ _ _ hmarker]
      refine List.perm_iff_count.2 fun a => ?_
      have hcount := List.perm_iff_count.1 ih a
      by_cases hzero : p = 0#64
      · simp_all [isPointer_zero]
      · have hpointer : isPointer p := by simp [isPointer, hmarker, hzero]
        simp [hpointer, hzero, List.count_cons] at hcount ⊢
        omega

theorem perm_collect {c : Regions} (hp : isPointer p) (hmem : p ∈ c.entries) :
    ((c.collect p).entries.filter isPointer ++ [p]).Perm (c.entries.filter isPointer) := by
  obtain ⟨rest, es, hsplit, hrest⟩ := List.eq_append_cons_of_mem (List.mem_reverse.2 hmem)
  have hentries : c.entries = es.reverse ++ p :: rest.reverse := by
    rw [← List.reverse_inj, hsplit]
    simp
  rw [Regions.collect_found hentries (by simpa using hrest)]
  refine List.perm_iff_count.2 fun a => ?_
  simp [hentries, hp, isPointer_zero, List.count_cons]

section Steps

variable (l)

@[simp] theorem held_push (hp : isPointer p) : (l.step (.push p)).held = l.held ++ [p] := by
  simp [held, step, Op.apply, Op.routine, Op.pointer, Routine.apply, Regions.push, hp]

@[simp] theorem held_enter : (l.step .enter).held = l.held := by
  simp [held, step, Op.apply, Op.routine, Routine.apply, Regions.enter, Regions.push,
    isPointer_marker]

@[simp] theorem held_adopt (hmoved : l.regions.moved ≠ Regions.marker) :
    (l.step .adopt).held = l.held ++ l.waiting := by
  by_cases hzero : l.regions.moved = 0#64
  · simp [held, waiting, step, Op.apply, Op.routine, Routine.apply, Regions.adopt, hzero]
  · have hpointer : isPointer l.regions.moved := by simp [isPointer, hzero, hmoved]
    simp [held, waiting, step, Op.apply, Op.routine, Routine.apply, Regions.adopt, hzero, hpointer]

@[simp] theorem detached_adopt : (l.step .adopt).detached = l.lost := by
  by_cases hzero : l.regions.moved = 0#64 <;>
    simp [detached, waiting, step, Op.apply, Op.routine, Routine.apply, Regions.adopt, hzero]

@[simp] theorem detached_push : (l.step (.push p)).detached = l.detached := rfl

@[simp] theorem detached_enter : (l.step .enter).detached = l.detached := rfl

@[simp] theorem detached_exit : (l.step .exit).detached = l.detached := rfl

@[simp] theorem detached_collect : (l.step (.collect p)).detached = l.detached := rfl

@[simp] theorem lost_release : (l.step (.release p)).lost = l.detached := rfl

theorem perm_release (hp : p ≠ Regions.marker) :
    ((l.step (.release p)).held ++ (l.step (.release p)).waiting).Perm l.held := by
  by_cases hlast : l.regions.entries.getLast? = some p
  · obtain ⟨es, hes⟩ := List.getLast?_eq_some_iff.1 hlast
    by_cases hzero : p = 0#64
    · simp [held, waiting, step, Op.apply, Op.routine, Op.pointer, Routine.apply, Regions.release,
        hes, hzero, isPointer_zero]
    · have hpointer : isPointer p := by simp [isPointer, hzero, hp]
      simp [held, waiting, step, Op.apply, Op.routine, Op.pointer, Routine.apply, Regions.release,
        hes, hzero, hpointer]
  · simp [held, waiting, step, Op.apply, Op.routine, Op.pointer, Routine.apply, Regions.release,
      hlast]

end Steps

theorem step_perm (hmoved : l.regions.moved ≠ Regions.marker) (ho : l.Allows o) :
    ((l.step o).owned ++ o.freed l.regions).Perm (o.pushed ++ l.owned) := by
  refine List.perm_iff_count.2 fun a => ?_
  cases o with
  | push p =>
    simp [owned, ho.1, Op.freed, Op.routine, Routine.freed, Op.pushed, List.count_cons]
    omega
  | enter => simp [owned, Op.freed, Op.routine, Routine.freed, Op.pushed]
  | exit =>
    have hcount : List.count a (l.step .exit).held + List.count a (Op.exit.freed l.regions) =
        List.count a l.held := by
      rw [← List.count_append]
      exact List.perm_iff_count.1 (perm_exit l.regions.entries l.regions.moved) a
    simp [owned, Op.pushed]
    omega
  | release p =>
    have hcount := List.perm_iff_count.1 (l.perm_release ho) a
    simp [owned, Op.freed, Op.routine, Routine.freed, Op.pushed, detached] at hcount ⊢
    omega
  | adopt =>
    have hdetached : l.detached = l.waiting ++ l.lost := rfl
    simp [owned, hmoved, Op.freed, Op.routine, Routine.freed, Op.pushed, hdetached]
  | collect p =>
    have hcount : List.count a (l.step (.collect p)).held +
        List.count a ((Op.collect p).freed l.regions) = List.count a l.held := by
      rw [← List.count_append]
      exact List.perm_iff_count.1 (perm_collect ho.1 ho.2) a
    simp [owned, Op.pushed]
    omega

theorem nodup_pushed (h : l.Clean) (ho : l.Allows o) : (o.pushed ++ l.owned).Nodup := by
  cases o with
  | push p => exact List.nodup_cons.2 ⟨ho.2, h.nodup⟩
  | _ => exact h.nodup

/-- What an operation frees was owned, and is so no longer. -/
theorem mem_freed (h : l.Clean) (ho : l.Allows o) (hp : p ∈ o.freed l.regions) :
    p ∈ l.owned ∧ p ∉ (l.step o).owned := by
  have hperm := step_perm h.moved ho
  have hmem := hperm.mem_iff.1 (List.mem_append_right _ hp)
  have hnodup := hperm.nodup_iff.2 (nodup_pushed h ho)
  refine ⟨?_, fun hstill => (List.nodup_append.1 hnodup).2.2 p hstill p hp rfl⟩
  cases o with
  | push q => simp [Op.freed, Op.routine, Routine.freed] at hp
  | _ => exact hmem

theorem nodup_freed (h : l.Clean) (ho : l.Allows o) : (o.freed l.regions).Nodup :=
  (List.nodup_append.1 ((step_perm h.moved ho).nodup_iff.2 (nodup_pushed h ho))).2.1

theorem ne_zero_of_freed (ho : l.Allows o) (hp : p ∈ o.freed l.regions) : p ≠ 0#64 := by
  cases o with
  | exit =>
    have hgarbage : p ∈ l.regions.garbage := hp
    simpa using (List.mem_filter.1 hgarbage).2
  | collect q =>
    obtain rfl : p = q := by simpa [Op.freed, Op.routine, Op.pointer, Routine.freed] using hp
    rintro rfl
    simp [Allows, isPointer_zero] at ho
  | _ => simp [Op.freed, Op.routine, Routine.freed] at hp

theorem clean_step (h : l.Clean) (ho : l.Allows o) : (l.step o).Clean := by
  have hperm := step_perm h.moved ho
  constructor
  case nodup => exact (List.nodup_append.1 (hperm.nodup_iff.2 (nodup_pushed h ho))).1
  case moved =>
    cases o with
    | release p =>
      have hp : p ≠ Regions.marker := ho
      by_cases hlast : l.regions.entries.getLast? = some p
      · simpa [step, Op.apply, Op.routine, Op.pointer, Routine.apply, Regions.release, hlast] using
          hp
      · simp [step, Op.apply, Op.routine, Op.pointer, Routine.apply, Regions.release, hlast,
          Regions.marker, Collector.marker]
    | adopt =>
      by_cases hzero : l.regions.moved = 0#64
      · simpa [step, Op.apply, Op.routine, Routine.apply, Regions.adopt, hzero] using h.moved
      · simp [step, Op.apply, Op.routine, Routine.apply, Regions.adopt, hzero, Regions.marker,
          Collector.marker]
    | _ => exact h.moved

/-! Whole sequences. -/

def run (l : Ledger) (os : List Op) : Ledger := os.foldl step l

def AllowsAll : Ledger → List Op → Prop
  | _, [] => True
  | l, o :: os => l.Allows o ∧ AllowsAll (l.step o) os

def freedBy : Ledger → List Op → List Word
  | _, [] => []
  | l, o :: os => o.freed l.regions ++ freedBy (l.step o) os

variable {os os' : List Op}

@[simp] theorem run_nil : l.run [] = l := rfl

@[simp] theorem run_cons : l.run (o :: os) = (l.step o).run os := rfl

@[simp] theorem run_append : l.run (os ++ os') = (l.run os).run os' := List.foldl_append

theorem allowsAll_append :
    l.AllowsAll (os ++ os') ↔ l.AllowsAll os ∧ (l.run os).AllowsAll os' := by
  induction os generalizing l with
  | nil => simp [AllowsAll]
  | cons o os ih => simp [AllowsAll, ih, and_assoc]

theorem freedBy_append : l.freedBy (os ++ os') = l.freedBy os ++ (l.run os).freedBy os' := by
  induction os generalizing l with
  | nil => rfl
  | cons o os ih => simp [freedBy, ih]

theorem clean_run (h : l.Clean) (hos : l.AllowsAll os) : (l.run os).Clean := by
  induction os generalizing l with
  | nil => exact h
  | cons o os ih => exact ih (clean_step h hos.1) hos.2

theorem run_perm (h : l.Clean) (hos : l.AllowsAll os) :
    ((l.run os).owned ++ l.freedBy os).Perm (os.flatMap Op.pushed ++ l.owned) := by
  induction os generalizing l with
  | nil => simp [freedBy]
  | cons o os ih =>
    refine List.perm_iff_count.2 fun a => ?_
    have hstep := List.perm_iff_count.1 (step_perm h.moved hos.1) a
    have hrest := List.perm_iff_count.1 (ih (clean_step h hos.1) hos.2) a
    simp only [List.count_append, List.flatMap_cons, run_cons, freedBy] at hstep hrest ⊢
    omega

/-- Only a release detaches a pointer. -/
theorem detached_step (hp : p ∈ (l.step o).detached) (hnew : p ∉ l.detached) : o = .release p := by
  cases o with
  | release q =>
    have hwaiting : p ∈ (l.step (.release q)).waiting := by
      have hsplit : p ∈ (l.step (.release q)).waiting ∨ p ∈ l.detached := by
        simpa [detached] using hp
      exact hsplit.resolve_right hnew
    by_cases hlast : l.regions.entries.getLast? = some q
    · by_cases hzero : q = 0#64
      · simp [waiting, step, Op.apply, Op.routine, Op.pointer, Routine.apply,
          Regions.release, hlast,
          hzero] at hwaiting
      · have hpq : p = q := by
          simpa [waiting, step, Op.apply, Op.routine, Op.pointer, Routine.apply, Regions.release,
            hlast, hzero] using hwaiting
        rw [hpq]
    · simp [waiting, step, Op.apply, Op.routine, Op.pointer, Routine.apply, Regions.release,
        hlast] at hwaiting
  | adopt =>
    rw [detached_adopt] at hp
    exact absurd (List.mem_append_right _ hp) hnew
  | _ => exact absurd hp hnew

theorem detached_run (hp : p ∈ (l.run os).detached) (hnew : p ∉ l.detached) : .release p ∈ os := by
  induction os generalizing l with
  | nil => exact absurd hp hnew
  | cons o os ih =>
    by_cases hstep : p ∈ (l.step o).detached
    · rw [detached_step hstep hnew]
      exact List.mem_cons_self
    · exact List.mem_cons_of_mem _ (ih hp hstep)

/-! Frames. While one is open, its marker and the entries below stay, but for those that are
collected. -/

/-- An entry after some operations. -/
def wipe (os : List Op) (a : Word) : Word := if .collect a ∈ os then 0#64 else a

theorem wipe_cons (o : Op) (os : List Op) (a : Word) : wipe os (wipe [o] a) = wipe (o :: os) a := by
  by_cases ho : .collect a = o
  · simp [wipe, ho]
  · simp [wipe, ho]

theorem wipe_eq_self {o : Op} (ho : ∀ p, o ≠ .collect p) (base : List Word) :
    base.map (wipe [o]) = base := by
  refine List.map_id'' (fun a => ?_) base
  simp [wipe, (ho a).symm]

theorem collect_entries (h : l.Clean) (hp : isPointer p) (hmem : p ∈ l.regions.entries) :
    (l.regions.collect p).entries = l.regions.entries.map (wipe [.collect p]) := by
  have hcount : l.regions.entries.count p ≤ 1 := by
    have hheld : l.held.Nodup := (List.nodup_append.1 h.nodup).1
    rw [← List.count_filter hp]
    exact List.nodup_iff_count_le_one.1 hheld p
  obtain ⟨rest, es, hsplit, hrest⟩ := List.eq_append_cons_of_mem (List.mem_reverse.2 hmem)
  have hentries : l.regions.entries = es.reverse ++ p :: rest.reverse := by
    rw [← List.reverse_inj, hsplit]
    simp
  have hes : p ∉ es := by
    intro hin
    have hpos := List.count_pos_iff.2 hin
    rw [hentries] at hcount
    simp at hcount
    omega
  have hkeep (xs : List Word) (hxs : p ∉ xs) : xs.map (wipe [.collect p]) = xs := by
    refine (List.map_congr_left fun a ha => ?_).trans (List.map_id xs)
    have hne : a ≠ p := fun heq => hxs (heq ▸ ha)
    simp [wipe, hne]
  rw [Regions.collect_found hentries (by simpa using hrest), hentries]
  simp [hkeep, hes, hrest, wipe]

theorem exit_above (below above : List Word) (q : Word) (h : 0 < above.count Regions.marker) :
    ∃ above', (⟨below ++ above, q⟩ : Regions).exit.entries = below ++ above' ∧
      above'.count Regions.marker + 1 = above.count Regions.marker := by
  induction above using List.reverseRecOn with
  | nil => simp at h
  | append_singleton above p ih =>
    rw [← List.append_assoc]
    by_cases hmarker : p = Regions.marker
    · rw [hmarker, Regions.exit_marker]
      exact ⟨above, rfl, by simp⟩
    · rw [Regions.exit_concat _ _ _ hmarker]
      simpa [hmarker] using ih (by simpa [hmarker] using h)

theorem exit_innermost (base above : List Word) (q : Word) (h : above.count Regions.marker = 0) :
    (⟨base ++ Regions.marker :: above, q⟩ : Regions).exit = ⟨base, q⟩ := by
  induction above using List.reverseRecOn with
  | nil => exact Regions.exit_marker base q
  | append_singleton above p ih =>
    have hp : p ≠ Regions.marker := by
      rintro rfl
      simp at h
    rw [← List.cons_append, ← List.append_assoc, Regions.exit_concat _ _ _ hp]
    exact ih (by simpa [hp] using h)

/-- The entries above a marker, with the number of frames that are open above it. -/
def Above (c : Regions) (base : List Word) (n : Nat) : Prop :=
  ∃ above, c.entries = base ++ Regions.marker :: above ∧ above.count Regions.marker = n

theorem above_step {base : List Word} {n m : Nat} (h : l.Clean) (ho : l.Allows o)
    (hbase : Above l.regions base n) (hdepth : o.level n = some m) :
    Above (l.step o).regions (base.map (wipe [o])) m := by
  obtain ⟨above, hentries, hcount⟩ := hbase
  cases o with
  | push p =>
    obtain rfl : n = m := by simpa [Op.level] using hdepth
    have hp : p ≠ Regions.marker := by
      rintro rfl
      simp [Allows, isPointer_marker] at ho
    rw [wipe_eq_self (by simp)]
    refine ⟨above ++ [p], ?_, by simpa [hp] using hcount⟩
    simp [step, Op.apply, Op.routine, Op.pointer, Routine.apply, Regions.push, hentries]
  | enter =>
    obtain rfl : n + 1 = m := by simpa [Op.level] using hdepth
    rw [wipe_eq_self (by simp)]
    refine ⟨above ++ [Regions.marker], ?_, by simp [hcount]⟩
    simp [step, Op.apply, Op.routine, Routine.apply, Regions.enter, Regions.push, hentries]
  | exit =>
    obtain ⟨hpositive, rfl⟩ : n ≠ 0 ∧ n - 1 = m := by simpa [Op.level] using hdepth
    obtain ⟨above', hexit, hcount'⟩ := exit_above (base ++ [Regions.marker]) above l.regions.moved
      (by omega)
    rw [wipe_eq_self (by simp)]
    refine ⟨above', ?_, by omega⟩
    have hregions : l.regions = ⟨base ++ [Regions.marker] ++ above, l.regions.moved⟩ := by
      simp [← hentries]
    change l.regions.exit.entries = _
    rw [hregions, hexit]
    simp
  | release p =>
    obtain rfl : n = m := by simpa [Op.level] using hdepth
    have hp : p ≠ Regions.marker := ho
    rw [wipe_eq_self (by simp)]
    by_cases hlast : l.regions.entries.getLast? = some p
    · rcases List.eq_nil_or_concat above with rfl | ⟨as, q, rfl⟩
      · simp [hentries, Ne.symm hp] at hlast
      · have hconcat : l.regions.entries = (base ++ Regions.marker :: as) ++ [q] := by
          simp [hentries]
        obtain rfl : q = p := by
          rw [hconcat, List.getLast?_concat] at hlast
          exact Option.some.inj hlast
        refine ⟨as, ?_, by simpa [hp] using hcount⟩
        change (l.regions.release q).entries = _
        rw [Regions.release, if_pos hlast, hconcat, List.dropLast_concat]
    · refine ⟨above, ?_, hcount⟩
      simpa [step, Op.apply, Op.routine, Op.pointer, Routine.apply, Regions.release, hlast] using
        hentries
  | adopt =>
    obtain rfl : n = m := by simpa [Op.level] using hdepth
    rw [wipe_eq_self (by simp)]
    by_cases hzero : l.regions.moved = 0#64
    · refine ⟨above, ?_, hcount⟩
      simpa [step, Op.apply, Op.routine, Routine.apply, Regions.adopt, hzero] using hentries
    · refine ⟨above ++ [l.regions.moved], ?_, by simpa [h.moved] using hcount⟩
      simp [step, Op.apply, Op.routine, Routine.apply, Regions.adopt, hzero, hentries]
  | collect p =>
    obtain rfl : n = m := by simpa [Op.level] using hdepth
    have hmarker : wipe [.collect p] Regions.marker = Regions.marker := by
      have hp : Regions.marker ≠ p := by
        rintro rfl
        simp [Allows, isPointer_marker] at ho
      simp [wipe, hp]
    refine ⟨above.map (wipe [.collect p]), ?_, ?_⟩
    · have hcollect := collect_entries h ho.1 ho.2
      simpa [step, Op.apply, Op.routine, Op.pointer, Routine.apply, hentries, hmarker] using
        hcollect
    · have hsame (a : Word) : (wipe [.collect p] a == Regions.marker) = (a == Regions.marker) := by
        by_cases hap : a = p
        · have hp : a ≠ Regions.marker := by
            rintro rfl
            rw [← hap] at ho
            simp [Allows, isPointer_marker] at ho
          have hzero : 0#64 ≠ Regions.marker := by decide
          simp [wipe, hap, hzero, hap ▸ hp]
        · simp [wipe, hap]
      rw [List.count_eq_countP, List.countP_map, ← hcount, List.count_eq_countP]
      exact List.countP_congr fun a _ => by simp [hsame]

/-- While a frame is open, the entries below it are only wiped. -/
theorem above_run {base : List Word} {n m : Nat} (h : l.Clean) (hos : l.AllowsAll os)
    (hbase : Above l.regions base n) (hdepth : Op.depth n os = some m) :
    Above (l.run os).regions (base.map (wipe os)) m := by
  induction os generalizing l base n with
  | nil =>
    obtain rfl : n = m := by simpa [Op.depth] using hdepth
    have hid : wipe [] = id := by
      funext a
      simp [wipe]
    simpa [hid] using hbase
  | cons o os ih =>
    obtain ⟨k, hone, hrest⟩ := Option.bind_eq_some_iff.1 hdepth
    have hstep := ih (clean_step h hos.1) hos.2 (above_step h hos.1 hbase hone) hrest
    simpa [wipe_cons, Function.comp_def] using hstep

theorem window_entries (h : l.Clean) (hos : l.AllowsAll (.enter :: (os ++ [.exit])))
    (hdepth : Op.depth 0 os = some 0) :
    (l.run (.enter :: (os ++ [.exit]))).regions.entries = l.regions.entries.map (wipe os) := by
  obtain ⟨henter, hrest⟩ := hos
  obtain ⟨hinner, -⟩ := allowsAll_append.1 hrest
  have hopened : Above (l.step .enter).regions l.regions.entries 0 := ⟨[], rfl, rfl⟩
  obtain ⟨above, hentries, hcount⟩ := above_run (clean_step h henter) hinner hopened hdepth
  rw [run_cons, run_append]
  generalize (l.step .enter).run os = l' at hentries
  have hregions : l'.regions = ⟨l.regions.entries.map (wipe os) ++ Regions.marker :: above,
      l'.regions.moved⟩ := by
    simp [← hentries]
  change l'.regions.exit.entries = _
  rw [hregions, exit_innermost _ _ _ hcount]

theorem count_freed (h : l.Clean) (hpush : l.Allows (.push p))
    (hos : (l.step (.push p)).AllowsAll os) (hnew : .push p ∉ os) :
    ((l.step (.push p)).run os).owned.count p + ((l.step (.push p)).freedBy os).count p = 1 := by
  have hclean := clean_step h hpush
  have hcount := List.perm_iff_count.1 (run_perm hclean hos) p
  have hmem : p ∈ (l.step (.push p)).owned := by simp [owned, hpush.1]
  have hpushed : (os.flatMap Op.pushed).count p = 0 := by
    refine List.count_eq_zero.2 fun hin => ?_
    obtain ⟨o, ho, hp⟩ := List.mem_flatMap.1 hin
    cases o with
    | push q =>
      obtain rfl : p = q := by simpa [Op.pushed] using hp
      exact hnew ho
    | _ => simp [Op.pushed] at hp
  simpa [hpushed, List.count_eq_one_of_mem hclean.nodup hmem] using hcount

theorem freed_before_push (h : l.Clean) (hpush : l.Allows (.push p))
    (hos : (l.step (.push p)).AllowsAll (os ++ [.push p])) (hnew : .push p ∉ os) :
    ((l.step (.push p)).freedBy os).count p = 1 := by
  obtain ⟨hinner, hagain, -⟩ := allowsAll_append.1 hos
  have hcount := count_freed h hpush hinner hnew
  rw [List.count_eq_zero.2 hagain.2, Nat.zero_add] at hcount
  exact hcount

theorem held_exit {base : List Word} (hbase : Above l.regions (base.map (wipe os)) 0)
    (hp : isPointer p) (hnew : p ∉ base) : p ∉ (l.step .exit).held := by
  obtain ⟨above, hentries, hcount⟩ := hbase
  have hregions : l.regions = ⟨base.map (wipe os) ++ Regions.marker :: above, l.regions.moved⟩ := by
    simp [← hentries]
  have hexit : (l.step .exit).regions.entries = base.map (wipe os) := by
    change l.regions.exit.entries = _
    rw [hregions, exit_innermost _ _ _ hcount]
  intro hheld
  rw [held, hexit] at hheld
  obtain ⟨a, ha, hwipe⟩ := List.mem_map.1 (List.mem_filter.1 hheld).1
  rw [wipe] at hwipe
  split at hwipe
  case isTrue =>
    rw [← hwipe, isPointer_zero] at hp
    exact Bool.false_ne_true hp
  case isFalse => exact hnew (hwipe ▸ ha)

/-- A pointer that is pushed in a frame is freed once when the frame is closed, or a release has
detached it. -/
theorem freed_before_exit {base : List Word} {n : Nat} (h : l.Clean)
    (hbase : Above l.regions base n)
    (hpush : l.Allows (.push p)) (hos : (l.step (.push p)).AllowsAll (os ++ [.exit]))
    (hdepth : Op.depth n os = some 0) (hnew : .push p ∉ os) :
    ((l.step (.push p)).freedBy (os ++ [.exit])).count p = 1 ∨
      ((l.step (.push p)).freedBy (os ++ [.exit])).count p = 0 ∧ .release p ∈ os := by
  have hcount := count_freed h hpush hos (by simpa using hnew)
  by_cases howned : p ∈ ((l.step (.push p)).run (os ++ [.exit])).owned
  case neg =>
    left
    rwa [List.count_eq_zero.2 howned, Nat.zero_add] at hcount
  case pos =>
    right
    have hpositive := List.count_pos_iff.2 howned
    refine ⟨by omega, ?_⟩
    have hclean := clean_step h hpush
    have habove : Above ((l.step (.push p)).run os).regions (base.map (wipe os)) 0 := by
      have hpushed := above_step h hpush hbase (m := n) rfl
      rw [wipe_eq_self (by simp)] at hpushed
      exact above_run hclean (allowsAll_append.1 hos).1 hpushed hdepth
    have hoff : p ∉ base := by
      intro hin
      obtain ⟨above, hentries, -⟩ := hbase
      refine hpush.2 (List.mem_append_left _ (List.mem_filter.2 ⟨?_, hpush.1⟩))
      rw [hentries]
      exact List.mem_append_left _ hin
    rw [run_append] at howned
    have hdetached := (List.mem_append.1 howned).resolve_left (held_exit habove hpush.1 hoff)
    have hattached : p ∉ (l.step (.push p)).detached :=
      fun hin => hpush.2 (List.mem_append_right _ hin)
    exact detached_run hdetached hattached

end Ledger

end RegionCompiler.Collector
