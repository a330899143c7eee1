import RegionCompiler.Proofs.Collector.Session

/-! Routines of the collector as programs call them, and frames that are closed one after the
other. A call comes back behind itself, with the stack above it as it was. -/
namespace RegionCompiler.Collector.Regions

open Machine

/-- Some frames are closed, the innermost first. -/
def exits (c : Regions) : Nat → Regions
  | 0 => c
  | n + 1 => c.exit.exits n

/-- What closing some frames frees, in this order. -/
def discarded (c : Regions) : Nat → List Word
  | 0 => []
  | n + 1 => c.garbage ++ c.exit.discarded n

/-- The entries of frames, the oldest frame first. Each of them starts with its marker. -/
def framed (frames : List (List Word)) : List Word := frames.flatMap (marker :: ·)

def pointers (frames : List (List Word)) : List Word :=
  (frames.flatMap (·.filter (· ≠ 0#64))).reverse

variable {below above : List Word} {frames : List (List Word)} {f : List Word} {p q : Word}

theorem exits_add (c : Regions) (n m : Nat) : c.exits (n + m) = (c.exits n).exits m := by
  induction n generalizing c with
  | zero => rw [Nat.zero_add, exits]
  | succ n ih => rw [Nat.add_right_comm, exits, exits, ih]

theorem discarded_add (c : Regions) (n m : Nat) :
    c.discarded (n + m) = c.discarded n ++ (c.exits n).discarded m := by
  induction n generalizing c with
  | zero => rw [Nat.zero_add, exits, discarded, List.nil_append]
  | succ n ih => rw [Nat.add_right_comm, discarded, discarded, exits, ih, List.append_assoc]

theorem framed_concat (frames : List (List Word)) (f : List Word) :
    framed (frames ++ [f]) = framed frames ++ marker :: f := by
  simp [framed]

theorem pointers_concat (frames : List (List Word)) (f : List Word) :
    pointers (frames ++ [f]) = (f.filter (· ≠ 0#64)).reverse ++ pointers frames := by
  simp [pointers]

theorem filter_framed (h : ∀ f ∈ frames, marker ∉ f) :
    (framed frames).filter isPointer = (pointers frames).reverse := by
  rw [pointers, List.reverse_reverse, framed, List.filter_flatMap]
  refine List.flatMap_congr fun f hf => ?_
  rw [List.filter_cons_of_neg (by simp [Ledger.isPointer_marker])]
  refine List.filter_congr fun q hq => ?_
  have hmarker : q ≠ marker := by
    rintro rfl
    exact h f hf hq
  simp [isPointer, hmarker]

theorem garbage_frame (h : marker ∉ f) :
    (⟨below ++ marker :: f, q⟩ : Regions).garbage = (f.filter (· ≠ 0#64)).reverse := by
  induction f using List.reverseRecOn with
  | nil => exact garbage_marker below q
  | append_singleton f p ih =>
    obtain ⟨hf, hp⟩ : marker ∉ f ∧ p ≠ marker := by simpa [eq_comm] using h
    rw [← List.cons_append, ← List.append_assoc, garbage_concat _ _ _ hp, ih hf]
    by_cases hzero : p = 0#64 <;> simp [hzero]

theorem exits_framed (h : ∀ f ∈ frames, marker ∉ f) :
    (⟨below ++ framed frames, q⟩ : Regions).exits frames.length = ⟨below, q⟩ ∧
      (⟨below ++ framed frames, q⟩ : Regions).discarded frames.length = pointers frames := by
  induction frames using List.reverseRecOn with
  | nil => simp [framed, exits, discarded, pointers]
  | append_singleton frames f ih =>
    have hf : marker ∉ f := h f (by simp)
    obtain ⟨hexits, hdiscarded⟩ := ih fun g hg => h g (by simp [hg])
    have hexit : (⟨below ++ framed (frames ++ [f]), q⟩ : Regions).exit =
        ⟨below ++ framed frames, q⟩ := by
      rw [framed_concat, ← List.append_assoc]
      exact Ledger.exit_innermost _ _ _ (List.count_eq_zero.2 hf)
    rw [List.length_append, List.length_singleton, exits, discarded, hexit, hexits, hdiscarded,
      pointers_concat, framed_concat, ← List.append_assoc, garbage_frame hf]
    exact ⟨rfl, rfl⟩

theorem release_newest (below : List Word) (outer : List (List Word)) (inner : List Word)
    (q p : Word) :
    (⟨below ++ framed (outer ++ [inner ++ [p]]), q⟩ : Regions).release p =
      ⟨below ++ framed (outer ++ [inner]), p⟩ := by
  have hentries : below ++ framed (outer ++ [inner ++ [p]]) =
      below ++ framed (outer ++ [inner]) ++ [p] := by
    simp [framed]
  rw [hentries, release, if_pos (by simp), List.dropLast_concat]

theorem adopt_pointer (h : isPointer p) :
    (⟨below, p⟩ : Regions).adopt = ⟨below ++ [p], 0#64⟩ ∧
      p ∈ (⟨below ++ [p], 0#64⟩ : Regions).innermost := by
  obtain ⟨hzero, hmarker⟩ : p ≠ 0#64 ∧ p ≠ marker := by simpa [isPointer] using h
  exact ⟨if_neg hzero, by simp [innermost, hmarker]⟩

end RegionCompiler.Collector.Regions

namespace RegionCompiler.Machine.Process

open Collector

variable {w : Process} {done : List Op} {r : Collector.Routine} {k k' : Int} {i n : Nat}
  {s t u : State} {c c' c'' : Regions} {freed freed' : List Word} {P : Nat → State → Prop}

/-- A place from which routines may be called: the stack is aligned, with room below. -/
structure Standing (w : Process) (k : Int) (s : State) : Prop where
  rsp : s.registers .rsp = w.at_ k
  aligned : k % 16 = 0
  room : w.low + w.reserve + 80 ≤ k
  high : k ≤ w.high

/-- What was done to the collector by routines that found room: it has this stack now, these
pointers were freed, and what else there is was left alone, from a place of the stack on. -/
structure Served (w : Process) (k : Int) (c : Regions) (freed : List Word) (s t : State) :
    Prop where
  holds : w.Holds t.memory t.blocks c
  capacity : w.capacity t.memory = w.capacity s.memory
  above : ∀ i, k ≤ i → i + 8 ≤ w.high → t.memory.word (w.at_ i) = s.memory.word (w.at_ i)
  kept : ∀ q, q ∉ freed → q ≠ w.data s.memory → s.blocks q ≠ none →
    Kept s t q ∧ q ≠ w.data t.memory
  requests : t.requests w.platform = s.requests w.platform ++ freed.map .free

/-- One of these pointers is about to be freed, though it is no block of the program, or no longer
one. -/
def Misused (w : Process) (freed : List Word) (s : State) (i : Nat) (t : State) : Prop :=
  ∃ done p rest, freed = done ++ p :: rest ∧
    (p = w.data s.memory ∨ s.blocks p = none ∨ p ∈ done) ∧
    w.image.code[i]? = some (.call "free") ∧ argument w.platform t.registers 0 = p ∧
    t.requests w.platform = s.requests w.platform ++ done.map .free

theorem Misused.append (h : w.Misused freed s i t) (freed' : List Word) :
    w.Misused (freed ++ freed') s i t := by
  obtain ⟨done, p, rest, rfl, hp⟩ := h
  exact ⟨done, p, rest ++ freed', by simp, hp⟩

theorem Misused.not_blocks (h : w.Misused freed s i t) (hnodup : freed.Nodup) :
    ∃ p ∈ freed, p = w.data s.memory ∨ s.blocks p = none := by
  obtain ⟨done, p, rest, rfl, hp | hp | hp, -⟩ := h
  · exact ⟨p, by simp, .inl hp⟩
  · exact ⟨p, by simp, .inr hp⟩
  · exact absurd rfl ((List.nodup_append.1 hnodup).2.2 p hp p (by simp))

namespace Served

theorem of_eq (hc : w.Holds s.memory s.blocks c) (hmemory : t.memory = s.memory)
    (hblocks : t.blocks = s.blocks) (hcalls : t.calls = s.calls) : w.Served k c [] s t where
  holds := by rwa [hmemory, hblocks]
  capacity := by rw [hmemory]
  above i _ _ := by rw [hmemory]
  kept q _ hq _ := by
    rw [hmemory, Kept, hmemory, hblocks]
    exact ⟨⟨rfl, fun _ _ _ _ => rfl⟩, hq⟩
  requests := by simp [State.requests, hcalls]

theorem trans (h : w.Served k c freed s t) (h' : w.Served k c' freed' t u) :
    w.Served k c' (freed ++ freed') s u where
  holds := h'.holds
  capacity := h'.capacity.trans h.capacity
  above i hi hi' := (h'.above i hi hi').trans (h.above i hi hi')
  kept q hq hdata hlive := by
    obtain ⟨hfirst, hsecond⟩ : q ∉ freed ∧ q ∉ freed' := by simpa using hq
    obtain ⟨hkept, hdata⟩ := h.kept q hfirst hdata hlive
    obtain ⟨hkept', hdata'⟩ := h'.kept q hsecond hdata (by rwa [hkept.1])
    exact ⟨hkept.trans hkept', hdata'⟩
  requests := by rw [h'.requests, h.requests, List.map_append, List.append_assoc]

theorem mono (h : w.Served k c freed s t) (hk : k ≤ k') : w.Served k' c freed s t :=
  { h with above := fun i hi => h.above i (hk.trans hi) }

theorem misused (h : w.Served k c freed s t) (h' : w.Misused freed' t i u) :
    w.Misused (freed ++ freed') s i u := by
  obtain ⟨done, p, rest, rfl, hp, hcall, hargument, hrequests⟩ := h'
  refine ⟨freed ++ done, p, rest, by simp, ?_, hcall, hargument, ?_⟩
  · by_contra hno
    simp only [not_or, List.mem_append] at hno
    obtain ⟨hdata, hlive, hfreed, hdone⟩ := hno
    obtain ⟨hkept, hdata'⟩ := h.kept p hfreed hdata hlive
    rcases hp with hp | hp | hp
    · exact hdata' hp
    · exact hlive (hkept.1.symm.trans hp)
    · exact hdone hp
  · rw [hrequests, h.requests, List.map_append, List.append_assoc]

end Served

theorem Owns.pointers (h : w.Owns done s) {below : List Word} {frames : List (List Word)}
    (hentries : (Ledger.empty.run done).regions.entries = below ++ Regions.framed frames)
    (hframes : ∀ f ∈ frames, Regions.marker ∉ f) :
    (Regions.pointers frames).Nodup ∧
      ∀ q ∈ Regions.pointers frames, s.blocks q ≠ none ∧ q ≠ w.data s.memory := by
  have howned : (Ledger.empty.run done).owned = below.filter isPointer ++
      (Regions.pointers frames).reverse ++ (Ledger.empty.run done).detached := by
    rw [Ledger.owned, Ledger.held, hentries, List.filter_append, Regions.filter_framed hframes]
  constructor
  · have hnodup := h.clean.nodup
    rw [howned] at hnodup
    exact List.nodup_reverse.1 (List.nodup_append.1 (List.nodup_append.1 hnodup).1).2.1
  · intro q hq
    refine h.live q ?_
    rw [howned]
    simp [hq]

theorem Performed.served (h : w.Performed r k s c t) (hroom : w.grows r s c = false)
    (hlow : w.low ≤ k) :
    w.Served k (r.apply (s.registers .rax) c) (r.freed (s.registers .rax) c) s t where
  holds := h.holds
  capacity := by
    have hcapacity := h.capacity
    rw [hroom] at hcapacity
    exact BitVec.eq_of_toNat_eq (by simpa using hcapacity)
  above i hi hi' := h.leaves.word_at hlow hi hi'
  kept q hq hdata hlive := by
    have hfresh : q ≠ w.data t.memory := by
      rintro rfl
      exact h.fresh.elim hdata fun hfresh => hlive hfresh.1
    exact ⟨h.leaves.kept q (by simp [hq, hdata, hfresh]), hfresh⟩
  requests := by
    obtain ⟨calls, hcalls, hwishes, -⟩ := h.calls
    rw [State.requests, hcalls, List.map_append, hwishes, wishes, hroom]
    rfl

theorem grows_of_appends (h : r.appends c = false) : w.grows r s c = false := by
  rw [grows, h, Bool.false_and]

/-- A call of a routine that has room comes back, or the routine would free what it must not. -/
theorem called_arrives (hi : w.image.code[i]? = some (.call r.symbol)) (hs : w.Standing k s)
    (hc : w.Holds s.memory s.blocks c) (hroom : w.grows r s c = false) :
    w.image.Arrives i s fun j t =>
      (j = i + 1 ∧ t.registers .rsp = s.registers .rsp ∧ t.registers .rbp = s.registers .rbp ∧
        w.Served k (r.apply (s.registers .rax) c) (r.freed (s.registers .rax) c) s t) ∨
      w.Misused (r.freed (s.registers .rax) c) s j t := by
  obtain ⟨hrsp, haligned, hlow, hhigh⟩ := hs
  generalize hback : w.image.addressOf (i + 1) = back
  generalize he : s.push back = e
  obtain ⟨hrsp', hrbp, hrax, hmemory, hblocks, hcalls⟩ : e.registers .rsp = w.at_ (k - 8) ∧
      e.registers .rbp = s.registers .rbp ∧ e.registers .rax = s.registers .rax ∧
      e.memory = s.memory.put (w.at_ (k - 8)) back ∧ e.blocks = s.blocks ∧ e.calls = s.calls := by
    have hplace : k + -8 = k - 8 := by omega
    simp [← he, State.push, hrsp, hplace]
  have hentered : w.Entered 72 (k - 8) e := ⟨hrsp', by omega, by omega, by omega⟩
  have hc' : w.Holds e.memory e.blocks c := by
    rw [hmemory, hblocks]
    exact hc.put_stack (by omega) (by omega) _
  have hdata : w.data e.memory = w.data s.memory := by
    rw [hmemory, data_put_stack _ (by omega) (by omega)]
  have hcapacity : w.capacity e.memory = w.capacity s.memory := by
    rw [hmemory, capacity_put_stack _ (by omega) (by omega)]
  have hroom' : w.grows r e c = false := by rw [grows, hcapacity]; exact hroom
  -- The return address lies below the place.
  have hpushed : w.Served k c [] s e := {
    holds := hc'
    capacity := hcapacity
    above := fun i hi hi' => by
      rw [hmemory]
      refine Memory.word_put_apart (.of_disjoint (P := fun a => ∃ n : Int, w.low ≤ n ∧ n < k ∧
        a = w.at_ n) (Q := fun a => ∃ n : Int, k ≤ n ∧ n < w.high ∧ a = w.at_ n) ?_ ?_ ?_)
      · rintro a ⟨n, hn, hn', rfl⟩ ⟨m, hm, hm', heq⟩
        exact at_ne hn (by omega) (by omega) hm' (by omega) heq
      · intro n hn
        exact ⟨k - 8 + n, by omega, by omega, w.at_add _ _⟩
      · intro n hn
        exact ⟨i + n, by omega, by omega, w.at_add _ _⟩
    kept := fun q _ hq hlive => by
      have hleaves : w.Leaves k [] s e := ((Leaves.refl w k [] s).put_stack hc.sound (i := k - 8)
        (by omega) (by omega) hhigh back).of_eq hmemory hblocks
      exact ⟨hleaves.kept q (by simp), by rwa [hdata]⟩
    requests := by simp [State.requests, hcalls] }
  obtain ⟨start, hstart, hsits⟩ := w.routine_start r
  refine .call hi hstart ?_
  rw [hback, he]
  refine (routine_arrives hentered hc' hsits).bind fun j t hends => ?_
  rcases hends with ⟨hret, ht⟩ | ⟨hgrow, -⟩ |
    ⟨done, p, rest, calls, hfreed, -, hp, hcall, hargument, hcalls', hrequests⟩
  · have hserved := ht.served hroom' (by omega)
    have hpeek : t.peek = back := by
      rw [State.peek, ht.rsp, hrsp', hserved.above _ (by omega) (by omega), hmemory,
        Memory.word_put]
    refine .ret hret hi rfl (hpeek.trans hback.symm) (.here (.inl ⟨rfl, ?_, ?_, ?_⟩))
    · have hplace : k - 8 + 8 = k := by omega
      simp [State.drop, ht.rsp, hrsp', hrsp, hplace]
    · simp [State.drop, ht.rbp, hrbp]
    · rw [hrax] at hserved
      have hback := hpushed.trans (hserved.mono (by omega : k - 8 ≤ k))
      simpa using hback.trans (.of_eq (t := t.drop) hserved.holds rfl rfl rfl)
  · rw [hroom'] at hgrow
    cases hgrow
  · rw [hrax] at hfreed
    have hmisused : w.Misused (r.freed (s.registers .rax) c) e j t := by
      refine ⟨done, p, rest, hfreed, hp, hcall, hargument, ?_⟩
      rw [State.requests, hcalls', List.map_append, hrequests]
      rfl
    exact .here (.inr (hpushed.misused hmisused))

theorem exits_arrive (hsits : Sits w.image.code i (List.replicate n (.call exitSymbol)))
    (hs : w.Standing k s) (hc : w.Holds s.memory s.blocks c) :
    w.image.Arrives i s fun j t =>
      (j = i + n ∧ t.registers .rsp = s.registers .rsp ∧ t.registers .rbp = s.registers .rbp ∧
        w.Served k (c.exits n) (c.discarded n) s t) ∨
      w.Misused (c.discarded n) s j t := by
  induction n generalizing i s c with
  | zero => exact .here (.inl ⟨rfl, rfl, rfl, .of_eq hc rfl rfl rfl⟩)
  | succ n ih =>
    rw [List.replicate_succ] at hsits
    refine (called_arrives (r := .exit) hsits.head hs hc (grows_of_appends rfl)).bind
      fun j t ht => ?_
    rcases ht with ⟨rfl, hrsp, hrbp, hserved⟩ | hmisused
    · refine (ih hsits.tail { hs with rsp := hrsp.trans hs.rsp } hserved.holds).mono
        fun j u hu => ?_
      rcases hu with ⟨rfl, hrsp', hrbp', hserved'⟩ | hmisused
      · exact .inl ⟨by omega, hrsp'.trans hrsp, hrbp'.trans hrbp, hserved.trans hserved'⟩
      · exact .inr (hserved.misused hmisused)
    · exact .here (.inr (hmisused.append (c.exit.discarded n)))

end RegionCompiler.Machine.Process
