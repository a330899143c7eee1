import RegionCompiler.Proofs.Codegen.Return

/-! The markers that start frames lie among the entries of the collector, as words like any other. A
pointer is taken for one of them only if it has the very value of a marker. -/
namespace RegionCompiler.Collector.Regions

open Machine

variable {c c' : Regions} {p : Word} {n : Nat}

/-- The markers are the same, at the same places. -/
def SameMarkers (c c' : Regions) : Prop :=
  ∀ n : Nat, c'.entries[n]? = some marker ↔ c.entries[n]? = some marker

/-- The marker of the innermost frame has this place. -/
def Innermost (c : Regions) (n : Nat) : Prop :=
  c.entries[n]? = some marker ∧ ∀ i, n < i → c.entries[i]? ≠ some marker

theorem SameMarkers.innermost (h : SameMarkers c c') (hn : c.Innermost n) : c'.Innermost n :=
  ⟨(h n).2 hn.1, fun i hi => (h i).not.2 (hn.2 i hi)⟩

theorem exit_of_innermost (h : c.Innermost n) : c.exit = ⟨c.entries.take n, c.moved⟩ := by
  obtain ⟨hn, habove⟩ := h
  have hlt : n < c.entries.length := (List.getElem?_eq_some_iff.1 hn).1
  have hsplit : c.entries = c.entries.take n ++ marker :: c.entries.drop (n + 1) := by
    have hget : c.entries[n] = marker := (List.getElem?_eq_some_iff.1 hn).2
    rw [← hget, ← List.drop_eq_getElem_cons hlt, List.take_append_drop]
  have hnone : (c.entries.drop (n + 1)).count marker = 0 := by
    refine List.count_eq_zero.2 fun hmem => ?_
    obtain ⟨i, hi⟩ := List.mem_iff_getElem?.1 hmem
    rw [List.getElem?_drop] at hi
    exact habove _ (by omega) hi
  have hexit := Ledger.exit_innermost (c.entries.take n) (c.entries.drop (n + 1)) c.moved hnone
  rwa [← hsplit] at hexit

/-- Releasing a pointer takes a marker only for a pointer that looks like one. -/
theorem release_sameMarkers :
    c.SameMarkers (c.release p) ↔ ¬ (p = marker ∧ c.entries.getLast? = some marker) := by
  by_cases hlast : c.entries.getLast? = some p
  · obtain ⟨es, hes⟩ := List.getLast?_eq_some_iff.1 hlast
    have hreleased : (c.release p).entries = es := by
      rw [release, if_pos hlast, hes, List.dropLast_concat]
    have hbad : p = marker ∧ c.entries.getLast? = some marker ↔ p = marker := by
      refine and_iff_left_of_imp fun hp => ?_
      rw [hlast, hp]
    rw [hbad]
    constructor
    · intro hsame hp
      have htop := (hsame es.length).2 (by simp [hes, hp])
      simp [hreleased] at htop
    · intro hp n
      rw [hreleased, hes, List.getElem?_append]
      split
      · rfl
      · rename_i hn
        rw [List.getElem?_eq_none (by omega), List.getElem?_singleton]
        split <;> simp [hp]
  · have hsame : (c.release p).entries = c.entries := by rw [release, if_neg hlast]
    refine iff_of_true (fun n => by rw [hsame]) ?_
    rintro ⟨rfl, hmarker⟩
    exact hlast hmarker

/-- So does collecting one. -/
theorem collect_sameMarkers :
    c.SameMarkers (c.collect p) ↔ ¬ (p = marker ∧ marker ∈ c.entries) := by
  by_cases hmem : p ∈ c.entries
  · obtain ⟨rest, es, hsplit, hrest⟩ := List.eq_append_cons_of_mem (List.mem_reverse.2 hmem)
    have hentries : c.entries = es.reverse ++ p :: rest.reverse := by
      rw [← List.reverse_inj, hsplit]
      simp
    have hcollected : (c.collect p).entries = c.entries.set es.reverse.length 0#64 := by
      rw [collect_found hentries (by simpa using hrest)]
    have hbad : p = marker ∧ marker ∈ c.entries ↔ p = marker :=
      and_iff_left_of_imp fun hp => hp ▸ hmem
    have hfound : c.entries[es.reverse.length]? = some p := by simp [hentries]
    have hlt := (List.getElem?_eq_some_iff.1 hfound).1
    have hzero : 0#64 ≠ marker := by decide
    rw [hbad]
    constructor
    · intro hsame hp
      have hcleared := (hsame es.reverse.length).2 (hp ▸ hfound)
      rw [hcollected, List.getElem?_set_self hlt] at hcleared
      exact hzero (Option.some.inj hcleared)
    · intro hp n
      rw [hcollected]
      by_cases hn : es.reverse.length = n
      · rw [← hn, List.getElem?_set_self hlt, hfound]
        simp [hp, hzero]
      · rw [List.getElem?_set_ne hn]
  · refine iff_of_true (fun n => by rw [collect_missing hmem]) ?_
    rintro ⟨rfl, hmarker⟩
    exact hmem hmarker

end RegionCompiler.Collector.Regions

namespace RegionCompiler.Machine.Process

open Collector

variable {w : Process} {k : Int} {j : Nat} {e s : State} {c : Regions}

theorem mark_of_position {code : Code} {t : Target} {j : Nat} (h : positionOf code t = some j) :
    ∃ instr, code[j]? = some instr ∧ instr.mark? = some t := by
  obtain ⟨hlt, hmark, -⟩ := List.findIdx?_eq_some_iff_getElem.1 h
  exact ⟨code[j], List.getElem?_eq_getElem hlt, by simpa using hmark⟩

theorem holds_of_ends {r : Collector.Routine} (h : w.Ends r k e c j s)
    (hret : w.image.code[j]? = some .ret) :
    w.Holds s.memory s.blocks (r.apply (e.registers .rax) c) := by
  rcases h with ⟨-, hdone⟩ | hrefused | ⟨-, -, -, -, -, -, -, hcall, -⟩
  · exact hdone.holds
  · obtain ⟨instr, hinstr, hmark⟩ := mark_of_position hrefused.trap
    rw [hret] at hinstr
    cases hinstr
    cases hmark
  · rw [hret] at hcall
    cases hcall

theorem release_returns (w : Process) (hc : w.Holds e.memory e.blocks c) : ∃ start,
    positionOf w.image.code (.symbol releaseSymbol) = some start ∧
      w.image.Arrives start e fun j s => w.image.code[j]? = some .ret ∧
        w.Holds s.memory s.blocks (c.release (e.registers .rax)) := by
  obtain ⟨start, hstart, hsits⟩ := w.routine_start .release
  refine ⟨start, hstart, (release_arrives (k := 0) hc hsits).mono fun j s hends => ?_⟩
  rcases hends with ⟨hret, hdone⟩ | hrefused | ⟨done, p, rest, -, hfreed, -⟩
  · exact ⟨hret, hdone.holds⟩
  · have hgrows := hrefused.grows
    simp [grows, Collector.Routine.appends] at hgrows
  · simp [Collector.Routine.freed] at hfreed

theorem collect_frees (hentered : w.Entered 40 k e) (hc : w.Holds e.memory e.blocks c)
    {start : Nat} (hsits : Sits w.image.code start (Collector.Routine.collect.code w.platform)) :
    w.image.Arrives start e fun j s => w.image.code[j]? = some (.call "free") ∧
      argument w.platform s.registers 0 = e.registers .rax ∧
      w.Holds s.memory s.blocks (c.collect (e.registers .rax)) := by
  refine collect_clears hentered hc hsits fun i s hfree hs hcs hrax => ?_
  refine .straight hfree.left (t := s.set .r10 (e.registers .rax)) (by simp [hrax]) ?_
  have hcalling : w.Calling (k - 8) (s.set .r10 (e.registers .rax)) :=
    Freeing.calling (hs.of_eq rfl rfl rfl rfl rfl) hentered (Nat.le_refl 40) hcs.sound
  refine (free_reaches hfree.right.left hcalling).mono fun j s' hreached => ?_
  obtain ⟨hcall, hready⟩ := hreached
  refine ⟨hcall, hready.first, ?_⟩
  rw [hready.memory, hready.blocks]
  exact hcs

/-- Releasing and collecting leave the markers as they are, whatever the pointer, unless it has the
value of a marker and is taken for one: `release` takes it for the newest entry, `collect` for any.
As long as the markers are as they were, the next `exit` takes just the innermost frame. -/
theorem markers_kept_iff (w : Process) {k : Int} {e : State} {c : Regions}
    (hentered : w.Entered 72 k e) (hc : w.Holds e.memory e.blocks c) :
    (∃ start, positionOf w.image.code (.symbol releaseSymbol) = some start ∧
      w.image.Arrives start e fun j s => w.image.code[j]? = some .ret ∧
        w.Holds s.memory s.blocks (c.release (e.registers .rax))) ∧
    (c.SameMarkers (c.release (e.registers .rax)) ↔
      ¬ (e.registers .rax = Regions.marker ∧ c.entries.getLast? = some Regions.marker)) ∧
    (∃ start, positionOf w.image.code (.symbol collectSymbol) = some start ∧
      (w.image.Arrives start e fun j s => w.image.code[j]? = some (.call "free") ∧
        argument w.platform s.registers 0 = e.registers .rax ∧
        w.Holds s.memory s.blocks (c.collect (e.registers .rax))) ∧
      w.image.Arrives start e fun j s => w.Ends .collect k e c j s ∧
        (w.image.code[j]? = some .ret →
          w.Holds s.memory s.blocks (c.collect (e.registers .rax)))) ∧
    (c.SameMarkers (c.collect (e.registers .rax)) ↔
      ¬ (e.registers .rax = Regions.marker ∧ Regions.marker ∈ c.entries)) ∧
    ∀ c', c.SameMarkers c' → ∀ n, c.Innermost n → ∀ k' e', w.Entered 72 k' e' →
      w.Holds e'.memory e'.blocks c' →
      ∃ start, positionOf w.image.code (.symbol exitSymbol) = some start ∧
        w.image.Arrives start e' fun j s => w.Ends .exit k' e' c' j s ∧
          (w.image.code[j]? = some .ret →
            w.Holds s.memory s.blocks ⟨c'.entries.take n, c'.moved⟩) := by
  refine ⟨w.release_returns hc, Regions.release_sameMarkers, ?_, Regions.collect_sameMarkers, ?_⟩
  · obtain ⟨start, hstart, hsits⟩ := w.routine_start .collect
    have hends := routine_arrives hentered hc hsits
    exact ⟨start, hstart, collect_frees (hentered.mono (by decide)) hc hsits,
      hends.mono fun j s h => ⟨h, holds_of_ends h⟩⟩
  · intro c' hsame n hn k' e' hentered' hc'
    obtain ⟨start, hstart, hends⟩ := w.routine_refines .exit hentered' hc'
    refine ⟨start, hstart, hends.mono fun j s h => ⟨h, fun hret => ?_⟩⟩
    rw [← Regions.exit_of_innermost (hsame.innermost hn)]
    exact holds_of_ends h hret

end RegionCompiler.Machine.Process

namespace RegionCompiler.Machine.Loading

open Collector Process

/-- Two frames are open, the outer one with a block in it. -/
def nested (p : Word) : State :=
  ((handingOver 3 8 0#64).put (slot 0x1000000#64 2) Regions.marker).set .rax p

def nestedRegions : Regions := ⟨[Regions.marker, firstBlock, Regions.marker], 0#64⟩

theorem nested_entered (p : Word) : bare.Entered 72 0x7ff8 (nested p) where
  rsp := rfl
  aligned := by decide
  room := by
    change (0 : Int) + 0 + 72 ≤ 0x7ff8
    decide
  high := by
    change (0x7ff8 : Int) + 8 ≤ 0x10000
    decide

theorem nested_holds (p : Word) :
    bare.Holds (nested p).memory (nested p).blocks nestedRegions := by
  have hholds : bare.Holds (handingOver 3 8 0#64).memory (handingOver 3 8 0#64).blocks
      ⟨[Regions.marker, firstBlock, secondBlock], 0#64⟩ :=
    holds_handingOver rfl (Nat.le_refl 3)
  have hcell : bare.cell .entries = BitVec.ofNat 64 (cellAddress .entries) := rfl
  have hdata : bare.data (handingOver 3 8 0#64).memory = 0x1000000#64 := by
    rw [Process.data, hcell]
    exact word_handingOver (by simp [cellAddress])
  have hput := hholds.put_slot (n := 2) (by decide) Regions.marker
  rw [hdata] at hput
  exact hput

/-- A foreign function may give what looks like a marker. Its release closes the inner frame, so
that the next exit frees a block of the outer one. -/
theorem marker_released : ∃ c', (∃ start,
    positionOf bare.image.code (.symbol releaseSymbol) = some start ∧
      bare.image.Arrives start (nested Regions.marker) fun j s =>
        bare.image.code[j]? = some .ret ∧ bare.Holds s.memory s.blocks c') ∧
    bare.Entered 72 0x7ff8 (nested Regions.marker) ∧
    bare.Holds (nested Regions.marker).memory (nested Regions.marker).blocks nestedRegions ∧
    ¬ nestedRegions.SameMarkers c' ∧ nestedRegions.garbage = [] ∧ c'.garbage = [firstBlock] := by
  refine ⟨_, bare.release_returns (nested_holds Regions.marker), nested_entered _, nested_holds _,
    ?_, by decide, by decide⟩
  rw [Regions.release_sameMarkers, not_not]
  exact ⟨rfl, rfl⟩

/-- A block of the outer frame is collected, and the inner frame stays open. -/
theorem markers_kept_outer :
    bare.Entered 72 0x7ff8 (nested firstBlock) ∧
    (∃ start, positionOf bare.image.code (.symbol collectSymbol) = some start ∧
      bare.image.Arrives start (nested firstBlock) fun j s =>
        bare.image.code[j]? = some (.call "free") ∧
          argument bare.platform s.registers 0 = firstBlock ∧
          bare.Holds s.memory s.blocks ⟨[Regions.marker, 0#64, Regions.marker], 0#64⟩) ∧
    nestedRegions.SameMarkers (nestedRegions.collect firstBlock) ∧ nestedRegions.Innermost 2 ∧
    ∃ start, positionOf bare.image.code (.symbol exitSymbol) = some start ∧
      bare.image.Arrives start (nested firstBlock) fun j s =>
        bare.Ends .exit 0x7ff8 (nested firstBlock) nestedRegions j s ∧
          (bare.image.code[j]? = some .ret →
            bare.Holds s.memory s.blocks ⟨[Regions.marker, firstBlock], 0#64⟩) := by
  obtain ⟨-, -, ⟨start, hstart, hfrees, -⟩, hsame, hexit⟩ :=
    bare.markers_kept_iff (nested_entered firstBlock) (nested_holds firstBlock)
  have hinnermost : nestedRegions.Innermost 2 := by
    refine ⟨rfl, fun i hi hmarker => ?_⟩
    have hlt : i < 3 := (List.getElem?_eq_some_iff.1 hmarker).1
    omega
  exact ⟨nested_entered firstBlock, ⟨start, hstart, hfrees⟩,
    hsame.2 (by rintro ⟨hp, -⟩; exact absurd hp (by decide)), hinnermost,
    hexit nestedRegions (fun _ => Iff.rfl) 2 hinnermost _ _ (nested_entered firstBlock)
      (nested_holds firstBlock)⟩

end RegionCompiler.Machine.Loading
