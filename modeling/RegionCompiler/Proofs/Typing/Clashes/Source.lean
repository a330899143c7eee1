import RegionCompiler.Proofs.Layout.Duplicates
import RegionCompiler.Proofs.Parse.Tidy
import RegionCompiler.Proofs.Typing.Clashes.Order

/-! Reports that a name is taken, for a program that was read from a text. The declaration that has
the name stands earlier in the text, with three exceptions: symbols outside of functions are
declared kind by kind; a record that has to wait is refused for a later one that has not; and a
record cannot have the name of a built-in type. -/
namespace RegionCompiler

/-- The places of the names that a program declares, those of records apart. -/
def Program.sites (p : Program) : List Span :=
  p.functions.map (·.name.span) ++ p.foreign.map (·.name.span) ++ p.embeds.map (·.name.span) ++
    p.functions.flatMap Function.sites

/-- The order in which symbols outside of functions are declared. -/
def SymbolKind.phase : SymbolKind → Nat
  | .function => 0
  | .foreignFunction => 1
  | .embed => 2
  | .parameter | .local_ | .iterator => 3

/-- The symbol of a declaration that is known in all of the program. -/
def Declaration.symbol? : Declaration → Option Symbol
  | .function f => some (Typing.Function.symbol f)
  | .foreign f => some (Typing.ForeignFunction.symbol f)
  | .embed e => some (Typing.Embed.symbol e)
  | .record _ | .link _ => none

theorem Declaration.symbol?_shows {d : Declaration} {x : Symbol} (h : d.symbol? = some x) :
    d.phrase.Shows [x.span] := by
  cases d <;> cases h
  case function f => exact .node (.skip (.one f.name.namePhrase_shows)) _
  case foreign f => exact .node (.skip (.one f.name.namePhrase_shows)) _
  case embed e => exact .node (.skip (.skip (.skip (.one e.name.namePhrase_shows)))) _

namespace Typing

/-- The report on a record whose name others have. -/
def repeated (r : Record) (others : List Record) : Diagnostic :=
  ⟨r.name.span, .alreadyExists r.name.value,
    others.map fun s => ⟨s.name.span, .firstDeclared r.name.value⟩⟩

/-- A report that a name is taken, by a declaration that stands earlier. -/
inductive PointsBack (p : Program) : Diagnostic → Prop
  | symbol {x y : Symbol} : x.span ∈ p.sites → y.span ∈ p.sites → y.mangled = x.mangled →
      y.span.Precedes x.span → PointsBack p (taken x y)
  | record {r s : Record} : r ∈ p.records → s ∈ p.records → s.name.value = r.name.value →
      s.name.span.Precedes r.name.span → PointsBack p (repeated r [s])

/-- A report that a name is taken, by a declaration that stands later or by a built-in type. -/
inductive PointsAhead (p : Program) : Diagnostic → Prop
  /-- The other symbol is of a kind that is declared first. -/
  | kind {x y : Symbol} : x ∈ globals p → y ∈ globals p → y.mangled = x.mangled →
      y.kind.phase < x.kind.phase → x.span.Precedes y.span → PointsAhead p (taken x y)
  /-- The record had to wait, as it holds a type that is not built in. -/
  | waiting {r s : Record} : r ∈ p.records → s ∈ p.records → s.name.value = r.name.value →
      Registry.initial.isReady (recordShape r) = false → r.name.span.Precedes s.name.span →
      PointsAhead p (repeated r [s])
  /-- The name is that of a built-in type. -/
  | builtin {r : Record} {others : List Record} : r ∈ p.records →
      Registry.initial.contains r.name.value → (∀ s ∈ others, s ∈ p.records ∧
        s.name.value = r.name.value ∧ r.name.span.Precedes s.name.span) →
      PointsAhead p (repeated r others)

/-- A report that a name is taken. -/
def Clash (p : Program) (d : Diagnostic) : Prop := PointsBack p d ∨ PointsAhead p d

/-! ### Records -/

section Records

variable {records : List Record} {index : Nat} {r s : Record} {name : String}

def otherRecord (records : List Record) (index : Nat) (name : String) : Option Record :=
  (((List.range records.length).zip records).find? fun (i, s) =>
    i ≠ index && s.name.value == name).map Prod.snd

theorem recordDiagnostic_duplicate (records : List Record) (index : Nat) (r : Record) :
    recordDiagnostic records index r.name (.duplicateType r.name.value) =
      some (repeated r (otherRecord records index r.name.value).toList) := by
  rw [recordDiagnostic, repeated, otherRecord]
  dsimp only
  congr 2
  cases ((List.range records.length).zip records).find? fun (i, s) =>
    i ≠ index && s.name.value == r.name.value <;> rfl

theorem mem_zip_range_iff {i : Nat} :
    (i, s) ∈ (List.range records.length).zip records ↔ records[i]? = some s := by
  rw [List.mem_iff_getElem?]
  constructor
  · rintro ⟨n, hn⟩
    obtain ⟨hi, hs⟩ := List.getElem?_zip_eq_some.1 hn
    obtain ⟨hlt, rfl⟩ := List.getElem?_eq_some_iff.1 hi
    simpa using hs
  · intro hs
    obtain ⟨hlt, -⟩ := List.getElem?_eq_some_iff.1 hs
    exact ⟨i, List.getElem?_zip_eq_some.2 ⟨by simp [hlt], hs⟩⟩

theorem otherRecord_none (h : otherRecord records index name = none) {i : Nat}
    (hs : records[i]? = some s) (hname : s.name.value = name) : i = index := by
  have hnone := List.find?_eq_none.1 (Option.map_eq_none_iff.1 h) (i, s) (mem_zip_range_iff.2 hs)
  simpa [hname] using hnone

theorem otherRecord_some (h : otherRecord records index name = some r) :
    ∃ j, records[j]? = some r ∧ j ≠ index ∧ r.name.value = name ∧
      ∀ i s, records[i]? = some s → i ≠ index → s.name.value = name → j ≤ i := by
  obtain ⟨⟨j, _⟩, hfind, rfl⟩ := Option.map_eq_some_iff.1 h
  obtain ⟨hfits, n, hn, hget, hbefore⟩ := List.find?_eq_some_iff_getElem.1 hfind
  rw [List.getElem_zip, List.getElem_range] at hget
  obtain ⟨rfl, rfl⟩ := Prod.mk.inj hget
  simp only [Bool.and_eq_true, decide_eq_true_eq, beq_iff_eq] at hfits
  refine ⟨n, List.getElem?_eq_getElem _, hfits.1, hfits.2, fun i s hs hi hname => ?_⟩
  by_contra hlt
  obtain ⟨hlength, rfl⟩ := List.getElem?_eq_some_iff.1 hs
  have hskipped := hbefore i (by omega)
  simp [List.getElem_zip, hi, hname] at hskipped

theorem clash_record {p : Program} {d : Diagnostic}
    (horder : (p.records.map (·.name.span)).Pairwise Span.Precedes)
    (he : (index, .duplicateType name) ∈
      (Registry.initial.registerRecords (p.records.map recordShape)).2)
    (hr : p.records[index]? = some r)
    (hd : recordDiagnostic p.records index r.name (.duplicateType name) = some d) : Clash p d := by
  have hbefore {i j : Nat} {s t : Record} (hs : p.records[i]? = some s)
      (ht : p.records[j]? = some t) (hlt : i < j) : s.name.span.Precedes t.name.span := by
    obtain ⟨hi, rfl⟩ := List.getElem?_eq_some_iff.1 hs
    obtain ⟨hj, rfl⟩ := List.getElem?_eq_some_iff.1 ht
    exact List.pairwise_iff_getElem.1 (List.pairwise_map.1 horder) i j hi hj hlt
  have hmem {i : Nat} {s : Record} (hs : p.records[i]? = some s) : s ∈ p.records :=
    List.mem_of_getElem? hs
  obtain ⟨shape, hshape, hname, hcause⟩ := Registry.registerRecords_duplicate he
  rw [List.getElem?_map, hr] at hshape
  cases hshape
  obtain rfl : r.name.value = name := hname
  rw [recordDiagnostic_duplicate] at hd
  cases hd
  cases hother : otherRecord p.records index r.name.value with
  | none =>
    rcases hcause with hbuiltin | ⟨j, shape, hj, hname, hplace⟩
    · exact .inr (.builtin (hmem hr) hbuiltin nofun)
    · rw [List.getElem?_map] at hj
      obtain ⟨s, hs, rfl⟩ := Option.map_eq_some_iff.1 hj
      have hsame := otherRecord_none hother hs hname
      omega
  | some s =>
    obtain ⟨j, hj, hne, hname, hfirst⟩ := otherRecord_some hother
    rcases hne.lt_or_gt with hlt | hgt
    · exact .inl (.record (hmem hr) (hmem hj) hname (hbefore hj hr hlt))
    · have hlater : r.name.span.Precedes s.name.span := hbefore hr hj hgt
      rcases hcause with hbuiltin | ⟨k, shape, hk, hkname, hplace⟩
      · exact .inr (.builtin (hmem hr) hbuiltin
          (List.forall_mem_singleton.2 ⟨hmem hj, hname, hlater⟩))
      · rw [List.getElem?_map] at hk
        obtain ⟨t, ht, rfl⟩ := Option.map_eq_some_iff.1 hk
        have hle (hk : k ≠ index) : j ≤ k := hfirst k t ht hk hkname
        have hready : Registry.initial.isReady (recordShape r) = false := by grind
        exact .inr (.waiting (hmem hr) (hmem hj) hname hready hlater)

end Records

/-! ### Symbols outside of functions -/

section Globals

variable {p : Program} {x y : Symbol}

theorem span_mem_sites (h : x ∈ globals p) : x.span ∈ p.sites := by
  simp only [globals, List.mem_append, List.mem_map] at h
  simp only [Program.sites, List.mem_append, List.mem_map]
  rcases h with (⟨f, hf, rfl⟩ | ⟨f, hf, rfl⟩) | ⟨e, he, rfl⟩
  · exact .inl (.inl (.inl ⟨f, hf, rfl⟩))
  · exact .inl (.inl (.inr ⟨f, hf, rfl⟩))
  · exact .inl (.inr ⟨e, he, rfl⟩)

theorem mem_symbols_of_globals {path : String}
    {ds : List RegionCompiler.Declaration}
    (h : x ∈ globals (.ofDeclarations path ds)) : x ∈ ds.filterMap Declaration.symbol? := by
  simp only [globals, Program.ofDeclarations, List.mem_append, List.mem_map,
    List.mem_filterMap] at h
  rcases h with (⟨f, ⟨d, hd, hkind⟩, rfl⟩ | ⟨f, ⟨d, hd, hkind⟩, rfl⟩) | ⟨e, ⟨d, hd, hkind⟩, rfl⟩ <;>
    exact List.mem_filterMap.2 ⟨d, hd, by cases d <;> cases hkind; rfl⟩

/-- Any two symbols outside of functions have different places, whatever their kinds. -/
def Apart (p : Program) : Prop :=
  ∀ x ∈ globals p, ∀ y ∈ globals p, x ≠ y → x.span.Precedes y.span ∨ y.span.Precedes x.span

theorem source_apart (path text : String) : Apart (Parse.source path text).program := by
  intro x hx y hy hne
  have hordered : (((Parse.sourceDeclarations text).filterMap Declaration.symbol?).map
      Symbol.span).Pairwise Span.Precedes := by
    rw [List.map_eq_flatMap]
    exact Parse.sites_inOrder text fun d x hd => Declaration.symbol?_shows hd
  rw [List.pairwise_map] at hordered
  rw [Parse.source_program] at hx hy
  obtain ⟨i, hi, rfl⟩ := List.mem_iff_getElem.1 (mem_symbols_of_globals hx)
  obtain ⟨j, hj, rfl⟩ := List.mem_iff_getElem.1 (mem_symbols_of_globals hy)
  have hij : i ≠ j := by
    rintro rfl
    exact hne rfl
  exact hij.lt_or_gt.imp (List.pairwise_iff_getElem.1 hordered i j hi hj)
    (List.pairwise_iff_getElem.1 hordered j i hj hi)

end Globals

/-! ### Phases -/

section Phases

variable {p : Program} {α β : Type} {Q R : Symbol → Prop} {s s' : Progress}

/-- The symbols so far have a property, and names were found taken only as a `Clash` says. -/
structure Told (p : Program) (Q : Symbol → Prop) (s : Progress) : Prop where
  symbols : ∀ y ∈ s.symbols.symbols, Q y
  problems : ∀ d ∈ s.diagnostics, d.isClash → Clash p d

/-- A check after which the symbols have another property. -/
def Passes (p : Program) (Q R : Symbol → Prop) (m : Check α) : Prop :=
  Performs m fun s _ s' => Told p Q s → Told p R s'

theorem Passes.bind {m : Check α} {k : α → Check β} {T : Symbol → Prop} (hm : Passes p Q R m)
    (hk : ∀ a, Passes p R T (k a)) : Passes p Q T (m >>= k) :=
  fun s h => hk (m s).1 (m s).2 (hm s h)

theorem Passes.pure (a : α) : Passes p Q Q (pure a : Check α) :=
  fun _ h => h

theorem Inert.passes {m : Check α} (h : Inert (Clash p) m) : Passes p Q Q m := by
  intro s htold
  obtain ⟨hsymbols, ds, hds, hclash⟩ := h s
  refine ⟨hsymbols ▸ htold.symbols, ?_⟩
  rw [hds]
  exact List.forall_mem_append.2 ⟨htold.problems, hclash⟩

/-- Symbols that are declared in the order of the text clash with earlier ones, or with those that
were declared before. -/
theorem Enters.passes {m : Check α} {P : Symbol → Prop} {sites : List Span}
    (h : Enters P sites m) (horder : sites.Pairwise Span.Precedes) (hsites : sites ⊆ p.sites)
    (hcross : ∀ x y, P x → Q y → y.mangled = x.mangled → Clash p (taken x y))
    (hQ : ∀ y, Q y → R y) (hP : ∀ x, P x → R x) : Passes p Q R m := by
  intro s htold
  obtain ⟨⟨new, hsymbols, hnew⟩, ⟨ds, hds, hclash⟩⟩ := h s
  constructor
  · rw [hsymbols]
    exact List.forall_mem_append.2
      ⟨fun y hy => hQ y (htold.symbols y hy), fun x hx => hP x (hnew x hx).1⟩
  · rw [hds]
    refine List.forall_mem_append.2 ⟨htold.problems, fun d hd hclashes => ?_⟩
    obtain ⟨x, y, before, after, rfl, hx, hname, rfl, hy | ⟨hPy, hy⟩⟩ := hclash d hd hclashes
    · exact hcross x y hx (htold.symbols y hy) hname
    · have hprecedes : y.span.Precedes x.span :=
        (List.pairwise_append.1 horder).2.2 y.span hy x.span List.mem_cons_self
      exact .inl (.symbol (hsites (by simp)) (hsites (List.mem_append_left _ hy)) hname hprecedes)

/-- A symbol outside of functions, of one of the first kinds. -/
structure GlobalBelow (p : Program) (phase : Nat) (x : Symbol) : Prop where
  global : x ∈ globals p
  below : x.kind.phase < phase

theorem Enters.passes_global {m : Check α} {symbols : List Symbol} {sites : List Span} {phase : Nat}
    (h : Enters (· ∈ symbols) sites m) (horder : sites.Pairwise Span.Precedes)
    (hsites : sites ⊆ p.sites) (hapart : Apart p)
    (hsymbols : ∀ x ∈ symbols, x ∈ globals p ∧ x.kind.phase = phase) :
    Passes p (GlobalBelow p phase) (GlobalBelow p (phase + 1)) m := by
  refine h.passes horder hsites (fun x y hx hy hname => ?_) (fun y hy => ?_) fun x hx => ?_
  · obtain ⟨hglobal, rfl⟩ := hsymbols x hx
    have hne : x ≠ y := by
      rintro rfl
      exact Nat.lt_irrefl _ hy.below
    rcases hapart x hglobal y hy.global hne with hahead | hback
    · exact .inr (.kind hglobal hy.global hname hy.below hahead)
    · exact .inl (.symbol (span_mem_sites hglobal) (span_mem_sites hy.global) hname hback)
  · exact ⟨hy.global, Nat.lt_succ_of_lt hy.below⟩
  · obtain ⟨hglobal, hphase⟩ := hsymbols x hx
    exact ⟨hglobal, hphase ▸ Nat.lt_succ_self _⟩

theorem GlobalBelow.not_isScoped {phase : Nat} {y : Symbol} (h : GlobalBelow p phase y)
    (hp : p.Tidy) : ¬ IsScoped y := by
  have hglobal := h.global
  simp only [globals, List.mem_append, List.mem_map] at hglobal
  rcases hglobal with (⟨f, hf, rfl⟩ | ⟨f, hf, rfl⟩) | ⟨e, he, rfl⟩
  · exact (hp.functions f hf).name
  · exact (hp.foreign f hf).name
  · exact hp.embeds e he

theorem passes_checkDeclarations (ctx : Context) (isFile : String → Bool) (base : String)
    (hp : p.Tidy) (horder : p.InOrder) (hapart : Apart p) :
    Passes p (GlobalBelow p 0) (fun _ => True) (checkDeclarations ctx isFile base p
      (Registry.initial.registerRecords (p.records.map recordShape)).2) := by
  have hfunctions : Passes p (GlobalBelow p 0) (GlobalBelow p 1)
      (p.functions.forM (declareFunction ctx)) := by
    refine (enters_declareFunctions p.functions).passes_global horder.functions ?_ hapart
      fun x hx => ?_
    · exact fun s hs => by simp only [Program.sites, List.mem_append, hs, true_or]
    · obtain ⟨f, -, rfl⟩ := List.mem_map.1 hx
      exact ⟨List.mem_append_left _ (List.mem_append_left _ hx), rfl⟩
  have hforeign : Passes p (GlobalBelow p 1) (GlobalBelow p 2)
      (p.foreign.forM (declareForeign ctx)) := by
    refine (enters_declareForeigns p.foreign).passes_global horder.foreign ?_ hapart
      fun x hx => ?_
    · exact fun s hs => by simp only [Program.sites, List.mem_append, hs, true_or, or_true]
    · obtain ⟨f, -, rfl⟩ := List.mem_map.1 hx
      exact ⟨List.mem_append_left _ (List.mem_append_right _ hx), rfl⟩
  have hembeds : Passes p (GlobalBelow p 2) (GlobalBelow p 3)
      (p.embeds.mapM (declareEmbed isFile base)) := by
    refine (enters_declareEmbeds isFile base p.embeds).passes_global horder.embeds ?_ hapart
      fun x hx => ?_
    · exact fun s hs => by simp only [Program.sites, List.mem_append, hs, true_or, or_true]
    · obtain ⟨e, -, rfl⟩ := List.mem_map.1 hx
      exact ⟨List.mem_append_right _ hx, rfl⟩
  have hbodies : Passes p (GlobalBelow p 3) (fun _ => True)
      (p.functions.mapM (checkFunction ctx)) := by
    refine (Enters.mapM fun f _ => enters_checkFunction f).passes horder.bodies ?_
      (fun x y hx hy hname => ?_) (fun _ _ => trivial) fun _ _ => trivial
    · exact List.subset_append_right _ _
    · refine absurd ?_ (hy.not_isScoped hp)
      rwa [IsScoped, hname]
  have hrecords : Inert (Clash p) (checkRecords ctx p.records
      (Registry.initial.registerRecords (p.records.map recordShape)).2) :=
    inert_checkRecords _ _ fun index r name d he hr hd => clash_record horder.records he hr hd
  exact .bind hrecords.passes fun _ => .bind hfunctions fun _ => .bind hforeign fun _ =>
    .bind hembeds fun _ => .bind (inert_checkEntryPoint p.functions).passes fun _ =>
    .bind hbodies fun _ => .pure _

end Phases

/-- Every report that a name is taken, in the analysis of a program that was read from a text,
points at a declaration earlier in the text, or it is of one of the three forms that do not: of two
symbols outside of functions the later one has a kind that is declared first, of two records the
earlier one had to wait for a type, or the name is that of a built-in type. -/
theorem source_clashes (isFile : String → Bool) (base path text : String) :
    ∀ d ∈ (analyze isFile base .initial (Parse.source path text).program).2.diagnostics,
      d.isClash → PointsBack (Parse.source path text).program d ∨
        PointsAhead (Parse.source path text).program d := by
  have hpasses := passes_checkDeclarations (p := (Parse.source path text).program)
    ⟨(Registry.initial.registerRecords
        ((Parse.source path text).program.records.map recordShape)).1,
      Knowledge.initial.types ++ (Parse.source path text).program.records.map (·.name.value)⟩
    isFile base (Parse.source_program_tidy path text) (Parse.source_inOrder path text)
    (source_apart path text)
  exact (hpasses ⟨.empty, [], []⟩ ⟨nofun, nofun⟩).problems

/-- Where the reports that a name is taken start, and where their notes do. -/
def clashesOf (text : String) : List (Nat × List Nat) :=
  ((analyze (fun _ => false) "" .initial (Parse.source "main.bz" text).program).2.diagnostics.filter
    Diagnostic.isClash).map fun d =>
      (d.span.start.offset, d.related.map fun note => note.span.start.offset)

/-- A record that waits, and a later one of its name that does not. -/
def waitingRecord : String :=
  "type A \x7b B b \x7d type A \x7b int x \x7d type B \x7b int y \x7d fn main() \x7b \x7d"

theorem clashesOf_waitingRecord : clashesOf waitingRecord = [(5, [20])] := by
  decide +kernel

theorem source_clashes_waitingRecord :
    ∃ d ∈ (analyze (fun _ => false) "" .initial
        (Parse.source "main.bz" waitingRecord).program).2.diagnostics,
      d.isClash ∧ (PointsBack (Parse.source "main.bz" waitingRecord).program d ∨
        PointsAhead (Parse.source "main.bz" waitingRecord).program d) := by
  have hmem : (5, [20]) ∈ clashesOf waitingRecord := by
    rw [clashesOf_waitingRecord]
    exact List.mem_cons_self
  obtain ⟨d, hd, -⟩ := List.mem_map.1 hmem
  obtain ⟨hd, hclash⟩ := List.mem_filter.1 hd
  exact ⟨d, hd, hclash, source_clashes (fun _ => false) "" "main.bz" waitingRecord d hd hclash⟩

/-- The note stands behind the report. -/
theorem note_behind_report :
    ¬ ∀ clash ∈ clashesOf waitingRecord, ∀ note ∈ clash.2, note < clash.1 := by
  rw [clashesOf_waitingRecord]
  decide

end Typing

end RegionCompiler
