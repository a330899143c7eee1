import RegionCompiler.Proofs.Parse.Exact.Program

/-! Where a program declares its names. Every declared name is one token, so the names of the
functions stand in the order of the text, and so do those of the foreign functions, the embeds, the
records, and the parameters, locals and iterators of all functions together. -/
namespace RegionCompiler

open Phrase

/-- One part of a text ends before another one, which starts later. -/
structure Span.Precedes (s t : Span) : Prop where
  apart : s.stop.offset ≤ t.start.offset
  earlier : s.start.offset < t.start.offset

namespace Phrase

/-- Whatever the phrase is read from has tokens at these places, in this order. -/
def Shows (p : Phrase) (sites : List Span) : Prop :=
  ∀ ts ∈ p.tokens, sites.Sublist (ts.map Token.span)

namespace Shows

variable {p : Phrase} {ps qs : List Phrase} {sites others : List Span}

theorem none (p : Phrase) : p.Shows [] :=
  fun _ _ => List.nil_sublist _

theorem cons (h : p.Shows sites) (hrest : (seq ps).Shows others) :
    (seq (p :: ps)).Shows (sites ++ others) := by
  intro ts hts
  obtain ⟨us, hus, vs, hvs, rfl⟩ := Language.mem_mul.1 hts
  rw [List.map_append]
  exact (h us hus).append (hrest vs hvs)

theorem one (h : p.Shows sites) : (seq (p :: ps)).Shows sites := by
  simpa using h.cons (.none (seq ps))

theorem skip (h : (seq ps).Shows sites) : (seq (p :: ps)).Shows sites :=
  (none p).cons h

theorem append (h : (seq ps).Shows sites) (hrest : (seq qs).Shows others) :
    (seq (ps ++ qs)).Shows (sites ++ others) := by
  intro ts hts
  rw [seq_append] at hts
  obtain ⟨us, hus, vs, hvs, rfl⟩ := Language.mem_mul.1 hts
  rw [List.map_append]
  exact (h us hus).append (hrest vs hvs)

theorem node (h : (seq ps).Shows sites) (span : Span) : (Phrase.node span ps).Shows sites :=
  fun ts hts => h ts hts.1

theorem body (h : (seq ps).Shows sites) : (Phrase.body ps).Shows sites := by
  rintro ts (hts | hts)
  · have hbraces : (seq (mark .leftBrace :: ps ++ [mark .rightBrace])).Shows (sites ++ []) :=
      (skip h).append (none _)
    rw [List.append_nil] at hbraces
    exact hbraces ts hts
  · exact h ts hts.1

theorem separated {α : Type} {l : List α} {view : α → Phrase} {site : α → Span}
    (h : ∀ a, (view a).Shows [site a]) :
    (seq (Phrase.separated (l.map view))).Shows (l.map site) := by
  induction l with
  | nil => exact .none _
  | cons a rest ih =>
    cases rest with
    | nil => exact (h a).one
    | cons b rest => exact (h a).cons (.skip ih)

end Shows

end Phrase

theorem Located.namePhrase_shows (x : Located String) : x.namePhrase.Shows [x.span] := by
  rintro ts ⟨⟨us, hus, vs, hvs, rfl⟩, hspan⟩
  obtain ⟨t, rfl, -⟩ := hus
  obtain rfl : vs = [] := hvs
  obtain ⟨first, last, hfirst, hlast, hspan⟩ := hspan
  cases hfirst
  cases hlast
  rw [hspan]
  exact List.Sublist.refl _

mutual
/-- The places of the names that a statement declares. -/
def Stmt.sites : Stmt → List Span
  | .let_ _ _ _ name _ _ => [name.span]
  | .if_ _ _ yes => yes.sites
  | .ifElse _ _ yes no => yes.sites ++ no.sites
  | .while_ _ _ body | .doWhile _ body _ | .block _ body => body.sites
  | .for_ _ iterator _ _ body _ => iterator.span :: body.sites
  | .mut_ .. | .call .. | .collect .. | .return_ .. | .break_ .. | .continue_ .. => []

def Stmt.allSites : List Stmt → List Span
  | [] => []
  | s :: rest => s.sites ++ Stmt.allSites rest

def Block.sites : Block → List Span
  | .mk _ _ statements => Stmt.allSites statements
end

mutual
theorem Stmt.phrase_shows : (s : Stmt) → s.phrase.Shows s.sites
  | .let_ _ _ _ name _ _ => .node (.skip (.skip (.one name.namePhrase_shows))) _
  | .if_ _ _ yes => .node (.skip (.skip (.one yes.phrase_shows))) _
  | .ifElse _ _ yes no =>
    .node (.skip (.skip (.cons yes.phrase_shows (.skip (.one no.phrase_shows))))) _
  | .while_ _ _ body => .node (.skip (.skip (.one body.phrase_shows))) _
  | .doWhile _ body _ => .node (.skip (.one body.phrase_shows)) _
  | .for_ _ iterator _ _ body _ =>
    .node (.skip (.cons iterator.namePhrase_shows
      (.skip (.skip (.skip (.skip (.one body.phrase_shows))))))) _
  | .block _ body => .node (.one body.phrase_shows) _
  | .mut_ .. | .call .. | .collect .. | .return_ .. | .break_ .. | .continue_ .. => .none _

theorem Stmt.phrases_show : (ss : List Stmt) → (seq (Stmt.phrases ss)).Shows (Stmt.allSites ss)
  | [] => .none _
  | s :: rest => .cons s.phrase_shows (Stmt.phrases_show rest)

theorem Block.phrase_shows : (b : Block) → b.phrase.Shows b.sites
  | .mk _ _ statements =>
    .node (.append (.none _) (.one (.body (Stmt.phrases_show statements)))) _
end

/-- The places of the parameters, locals and iterators. -/
def Function.sites (f : Function) : List Span :=
  f.parameters.map (·.name.span) ++ f.body.sites

theorem Function.phrase_shows (f : Function) : f.phrase.Shows (f.name.span :: f.sites) := by
  have hparameters : (seq (separated (f.parameters.map Parameter.phrase))).Shows
      (f.parameters.map (·.name.span)) :=
    .separated fun p => .skip (.one p.name.namePhrase_shows)
  have hbody : (seq [f.result.resultPhrase, f.body.phrase]).Shows f.body.sites :=
    .skip (.one f.body.phrase_shows)
  exact .node (.skip (.cons f.name.namePhrase_shows (.skip (hparameters.append hbody)))) _

/-- The declared names of each kind stand in the order of the text. -/
structure Program.InOrder (p : Program) : Prop where
  functions : (p.functions.map (·.name.span)).Pairwise Span.Precedes
  foreign : (p.foreign.map (·.name.span)).Pairwise Span.Precedes
  embeds : (p.embeds.map (·.name.span)).Pairwise Span.Precedes
  records : (p.records.map (·.name.span)).Pairwise Span.Precedes
  bodies : (p.functions.flatMap Function.sites).Pairwise Span.Precedes

namespace Parse

theorem lex_inOrder (text : String) :
    ((Token.lex text).1.map Token.span).Pairwise Span.Precedes := by
  have htiling := Token.readAll_tiling [] text.toList
  rw [Location.behind_nil] at htiling
  refine List.pairwise_map.2 (htiling.ordered.imp_of_mem fun {s t} hs _ hordered => ?_)
  obtain ⟨lead, c, word, after, -, -, hstart, hstop⟩ := htiling.word s hs
  have hlong : s.start.offset < s.stop.offset := by
    rw [hstart, hstop]
    exact Location.offset_lt _ (List.cons_ne_nil c word)
  exact ⟨hordered, hlong.trans_le hordered⟩

theorem sites_inOrder (text : String) {α : Type} {kind : Declaration → Option α}
    {sites : α → List Span} (h : ∀ d a, kind d = some a → d.phrase.Shows (sites a)) :
    (((sourceDeclarations text).filterMap kind).flatMap sites).Pairwise Span.Precedes := by
  have hall (ds : List Declaration) :
      (seq (Declaration.phrases ds)).Shows ((ds.filterMap kind).flatMap sites) := by
    refine .skip ?_
    induction ds with
    | nil => exact .none _
    | cons d ds ih =>
      cases hd : kind d with
      | none =>
        rw [List.filterMap_cons_none hd]
        exact .skip (.skip ih)
      | some a =>
        rw [List.filterMap_cons_some hd]
        exact .cons (h d a hd) (.skip ih)
  exact (lex_inOrder text).sublist (hall _ _ (source_phrases text))

theorem source_inOrder (path text : String) : (source path text).program.InOrder := by
  rw [source_program]
  constructor
  case functions =>
    rw [List.map_eq_flatMap]
    refine sites_inOrder text fun d f hd => ?_
    cases d <;> cases hd
    exact .node (.skip (.one f.name.namePhrase_shows)) _
  case foreign =>
    rw [List.map_eq_flatMap]
    refine sites_inOrder text fun d f hd => ?_
    cases d <;> cases hd
    exact .node (.skip (.one f.name.namePhrase_shows)) _
  case embeds =>
    rw [List.map_eq_flatMap]
    refine sites_inOrder text fun d e hd => ?_
    cases d <;> cases hd
    exact .node (.skip (.skip (.skip (.one e.name.namePhrase_shows)))) _
  case records =>
    rw [List.map_eq_flatMap]
    refine sites_inOrder text fun d r hd => ?_
    cases d <;> cases hd
    exact .node (.skip (.one r.name.namePhrase_shows)) _
  case bodies =>
    refine sites_inOrder text fun d f hd => ?_
    cases d <;> cases hd
    exact fun ts hts => (List.sublist_cons_self _ _).trans (f.phrase_shows ts hts)

end Parse

end RegionCompiler
