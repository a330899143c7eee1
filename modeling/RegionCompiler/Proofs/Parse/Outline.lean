import Mathlib.Computability.Language
import RegionCompiler.Token

/-! Outlines: which part of a text every node of a tree takes up. A tree is laid out over tokens in
phrases. A phrase knows the lists of tokens that it may be read from and the nodes in it, and
carries the proof that these stand there one behind the other; a tree built of phrases need not
prove it. -/
namespace RegionCompiler

/-- A node's span, and the nodes inside it in the order of the text. -/
inductive Outline
  | mk (span : Span) (inner : List Outline)

namespace Outline

def span : Outline → Span
  | mk span _ => span

/-- The nodes follow each other in the text and do not overlap. -/
def InOrder (es : List Outline) : Prop :=
  es.Pairwise fun e f => e.span.stop.offset ≤ f.span.start.offset

/-- The node does not end before it starts, and the nodes inside it lie within it and follow each
other; the same holds for each of these. -/
inductive Proper : Outline → Prop
  | mk {span : Span} {inner : List Outline} (forward : span.start.offset ≤ span.stop.offset)
      (proper : ∀ e ∈ inner, e.Proper)
      (within : ∀ e ∈ inner, span.start.offset ≤ e.span.start.offset ∧
        e.span.stop.offset ≤ span.stop.offset)
      (inOrder : InOrder inner) : Proper ⟨span, inner⟩

theorem Proper.forward {e : Outline} (h : e.Proper) : e.span.start.offset ≤ e.span.stop.offset := by
  cases h with
  | mk forward => exact forward

/-- Proper nodes that follow each other between two offsets. -/
structure Laid (low high : Nat) (es : List Outline) : Prop where
  proper : ∀ e ∈ es, e.Proper
  within : ∀ e ∈ es, low ≤ e.span.start.offset ∧ e.span.stop.offset ≤ high
  inOrder : InOrder es

namespace Laid

variable {low high : Nat} {e : Outline} {es : List Outline}

theorem nil : Laid low high [] := ⟨nofun, nofun, .nil⟩

theorem mono {lower higher : Nat} (h : Laid low high es) (hlow : lower ≤ low)
    (hhigh : high ≤ higher) : Laid lower higher es :=
  ⟨h.proper, fun e he => ⟨hlow.trans (h.within e he).1, (h.within e he).2.trans hhigh⟩, h.inOrder⟩

theorem cons (he : e.Proper) (hlow : low ≤ e.span.start.offset) (hhigh : e.span.stop.offset ≤ high)
    (h : Laid e.span.stop.offset high es) : Laid low high (e :: es) := by
  have hlater : Laid low high es := h.mono (hlow.trans he.forward) (Nat.le_refl _)
  exact ⟨List.forall_mem_cons.2 ⟨he, h.proper⟩,
    List.forall_mem_cons.2 ⟨⟨hlow, hhigh⟩, hlater.within⟩,
    .cons (fun f hf => (h.within f hf).1) h.inOrder⟩

end Laid

end Outline

/-- The span from the start of the first of some tokens to the end of the last one. -/
def Span.Exact (span : Span) (ts : List Token) : Prop :=
  ∃ first last, ts.head? = some first ∧ ts.getLast? = some last ∧ span = ⟨first.start, last.stop⟩

namespace Token

/-- The tokens stand one behind the other. -/
structure Ascending (ts : List Token) : Prop where
  forward : ∀ t ∈ ts, t.start.offset ≤ t.stop.offset
  ordered : ts.Pairwise fun s t => s.stop.offset ≤ t.start.offset

namespace Ascending

variable {t : Token} {us ts : List Token}

theorem append_iff : Ascending (us ++ ts) ↔
    Ascending us ∧ Ascending ts ∧ ∀ u ∈ us, ∀ t ∈ ts, u.stop.offset ≤ t.start.offset := by
  refine ⟨fun h => ?_, fun ⟨hus, hts, hacross⟩ => ⟨?_, List.pairwise_append.2 ?_⟩⟩
  · obtain ⟨hus, hts, hacross⟩ := List.pairwise_append.1 h.ordered
    obtain ⟨hforward, hforward'⟩ := List.forall_mem_append.1 h.forward
    exact ⟨⟨hforward, hus⟩, ⟨hforward', hts⟩, hacross⟩
  · exact List.forall_mem_append.2 ⟨hus.forward, hts.forward⟩
  · exact ⟨hus.ordered, hts.ordered, hacross⟩

theorem within (h : Ascending ts) {span : Span} (hspan : span.Exact ts) :
    ∀ t ∈ ts, span.start.offset ≤ t.start.offset ∧ t.stop.offset ≤ span.stop.offset := by
  obtain ⟨first, last, hfirst, hlast, rfl⟩ := hspan
  intro t ht
  obtain ⟨more, rfl⟩ := List.head?_eq_some_iff.1 hfirst
  obtain ⟨lead, hlead⟩ := List.getLast?_eq_some_iff.1 hlast
  have hfront : first.start.offset ≤ t.start.offset := by
    rcases List.mem_cons.1 ht with rfl | hmore
    · exact Nat.le_refl _
    · exact (h.forward first (by simp)).trans ((List.pairwise_cons.1 h.ordered).1 t hmore)
  refine ⟨hfront, ?_⟩
  rw [hlead] at h ht
  obtain ⟨hlead', hone, hacross⟩ := append_iff.1 h
  rcases List.mem_append.1 ht with ht | ht
  · exact (hacross t ht last (by simp)).trans (hone.forward last (by simp))
  · obtain rfl := List.mem_singleton.1 ht
    exact Nat.le_refl _

end Ascending

end Token

namespace Outline

/-- The nodes stand on the tokens, one behind the other and perhaps with tokens between them. A node
without tokens stands at the end of the token before it. -/
inductive Spread : List Outline → List Token → Prop
  | nil : Spread [] []
  | skip {es : List Outline} {ts : List Token} (t : Token) : Spread es ts → Spread es (t :: ts)
  | empty {es : List Outline} {ts : List Token} (t : Token) : Spread es ts →
      Spread (⟨t.span.after, []⟩ :: es) (t :: ts)
  | node {span : Span} {inner es : List Outline} {us ts : List Token} : span.Exact us →
      Spread inner us → Spread es ts → Spread (⟨span, inner⟩ :: es) (us ++ ts)

namespace Spread

variable {es fs : List Outline} {us ts : List Token}

theorem gap (ts : List Token) : Spread [] ts := by
  induction ts with
  | nil => exact .nil
  | cons t ts ih => exact .skip t ih

theorem append (h : Spread es us) (hts : Spread fs ts) : Spread (es ++ fs) (us ++ ts) := by
  induction h with
  | nil => exact hts
  | skip t _ ih => exact .skip t ih
  | empty t _ ih => exact .empty t ih
  | node hspan hinner _ _ ih =>
    rw [List.append_assoc]
    exact .node hspan hinner ih

theorem laid (h : Spread es ts) (hts : Token.Ascending ts) {low high : Nat}
    (hbounds : ∀ t ∈ ts, low ≤ t.start.offset ∧ t.stop.offset ≤ high) : Laid low high es := by
  induction h generalizing low high with
  | nil => exact .nil
  | skip t _ ih =>
    obtain ⟨-, hts, -⟩ := Token.Ascending.append_iff.1 (List.singleton_append ▸ hts)
    exact ih hts (List.forall_mem_cons.1 hbounds).2
  | @empty es ts t _ ih =>
    obtain ⟨hone, hts, hacross⟩ := Token.Ascending.append_iff.1 (List.singleton_append ▸ hts)
    obtain ⟨hbound, hbounds⟩ := List.forall_mem_cons.1 hbounds
    have hforward : t.start.offset ≤ t.stop.offset := hone.forward t (by simp)
    refine .cons (.mk (Nat.le_refl _) nofun nofun .nil) (hbound.1.trans hforward) hbound.2 ?_
    exact ih hts fun s hs => ⟨hacross t (by simp) s hs, (hbounds s hs).2⟩
  | @node span inner es us ts hspan _ _ ihinner ih =>
    obtain ⟨hus, hts, hacross⟩ := Token.Ascending.append_iff.1 hts
    obtain ⟨hbound, hbounds⟩ := List.forall_mem_append.1 hbounds
    have hwithin := hus.within hspan
    have hlaid : Laid span.start.offset span.stop.offset inner := ihinner hus hwithin
    obtain ⟨first, last, hfirst, hlast, rfl⟩ := hspan
    have hfirst := List.mem_of_head? hfirst
    have hlast := List.mem_of_getLast? hlast
    have hforward : first.start.offset ≤ last.stop.offset :=
      (hus.forward first hfirst).trans (hwithin first hfirst).2
    refine .cons (.mk hforward hlaid.proper hlaid.within hlaid.inOrder) (hbound first hfirst).1
      (hbound last hlast).2 ?_
    exact ih hts fun t ht => ⟨hacross last hlast t ht, (hbounds t ht).2⟩

end Spread

end Outline

/-- A part of a tree: the lists of tokens that it may be read from, and the nodes in it. -/
structure Phrase where
  tokens : Language Token
  outlines : List Outline
  spread : ∀ ts ∈ tokens, Outline.Spread outlines ts

namespace Phrase

open Token (Kind)

/-- Tokens in which no node stands. -/
def gap (tokens : Language Token) : Phrase :=
  ⟨tokens, [], fun ts _ => .gap ts⟩

/-- A token. -/
def one (fits : Kind → Prop) : Phrase :=
  gap {ts | ∃ t : Token, ts = [t] ∧ fits t.kind}

def token (kind : Kind) : Phrase := one (· = kind)

def mark (mark : Punctuator) : Phrase := token (.punctuator mark)

def word (word : Keyword) : Phrase := token (.keyword word)

theorem spread_prod (ps : List Phrase) :
    ∀ ts ∈ (ps.map tokens).prod, Outline.Spread (ps.flatMap outlines) ts := by
  induction ps with
  | nil =>
    intro ts hts
    obtain rfl : ts = [] := hts
    exact .nil
  | cons p ps ih =>
    intro ts hts
    obtain ⟨us, hus, vs, hvs, rfl⟩ := Language.mem_mul.1 hts
    exact (p.spread us hus).append (ih vs hvs)

/-- Phrases one behind the other. -/
def seq (ps : List Phrase) : Phrase :=
  ⟨(ps.map tokens).prod, ps.flatMap outlines, spread_prod ps⟩

theorem seq_append (ps qs : List Phrase) :
    (seq (ps ++ qs)).tokens = (seq ps).tokens * (seq qs).tokens := by
  simp [seq]

/-- A node that takes up exactly the tokens of its phrases. -/
def node (span : Span) (ps : List Phrase) : Phrase where
  tokens := {ts | ts ∈ (seq ps).tokens ∧ span.Exact ts}
  outlines := [⟨span, (seq ps).outlines⟩]
  spread ts h := by
    have hnode := Outline.Spread.node h.2 ((seq ps).spread ts h.1) .nil
    rwa [List.append_nil] at hnode

/-- One of two ways to read the same nodes. -/
def either (p : Phrase) (others : Language Token)
    (h : ∀ ts ∈ others, Outline.Spread p.outlines ts) : Phrase :=
  ⟨p.tokens + others, p.outlines, fun ts hts => hts.elim (p.spread ts) (h ts)⟩

/-- Phrases with a comma between any two of them. -/
def separated : List Phrase → List Phrase
  | [] => []
  | [p] => [p]
  | p :: q :: ps => p :: mark .comma :: separated (q :: ps)

/-- As `separated`, but a comma may also follow the last phrase. -/
def trailing : List Phrase → List Phrase
  | [] => []
  | [p] => [p, gap (1 + (mark .comma).tokens)]
  | p :: q :: ps => p :: mark .comma :: trailing (q :: ps)

end Phrase

end RegionCompiler
