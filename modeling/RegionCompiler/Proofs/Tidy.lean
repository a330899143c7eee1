import RegionCompiler.Program
import RegionCompiler.Token.Lexer

/-! What every text that can be read guarantees about its names and types. Names hold no dollar,
the mark that mangled names put between scopes, and are not looked up yet; declared types are built
from a base by pointers and arrays alone. -/
namespace RegionCompiler

/-- A word that can be told from its neighbours in a mangled name. -/
def IsName (s : String) : Prop := '$' ∉ s.toList

/-- Types that a declaration can give to a value. -/
def Ty.IsData : Ty → Prop
  | .base _ => True
  | .pointer t | .array t _ => t.IsData
  | .invalid | .function _ _ _ _ => False

/-- A name that was read and not looked up yet. -/
structure Head.Tidy (h : Head) : Prop where
  name : IsName h.name.value
  ty : h.ty = none
  binding : h.binding = none

mutual
/-- Only names and converted types matter: literals are always tidy. -/
def Expr.Tidy : Expr → Prop
  | .integer _ _ | .float _ _ | .boolean _ _ | .string _ _ | .null _ => True
  | .variable _ head accessors => head.Tidy ∧ Accessor.AllTidy accessors
  | .parenthesized _ inner => inner.Tidy
  | .array _ elements => Expr.AllTidy elements
  | .allocation _ size => size.Tidy
  | .addressOf _ _ head accessors => head.Tidy ∧ Accessor.AllTidy accessors
  | .unary _ _ operand => operand.Tidy
  | .binary _ _ lhs rhs => lhs.Tidy ∧ rhs.Tidy
  | .conversion _ inner target => inner.Tidy ∧ target.value.IsData
  | .construct _ _ arguments => Argument.AllTidy arguments

def Expr.AllTidy : List Expr → Prop
  | [] => True
  | e :: rest => e.Tidy ∧ Expr.AllTidy rest

def Accessor.Tidy : Accessor → Prop
  | .call _ arguments => Expr.AllTidy arguments
  | .index _ position => position.Tidy
  | .dereference _ | .member _ _ => True

def Accessor.AllTidy : List Accessor → Prop
  | [] => True
  | a :: rest => a.Tidy ∧ Accessor.AllTidy rest

def Argument.Tidy : Argument → Prop
  | .mk _ value => value.Tidy

def Argument.AllTidy : List Argument → Prop
  | [] => True
  | a :: rest => a.Tidy ∧ Argument.AllTidy rest
end

attribute [local simp] Expr.Tidy Expr.AllTidy Accessor.Tidy Accessor.AllTidy Argument.Tidy
  Argument.AllTidy

theorem Expr.allTidy_iff {es : List Expr} : Expr.AllTidy es ↔ ∀ e ∈ es, e.Tidy := by
  induction es with
  | nil => simp
  | cons e es ih => simp [ih]

theorem Argument.allTidy_iff {as : List Argument} :
    Argument.AllTidy as ↔ ∀ a ∈ as, a.Tidy := by
  induction as with
  | nil => simp
  | cons a as ih => simp [ih]

def Place.Tidy (p : Place) : Prop := p.head.Tidy ∧ Accessor.AllTidy p.accessors

mutual
def Stmt.Tidy : Stmt → Prop
  | .let_ _ _ ty name value _ => ty.value.IsData ∧ IsName name.value ∧ value.Tidy
  | .mut_ _ target value => target.value.Tidy ∧ value.Tidy
  | .call _ value | .collect _ value => value.Tidy
  | .return_ _ (some value) => value.Tidy
  | .return_ _ none | .break_ _ | .continue_ _ => True
  | .if_ _ condition yes => condition.Tidy ∧ yes.Tidy
  | .ifElse _ condition yes no => condition.Tidy ∧ yes.Tidy ∧ no.Tidy
  | .while_ _ condition body | .doWhile _ body condition => condition.Tidy ∧ body.Tidy
  | .for_ _ iterator start stop body _ =>
    IsName iterator.value ∧ start.Tidy ∧ stop.Tidy ∧ body.Tidy
  | .block _ body => body.Tidy

def Stmt.AllTidy : List Stmt → Prop
  | [] => True
  | s :: rest => s.Tidy ∧ Stmt.AllTidy rest

def Block.Tidy : Block → Prop
  | .mk _ _ statements => Stmt.AllTidy statements
end

attribute [local simp] Stmt.Tidy Stmt.AllTidy Block.Tidy

structure Function.Tidy (f : Function) : Prop where
  name : IsName f.name.value
  parameters : ∀ p ∈ f.parameters, p.ty.value.IsData ∧ IsName p.name.value
  result : f.result.value.IsData
  body : f.body.Tidy

structure ForeignFunction.Tidy (f : ForeignFunction) : Prop where
  name : IsName f.name.value
  link : IsName f.linkName
  parameters : ∀ p ∈ f.parameters, ∀ t, p.ty? = some t → t.IsData
  result : f.result.value.IsData

def Record.Tidy (r : Record) : Prop := ∀ m ∈ r.members, m.ty.value.IsData

def Declaration.Tidy : Declaration → Prop
  | .function f => f.Tidy
  | .foreign f => f.Tidy
  | .record r => r.Tidy
  | .link _ => True
  | .embed e => IsName e.name.value

structure Program.Tidy (p : Program) : Prop where
  functions : ∀ f ∈ p.functions, f.Tidy
  foreign : ∀ f ∈ p.foreign, f.Tidy
  records : ∀ r ∈ p.records, r.Tidy
  embeds : ∀ e ∈ p.embeds, IsName e.name.value

theorem Program.tidy_ofDeclarations {path : String} {declarations : List Declaration}
    (h : ∀ d ∈ declarations, d.Tidy) : (Program.ofDeclarations path declarations).Tidy where
  functions := by
    intro f hf
    obtain ⟨d, hd, hdf⟩ := List.mem_filterMap.1 hf
    cases d <;> cases hdf
    exact h _ hd
  foreign := by
    intro f hf
    obtain ⟨d, hd, hdf⟩ := List.mem_filterMap.1 hf
    cases d <;> cases hdf
    exact h _ hd
  records := by
    intro r hr
    obtain ⟨d, hd, hdr⟩ := List.mem_filterMap.1 hr
    cases d <;> cases hdr
    exact h _ hd
  embeds := by
    intro e he
    obtain ⟨d, hd, hde⟩ := List.mem_filterMap.1 he
    cases d <;> cases hde
    exact h _ hd

namespace Token

def Kind.Tidy : Kind → Prop
  | .identifier name => IsName name
  | _ => True

theorem isName_of_isNameChar {cs : List Char} (h : ∀ c ∈ cs, isNameChar c) :
    IsName (String.ofList cs) := by
  intro hd
  have hc := h '$' (by simpa using hd)
  exact absurd hc (by decide)

theorem wordLexeme_kind_tidy (r : Reader) : (wordLexeme r).kind.Tidy := by
  unfold wordLexeme
  dsimp only
  split
  · split <;> trivial
  · trivial
  · exact isName_of_isNameChar (List.all_eq_true.1 List.all_takeWhile)

theorem lexeme_kind_tidy (start : Location) (c : Char) (rest : List Char) :
    (lexeme start c rest).kind.Tidy := by
  unfold lexeme
  dsimp only
  split
  · trivial
  · split
    · exact wordLexeme_kind_tidy _
    · split
      · split
        · unfold hexLexeme
          dsimp only
          split
          · trivial
          · split <;> trivial
        · unfold decimalLexeme
          dsimp only
          split
          · trivial
          · split <;> trivial
      · split
        · unfold markLexeme
          split
          · trivial
          · split <;> trivial
        · trivial

theorem readAll_tidy (r : Reader) : ∀ t ∈ (readAll r).1, t.kind.Tidy := by
  fun_induction readAll r with
  | case1 => simp
  | case2 r start c rest h one others ih =>
    intro t ht
    rcases List.mem_cons.1 ht with rfl | ht
    · exact lexeme_kind_tidy start c rest
    · exact ih t ht

/-- The names that a text is read as hold no dollar. -/
theorem lex_tidy (source : String) : ∀ t ∈ (lex source).1, t.kind.Tidy :=
  readAll_tidy _

end Token

end RegionCompiler
