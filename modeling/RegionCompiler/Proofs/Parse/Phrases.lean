import RegionCompiler.Proofs.Parse.Outline
import RegionCompiler.Proofs.Parse.Grammar

/-! The phrases of a program. Every node of a tree, with the span that it has there, is laid out
over the tokens that it must have been read from. -/
namespace RegionCompiler

open Phrase

/-- The tokens of a type, if there is a text that names it. -/
def Ty.phrases : Ty → List Phrase
  | .invalid | .function .. => [gap 0]
  | .base name => [token (.identifier name)]
  | .pointer t => t.phrases ++ [mark .atSign]
  | .array t .dynamic => t.phrases ++ [mark .leftBracket, mark .rightBracket]
  | .array t (.fixed n) => t.phrases ++
      [mark .leftBracket, one fun kind => ∃ literal, kind = .integer literal ∧
        literal.value.toNat = n, mark .rightBracket]

namespace Located

def namePhrase (x : Located String) : Phrase := node x.span [token (.identifier x.value)]

def stringPhrase (x : Located String) : Phrase := node x.span [token (.string x.value)]

def typePhrase (t : Located Ty) : Phrase := node t.span t.value.phrases

/-- The parenthesis behind the parameters, and the type of the result. An omitted type stands at
the end of the parenthesis and takes up no text. -/
def resultPhrase (t : Located Ty) : Phrase :=
  either (seq [mark .rightParen, t.typePhrase])
    {ts | ∃ u : Token, ts = [u] ∧ u.kind = .punctuator .rightParen ∧
      t = ⟨u.span.after, Ty.void⟩} <| by
      rintro _ ⟨u, rfl, -, rfl⟩
      exact .empty u .nil

end Located

mutual
def Expr.phrase : Expr → Phrase
  | .integer n literal => node n.span [token (.integer literal)]
  | .float n bits => node n.span [token (.float bits)]
  | .boolean n value => node n.span [word (if value then .true_ else .false_)]
  | .string n value => node n.span [token (.string value)]
  | .null n => node n.span [word .null_]
  | .variable n head accessors => node n.span (head.name.namePhrase :: Accessor.phrases accessors)
  | .parenthesized n inner => node n.span [mark .leftParen, inner.phrase, mark .rightParen]
  | .array n elements =>
    node n.span (mark .leftBracket :: separated (Expr.phrases elements) ++ [mark .rightBracket])
  | .allocation n size => node n.span [mark .asterisk, size.phrase]
  | .addressOf n target head accessors => node n.span
      [mark .atSign, node target (head.name.namePhrase :: Accessor.phrases accessors)]
  | .unary n op operand => node n.span [node op.span [one (· ∈ op.value.tokens)], operand.phrase]
  | .binary n op lhs rhs =>
    node n.span [lhs.phrase, node op.span [token op.value.token], rhs.phrase]
  | .conversion n inner target => node n.span [inner.phrase, mark .arrow, target.typePhrase]
  | .construct n record arguments => node n.span
      ([record.namePhrase, mark .exclamation, mark .leftBrace] ++
        trailing (Argument.phrases arguments) ++ [mark .rightBrace])

def Expr.phrases : List Expr → List Phrase
  | [] => []
  | e :: rest => e.phrase :: Expr.phrases rest

def Accessor.phrase : Accessor → Phrase
  | .call n arguments =>
    node n.span (mark .leftParen :: separated (Expr.phrases arguments) ++ [mark .rightParen])
  | .index n position => node n.span [mark .leftBracket, position.phrase, mark .rightBracket]
  | .dereference n => node n.span [mark .atSign]
  | .member n name => node n.span [mark .period, name.namePhrase]

def Accessor.phrases : List Accessor → List Phrase
  | [] => []
  | a :: rest => a.phrase :: Accessor.phrases rest

def Argument.phrase : Argument → Phrase
  | .mk none value => value.phrase
  | .mk (some name) value => seq [name.namePhrase, mark .assignment, value.phrase]

def Argument.phrases : List Argument → List Phrase
  | [] => []
  | a :: rest => a.phrase :: Argument.phrases rest
end

@[simp]
theorem Expr.phrases_eq_map (es : List Expr) : Expr.phrases es = es.map Expr.phrase := by
  induction es with
  | nil => rfl
  | cons e es ih => rw [Expr.phrases, ih, List.map_cons]

@[simp]
theorem Accessor.phrases_eq_map (as : List Accessor) :
    Accessor.phrases as = as.map Accessor.phrase := by
  induction as with
  | nil => rfl
  | cons a as ih => rw [Accessor.phrases, ih, List.map_cons]

@[simp]
theorem Argument.phrases_eq_map (as : List Argument) :
    Argument.phrases as = as.map Argument.phrase := by
  induction as with
  | nil => rfl
  | cons a as ih => rw [Argument.phrases, ih, List.map_cons]

def Place.phrases (p : Place) : List Phrase :=
  p.head.name.namePhrase :: Accessor.phrases p.accessors

/-- The inside of a block: statements in braces, or a single one. -/
def Phrase.body (ps : List Phrase) : Phrase :=
  either (seq (mark .leftBrace :: ps ++ [mark .rightBrace]))
    {ts | ts ∈ (seq ps).tokens ∧ ps.length = 1} <| by
      intro ts hts
      have hspread := (seq ps).spread ts hts.1
      simpa [seq, mark, token, one, gap] using hspread

mutual
def Stmt.phrase : Stmt → Phrase
  | .let_ span allocate ty name value _ => node span
      [word (.ofLet allocate), ty.typePhrase, name.namePhrase, mark .assignment, value.phrase]
  | .mut_ span target value => node span
      [word .mut_, node target.span target.value.phrases, mark .assignment, value.phrase]
  | .call span value => node span [word .call_, value.phrase]
  | .collect span value => node span [word .collect_, value.phrase]
  | .return_ span value => node span (word .ret_ :: value.toList.map Expr.phrase)
  | .break_ span => node span [word .break_]
  | .continue_ span => node span [word .continue_]
  | .if_ span condition yes => node span [word .if_, condition.phrase, yes.phrase]
  | .ifElse span condition yes no =>
    node span [word .if_, condition.phrase, yes.phrase, word .else_, no.phrase]
  | .while_ span condition body => node span [word .while_, condition.phrase, body.phrase]
  | .doWhile span body condition =>
    node span [word .do_, body.phrase, word .while_, condition.phrase]
  | .for_ span iterator start stop body _ => node span
      [word .for_, iterator.namePhrase, word .from_, start.phrase, word .until_, stop.phrase,
        body.phrase]
  | .block span body => node span [body.phrase]

def Stmt.phrases : List Stmt → List Phrase
  | [] => []
  | s :: rest => s.phrase :: Stmt.phrases rest

def Block.phrase : Block → Phrase
  | .mk span manual statements => node span
      ((if manual then [mark .doubleAmpersand] else []) ++ [body (Stmt.phrases statements)])
end

@[simp]
theorem Stmt.phrases_eq_map (ss : List Stmt) : Stmt.phrases ss = ss.map Stmt.phrase := by
  induction ss with
  | nil => rfl
  | cons s ss ih => rw [Stmt.phrases, ih, List.map_cons]

def Parameter.phrase (p : Parameter) : Phrase := seq [p.ty.typePhrase, p.name.namePhrase]

def Function.phrase (f : Function) : Phrase :=
  node f.span ([word .fn_, f.name.namePhrase, mark .leftParen] ++
    separated (f.parameters.map Parameter.phrase) ++ [f.result.resultPhrase, f.body.phrase])

def ForeignParameter.phrase (p : ForeignParameter) : Phrase :=
  node p.span <| match p with
    | .typed ty none => [ty.typePhrase]
    | .typed ty (some name) => [ty.typePhrase, name.namePhrase]
    | .variadic _ => [mark .asterisk]

def ForeignFunction.linkPhrases (f : ForeignFunction) : List Phrase :=
  match f.link with
  | none => []
  | some name => [word .from_, name.namePhrase]

def ForeignFunction.phrase (f : ForeignFunction) : Phrase :=
  node f.span ([word .cfn_, f.name.namePhrase] ++ f.linkPhrases ++ [mark .leftParen] ++
    separated (f.parameters.map ForeignParameter.phrase) ++ [f.result.resultPhrase])

def RecordMember.phrase (m : RecordMember) : Phrase := seq [m.ty.typePhrase, m.name.namePhrase]

def Record.phrase (r : Record) : Phrase :=
  node r.span ([word .type_, r.name.namePhrase, mark .leftBrace] ++
    trailing (r.members.map RecordMember.phrase) ++ [mark .rightBrace])

def Embed.phrase (e : Embed) : Phrase :=
  node e.span [word .embed_, e.path.stringPhrase, word .as_, e.name.namePhrase]

/-- Of a link only the name of the library is kept. -/
def Declaration.phrase : Declaration → Phrase
  | .function f => f.phrase
  | .foreign f => f.phrase
  | .record r => r.phrase
  | .link library => seq [word .link_, library.stringPhrase]
  | .embed e => e.phrase

/-- Declarations one behind the other, with tokens around them that were given up. -/
def Declaration.phrases (ds : List Declaration) : List Phrase :=
  gap ⊤ :: ds.flatMap fun d => [d.phrase, gap ⊤]

end RegionCompiler
