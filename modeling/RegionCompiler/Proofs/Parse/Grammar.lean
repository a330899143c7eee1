import RegionCompiler.Parse

/-! The grammar of the language. A grammar relates a tree to the tokens before it was read and to
the tokens left after it, so that rules compose without splitting lists; trees carry no ranges.
Levels of binary operators are chains that lean to the left. -/
namespace RegionCompiler

/-! ### Trees without ranges -/

@[simp]
def Located.bare {α : Type} (x : Located α) : Located α := ⟨.origin, x.value⟩

@[simp]
def Node.bare (n : Node) : Node := ⟨.origin, n.ty⟩

/-- The node of a tree that was just read. -/
abbrev Node.blank : Node := ⟨.origin, none⟩

/-- A value whose place in the text does not matter. -/
abbrev Located.blank {α : Type} (value : α) : Located α := ⟨.origin, value⟩

@[simp]
def Head.bare (h : Head) : Head := ⟨h.name.bare, h.ty, h.binding⟩

mutual
def Expr.bare : Expr → Expr
  | .integer n literal => .integer n.bare literal
  | .float n bits => .float n.bare bits
  | .boolean n value => .boolean n.bare value
  | .string n value => .string n.bare value
  | .null n => .null n.bare
  | .variable n head accessors => .variable n.bare head.bare (Accessor.bareAll accessors)
  | .parenthesized n inner => .parenthesized n.bare inner.bare
  | .array n elements => .array n.bare (Expr.bareAll elements)
  | .allocation n size => .allocation n.bare size.bare
  | .addressOf n _ head accessors =>
    .addressOf n.bare .origin head.bare (Accessor.bareAll accessors)
  | .unary n op operand => .unary n.bare op.bare operand.bare
  | .binary n op lhs rhs => .binary n.bare op.bare lhs.bare rhs.bare
  | .conversion n inner target => .conversion n.bare inner.bare target.bare
  | .construct n record arguments =>
    .construct n.bare record.bare (Argument.bareAll arguments)

def Expr.bareAll : List Expr → List Expr
  | [] => []
  | e :: rest => e.bare :: Expr.bareAll rest

def Accessor.bare : Accessor → Accessor
  | .call n arguments => .call n.bare (Expr.bareAll arguments)
  | .index n position => .index n.bare position.bare
  | .dereference n => .dereference n.bare
  | .member n name => .member n.bare name.bare

def Accessor.bareAll : List Accessor → List Accessor
  | [] => []
  | a :: rest => a.bare :: Accessor.bareAll rest

def Argument.bare : Argument → Argument
  | .mk name value => .mk (name.map Located.bare) value.bare

def Argument.bareAll : List Argument → List Argument
  | [] => []
  | a :: rest => a.bare :: Argument.bareAll rest
end

@[simp]
theorem Expr.bareAll_eq_map (es : List Expr) : Expr.bareAll es = es.map Expr.bare := by
  induction es with
  | nil => rfl
  | cons e es ih => rw [Expr.bareAll, ih, List.map_cons]

@[simp]
theorem Accessor.bareAll_eq_map (as : List Accessor) :
    Accessor.bareAll as = as.map Accessor.bare := by
  induction as with
  | nil => rfl
  | cons a as ih => rw [Accessor.bareAll, ih, List.map_cons]

@[simp]
theorem Argument.bareAll_eq_map (as : List Argument) :
    Argument.bareAll as = as.map Argument.bare := by
  induction as with
  | nil => rfl
  | cons a as ih => rw [Argument.bareAll, ih, List.map_cons]

def Place.bare (p : Place) : Place := ⟨p.head.bare, p.accessors.map Accessor.bare⟩

mutual
def Stmt.bare : Stmt → Stmt
  | .let_ _ allocate ty name value mangled =>
    .let_ .origin allocate ty.bare name.bare value.bare mangled
  | .mut_ _ target value => .mut_ .origin (.blank target.value.bare) value.bare
  | .call _ value => .call .origin value.bare
  | .collect _ value => .collect .origin value.bare
  | .return_ _ value => .return_ .origin (value.map Expr.bare)
  | .break_ _ => .break_ .origin
  | .continue_ _ => .continue_ .origin
  | .if_ _ condition yes => .if_ .origin condition.bare yes.bare
  | .ifElse _ condition yes no => .ifElse .origin condition.bare yes.bare no.bare
  | .while_ _ condition body => .while_ .origin condition.bare body.bare
  | .doWhile _ body condition => .doWhile .origin body.bare condition.bare
  | .for_ _ iterator start stop body mangled =>
    .for_ .origin iterator.bare start.bare stop.bare body.bare mangled
  | .block _ body => .block .origin body.bare

def Stmt.bareAll : List Stmt → List Stmt
  | [] => []
  | s :: rest => s.bare :: Stmt.bareAll rest

def Block.bare : Block → Block
  | .mk _ manual statements => .mk .origin manual (Stmt.bareAll statements)
end

@[simp]
theorem Stmt.bareAll_eq_map (ss : List Stmt) : Stmt.bareAll ss = ss.map Stmt.bare := by
  induction ss with
  | nil => rfl
  | cons s ss ih => rw [Stmt.bareAll, ih, List.map_cons]

def Parameter.bare (p : Parameter) : Parameter := ⟨p.ty.bare, p.name.bare⟩

def ForeignParameter.bare : ForeignParameter → ForeignParameter
  | .typed ty name => .typed ty.bare (name.map Located.bare)
  | .variadic _ => .variadic .origin

def RecordMember.bare (m : RecordMember) : RecordMember := ⟨m.ty.bare, m.name.bare⟩

def Function.bare (f : Function) : Function :=
  ⟨.origin, f.name.bare, f.parameters.map Parameter.bare, f.result.bare, f.body.bare, f.stack⟩

def ForeignFunction.bare (f : ForeignFunction) : ForeignFunction :=
  ⟨.origin, f.name.bare, f.link.map Located.bare, f.parameters.map ForeignParameter.bare,
    f.result.bare⟩

def Record.bare (r : Record) : Record :=
  ⟨.origin, r.name.bare, r.members.map RecordMember.bare⟩

def Embed.bare (e : Embed) : Embed := ⟨.origin, e.path.bare, e.name.bare, e.resolved⟩

def Declaration.bare : Declaration → Declaration
  | .function f => .function f.bare
  | .foreign f => .foreign f.bare
  | .record r => .record r.bare
  | .link library => .link library.bare
  | .embed e => .embed e.bare

def Program.bare (p : Program) : Program where
  path := p.path
  functions := p.functions.map Function.bare
  foreign := p.foreign.map ForeignFunction.bare
  records := p.records.map Record.bare
  links := p.links.map Located.bare
  embeds := p.embeds.map Embed.bare

theorem Program.bare_ofDeclarations (path : String) (ds : List Declaration) :
    (ofDeclarations path ds).bare = ofDeclarations path (ds.map Declaration.bare) := by
  simp only [Program.bare, ofDeclarations, List.map_filterMap, List.filterMap_map, mk.injEq,
    true_and]
  refine ⟨?_, ?_, ?_, ?_, ?_⟩ <;>
    · congr 1
      funext d
      cases d <;> rfl

/-! ### Operators -/

/-- How tightly a binary operator binds, loosest first. -/
inductive Level
  | logical
  | comparison
  | additive
  | multiplicative
deriving DecidableEq

namespace BinaryOp

def level : BinaryOp → Level
  | .and_ | .or_ | .xor_ => .logical
  | .equal | .notEqual | .less | .lessOrEqual | .greater | .greaterOrEqual => .comparison
  | .add | .subtract => .additive
  | .multiply | .divide | .modulo | .flooredModulo => .multiplicative

def token : BinaryOp → Token.Kind
  | .add => .punctuator .plus
  | .subtract => .punctuator .minus
  | .multiply => .punctuator .asterisk
  | .divide => .punctuator .slash
  | .modulo => .punctuator .percent
  | .flooredModulo => .punctuator .doublePercent
  | .equal => .punctuator .equals
  | .notEqual => .punctuator .notEquals
  | .less => .punctuator .less
  | .lessOrEqual => .punctuator .lessEqual
  | .greater => .punctuator .greater
  | .greaterOrEqual => .punctuator .greaterEqual
  | .and_ => .keyword .and_
  | .or_ => .keyword .or_
  | .xor_ => .keyword .xor_

end BinaryOp

/-- The ways to write a prefix operator. -/
def UnaryOp.tokens : UnaryOp → List Token.Kind
  | .not_ => [.keyword .not_, .punctuator .exclamation]
  | .negate => [.punctuator .minus]
  | .release => [.punctuator .ampersand]

/-! ### Rules -/

open Token (Kind)

/-- The trees that the tokens from one point up to a later one derive. -/
abbrev Grammar (α : Type) := α → List Kind → List Kind → Prop

namespace Grammar

/-- `IDENT { "[" [INT] "]" | "@" }` -/
inductive TypeName : Grammar Ty
  | base {name after} : TypeName (.base name) (.identifier name :: after) after
  | pointer {t before after} : TypeName t before (.punctuator .atSign :: after) →
      TypeName (.pointer t) before after
  | dynamic {t before after} :
      TypeName t before (.punctuator .leftBracket :: .punctuator .rightBracket :: after) →
      TypeName (.array t .dynamic) before after
  | fixed {t literal before after} :
      TypeName t before
        (.punctuator .leftBracket :: .integer literal :: .punctuator .rightBracket :: after) →
      TypeName (.array t (.fixed literal.value.toNat)) before after

section Lists

variable {α : Type} (item : Grammar α) (close : Punctuator)

/-- `item {"," item} close` -/
inductive Separated : Grammar (List α)
  | last {x before after} : item x before (.punctuator close :: after) →
      Separated [x] before after
  | more {x xs before middle after} : item x before (.punctuator .comma :: middle) →
      Separated xs middle after → Separated (x :: xs) before after

/-- `[item {"," item}] close` -/
inductive Listed : Grammar (List α)
  | none {after} : Listed [] (.punctuator close :: after) after
  | some {xs before after} : Separated item close xs before after → Listed xs before after

/-- `{item ","} [item] close` -/
inductive Trailing : Grammar (List α)
  | none {after} : Trailing [] (.punctuator close :: after) after
  | last {x before after} : item x before (.punctuator close :: after) →
      Trailing [x] before after
  | more {x xs before middle after} : item x before (.punctuator .comma :: middle) →
      Trailing xs middle after → Trailing (x :: xs) before after

end Lists

section Expressions

variable (expr : Grammar Expr)

/-- `{ "(" [expr {"," expr}] ")" | "[" expr "]" | "." IDENT | "@" }` -/
inductive Accessors : Grammar (List Accessor)
  | none {after} : Accessors [] after after
  | call {arguments rest before middle after} :
      Listed expr .rightParen arguments before middle → Accessors rest middle after →
      Accessors (.call .blank arguments :: rest) (.punctuator .leftParen :: before) after
  | index {position rest before middle after} :
      expr position before (.punctuator .rightBracket :: middle) →
      Accessors rest middle after →
      Accessors (.index .blank position :: rest) (.punctuator .leftBracket :: before) after
  | member {name rest before after} : Accessors rest before after →
      Accessors (.member .blank (.blank name) :: rest)
        (.punctuator .period :: .identifier name :: before) after
  | dereference {rest before after} : Accessors rest before after →
      Accessors (.dereference .blank :: rest) (.punctuator .atSign :: before) after

inductive Variable : Grammar Place
  | mk {name accessors before after} : Accessors expr accessors before after →
      Variable ⟨⟨.blank name, none, none⟩, accessors⟩ (.identifier name :: before) after

/-- `[IDENT "="] expr` -/
inductive Valued : Grammar Argument
  | plain {e before after} : expr e before after → Valued (.mk none e) before after
  | named {name e before after} : expr e before after →
      Valued (.mk (some (.blank name)) e)
        (.identifier name :: .punctuator .assignment :: before) after

inductive Primary : Grammar Expr
  | integer {literal after} : Primary (.integer .blank literal) (.integer literal :: after) after
  | float {bits after} : Primary (.float .blank bits) (.float bits :: after) after
  | string {value after} : Primary (.string .blank value) (.string value :: after) after
  | true_ {after} : Primary (.boolean .blank true) (.keyword .true_ :: after) after
  | false_ {after} : Primary (.boolean .blank false) (.keyword .false_ :: after) after
  | null {after} : Primary (.null .blank) (.keyword .null_ :: after) after
  | place {head accessors before after} : Variable expr ⟨head, accessors⟩ before after →
      Primary (.variable .blank head accessors) before after
  | parenthesized {e before after} : expr e before (.punctuator .rightParen :: after) →
      Primary (.parenthesized .blank e) (.punctuator .leftParen :: before) after
  | array {elements before after} : Listed expr .rightBracket elements before after →
      Primary (.array .blank elements) (.punctuator .leftBracket :: before) after
  | allocation {size before after} : Primary size before after →
      Primary (.allocation .blank size) (.punctuator .asterisk :: before) after
  | addressOf {head accessors before after} : Variable expr ⟨head, accessors⟩ before after →
      Primary (.addressOf .blank .origin head accessors) (.punctuator .atSign :: before) after
  | construct {name arguments before after} :
      Trailing (Valued expr) .rightBrace arguments before after →
      Primary (.construct .blank (.blank name) arguments)
        (.identifier name :: .punctuator .exclamation :: .punctuator .leftBrace :: before) after

/-- `leaf {"->" type}` -/
inductive Converted (leaf : Grammar Expr) : Grammar Expr
  | leaf {e before after} : leaf e before after → Converted leaf e before after
  | conversion {e target before middle after} :
      Converted leaf e before (.punctuator .arrow :: middle) → TypeName target middle after →
      Converted leaf (.conversion .blank e (.blank target)) before after

/-- `{"not" | "!" | "-" | "&"} operand` -/
inductive Prefixed (operand : Grammar Expr) : Grammar Expr
  | operand {e before after} : operand e before after → Prefixed operand e before after
  | operator {op mark e before after} : mark ∈ UnaryOp.tokens op →
      Prefixed operand e before after →
      Prefixed operand (.unary .blank (.blank op) e) (mark :: before) after

/-- Operators of one level, the leftmost innermost. -/
inductive Chain (level : Level) (operand : Grammar Expr) : Grammar Expr
  | operand {e before after} : operand e before after → Chain level operand e before after
  | operator {op : BinaryOp} {lhs rhs before middle after} : op.level = level →
      Chain level operand lhs before (op.token :: middle) → operand rhs middle after →
      Chain level operand (.binary .blank (.blank op) lhs rhs) before after

inductive Expression : Grammar Expr
  | levels {e before after} :
      Chain .logical (Chain .comparison (Chain .additive (Chain .multiplicative
        (Prefixed (Converted (Primary Expression)))))) e before after →
      Expression e before after

end Expressions

/-- What the operators of the tightest level stand between. -/
abbrev Operand : Grammar Expr := Prefixed (Converted (Primary Expression))

end Grammar

/-- The block that a statement stands for: its own if it is a body, else one that holds it. -/
def Stmt.asBlock : Stmt → Block
  | .block _ body => body
  | s => .mk .origin false [s]

/-- The block that `&&` before a block stands for. -/
def Block.marked : Block → Block
  | .mk _ false statements => .mk .origin true statements
  | .mk span true statements => .mk .origin true [.block .origin (.mk span true statements)]

/-- The keyword of a declaration of a variable. -/
def Keyword.ofLet (allocate : Bool) : Keyword :=
  if allocate then .letAlloc else .let_

namespace Grammar

/-! Statements carry a flag: whether the text ends in an `if` without `else`, so that an `else`
after it could belong to that `if`. With `nearest` it does; without, it may belong to any. -/

mutual
inductive Statement (nearest : Bool) : Stmt → Bool → List Kind → List Kind → Prop
  | let_ {allocate t name e before middle after} :
      TypeName t before (.identifier name :: .punctuator .assignment :: middle) →
      Expression e middle after →
      Statement nearest (.let_ .origin allocate (.blank t) (.blank name) e none) false
        (.keyword (.ofLet allocate) :: before) after
  | mut_ {target e before middle after} :
      Variable Expression target before (.punctuator .assignment :: middle) →
      Expression e middle after →
      Statement nearest (.mut_ .origin (.blank target) e) false (.keyword .mut_ :: before) after
  | call {e before after} : Expression e before after →
      Statement nearest (.call .origin e) false (.keyword .call_ :: before) after
  | collect {e before after} : Expression e before after →
      Statement nearest (.collect .origin e) false (.keyword .collect_ :: before) after
  | returnValue {e before after} : Expression e before after →
      Statement nearest (.return_ .origin (some e)) false (.keyword .ret_ :: before) after
  | returnNothing {after} :
      Statement nearest (.return_ .origin none) false (.keyword .ret_ :: after) after
  | break_ {after} : Statement nearest (.break_ .origin) false (.keyword .break_ :: after) after
  | continue_ {after} :
      Statement nearest (.continue_ .origin) false (.keyword .continue_ :: after) after
  | if_ {condition yes dangling before middle after} : Expression condition before middle →
      Single nearest yes dangling middle after →
      Statement nearest (.if_ .origin condition yes) true (.keyword .if_ :: before) after
  | ifElse {condition yes no inner dangling before middle last after} :
      Expression condition before middle →
      Single nearest yes inner middle (.keyword .else_ :: last) →
      (nearest = true → inner = false) →
      Single nearest no dangling last after →
      Statement nearest (.ifElse .origin condition yes no) dangling
        (.keyword .if_ :: before) after
  | while_ {condition body dangling before middle after} : Expression condition before middle →
      Single nearest body dangling middle after →
      Statement nearest (.while_ .origin condition body) dangling
        (.keyword .while_ :: before) after
  | doWhile {body condition dangling before middle after} :
      Single nearest body dangling before (.keyword .while_ :: middle) →
      Expression condition middle after →
      Statement nearest (.doWhile .origin body condition) false (.keyword .do_ :: before) after
  | for_ {iterator start stop body dangling before middle last after} :
      Expression start before (.keyword .until_ :: middle) → Expression stop middle last →
      Single nearest body dangling last after →
      Statement nearest (.for_ .origin (.blank iterator) start stop body none) dangling
        (.keyword .for_ :: .identifier iterator :: .keyword .from_ :: before) after
  | body {b dangling before after} : Body nearest b dangling before after →
      Statement nearest (.block .origin b) dangling before after

/-- `"{" {stmt} "}"`, or `"&&"` before a block. -/
inductive Body (nearest : Bool) : Block → Bool → List Kind → List Kind → Prop
  | braces {statements before after} : Statements nearest statements before after →
      Body nearest (.mk .origin false statements) false (.punctuator .leftBrace :: before) after
  | manual {b dangling before after} : Single nearest b dangling before after →
      Body nearest b.marked dangling (.punctuator .doubleAmpersand :: before) after

/-- `body | stmt` -/
inductive Single (nearest : Bool) : Block → Bool → List Kind → List Kind → Prop
  | body {b dangling before after} : Body nearest b dangling before after →
      Single nearest b dangling before after
  | statement {s dangling before after} : Statement nearest s dangling before after →
      Single nearest s.asBlock dangling before after

/-- `{stmt} "}"` -/
inductive Statements (nearest : Bool) : List Stmt → List Kind → List Kind → Prop
  | none {after} : Statements nearest [] (.punctuator .rightBrace :: after) after
  | more {s statements dangling before middle after} :
      Statement nearest s dangling before middle → Statements nearest statements middle after →
      Statements nearest (s :: statements) before after
end

/-- `[type]` -/
inductive Result : Grammar Ty
  | none {after} : Result .void after after
  | some {t before after} : TypeName t before after → Result t before after

inductive TypedParameter : Grammar Parameter
  | mk {t name before after} : TypeName t before (.identifier name :: after) →
      TypedParameter ⟨.blank t, .blank name⟩ before after

inductive Member : Grammar RecordMember
  | mk {t name before after} : TypeName t before (.identifier name :: after) →
      Member ⟨.blank t, .blank name⟩ before after

/-- `type [IDENT] | "*"` -/
inductive Foreign : Grammar ForeignParameter
  | unnamed {t before after} : TypeName t before after →
      Foreign (.typed (.blank t) none) before after
  | named {t name before after} : TypeName t before (.identifier name :: after) →
      Foreign (.typed (.blank t) (some (.blank name))) before after
  | variadic {after} : Foreign (.variadic .origin) (.punctuator .asterisk :: after) after

/-- `["from" IDENT]` -/
inductive LinkName : Grammar (Option (Located String))
  | none {after} : LinkName none after after
  | some {name after} :
      LinkName (some (.blank name)) (.keyword .from_ :: .identifier name :: after) after

inductive Declared (nearest : Bool) : Grammar Declaration
  | function {name parameters result body dangling before middle last after} :
      Listed TypedParameter .rightParen parameters before middle → Result result middle last →
      Body nearest body dangling last after →
      Declared nearest
        (.function ⟨.origin, .blank name, parameters, .blank result, body, .empty⟩)
        (.keyword .fn_ :: .identifier name :: .punctuator .leftParen :: before) after
  | foreign {name link parameters result before middle last after} :
      LinkName link before (.punctuator .leftParen :: middle) →
      Listed Foreign .rightParen parameters middle last → Result result last after →
      Declared nearest (.foreign ⟨.origin, .blank name, link, parameters, .blank result⟩)
        (.keyword .cfn_ :: .identifier name :: before) after
  | record {name members before after} : Trailing Member .rightBrace members before after →
      Declared nearest (.record ⟨.origin, .blank name, members⟩)
        (.keyword .type_ :: .identifier name :: .punctuator .leftBrace :: before) after
  | link {library after} :
      Declared nearest (.link (.blank library)) (.keyword .link_ :: .string library :: after) after
  | embed {path name after} :
      Declared nearest (.embed ⟨.origin, .blank path, .blank name, none⟩)
        (.keyword .embed_ :: .string path :: .keyword .as_ :: .identifier name :: after) after

/-- The declarations that a whole text derives. -/
inductive Declarations (nearest : Bool) : List Declaration → List Kind → Prop
  | none : Declarations nearest [] []
  | more {d ds before after} : Declared nearest d before after →
      Declarations nearest ds after → Declarations nearest (d :: ds) before

end Grammar
end RegionCompiler
