import RegionCompiler.Number.Shortest
import RegionCompiler.Source
import RegionCompiler.Text.Quoted

/-! The words of the language: keywords, punctuators, names and literals. -/
namespace RegionCompiler

inductive Keyword
  | and_
  | as_
  | break_
  | call_
  | cfn_
  | collect_
  | continue_
  | do_
  | else_
  | embed_
  | false_
  | fn_
  | for_
  | from_
  | if_
  | let_
  | letAlloc
  | link_
  | mut_
  | not_
  | null_
  | or_
  | ret_
  | true_
  | type_
  | until_
  | while_
  | xor_
deriving DecidableEq

namespace Keyword

def all : List Keyword :=
  [.and_, .as_, .break_, .call_, .cfn_, .collect_, .continue_, .do_, .else_, .embed_, .false_,
   .fn_, .for_, .from_, .if_, .let_, .letAlloc, .link_, .mut_, .not_, .null_, .or_, .ret_,
   .true_, .type_, .until_, .while_, .xor_]

def text : Keyword → String
  | .and_ => "and"
  | .as_ => "as"
  | .break_ => "break"
  | .call_ => "call"
  | .cfn_ => "cfn"
  | .collect_ => "collect"
  | .continue_ => "continue"
  | .do_ => "do"
  | .else_ => "else"
  | .embed_ => "embed"
  | .false_ => "false"
  | .fn_ => "fn"
  | .for_ => "for"
  | .from_ => "from"
  | .if_ => "if"
  | .let_ => "let"
  | .letAlloc => "let@"
  | .link_ => "link"
  | .mut_ => "mut"
  | .not_ => "not"
  | .null_ => "null"
  | .or_ => "or"
  | .ret_ => "ret"
  | .true_ => "true"
  | .type_ => "type"
  | .until_ => "until"
  | .while_ => "while"
  | .xor_ => "xor"

def ofText? (word : String) : Option Keyword :=
  all.find? (·.text == word)

/-- The keywords at which reading goes on after a declaration that could not be read. -/
def startsDeclaration : Keyword → Bool
  | .fn_ | .cfn_ | .type_ | .link_ | .embed_ => true
  | _ => false

end Keyword

inductive Punctuator
  | ampersand
  | arrow
  | asterisk
  | atSign
  | assignment
  | comma
  | doubleAmpersand
  | doublePercent
  | equals
  | exclamation
  | greater
  | greaterEqual
  | minus
  | leftBrace
  | leftParen
  | leftBracket
  | less
  | lessEqual
  | notEquals
  | percent
  | period
  | plus
  | rightBrace
  | rightParen
  | rightBracket
  | slash
deriving DecidableEq

namespace Punctuator

def text : Punctuator → String
  | .ampersand => "&"
  | .arrow => "->"
  | .asterisk => "*"
  | .atSign => "@"
  | .assignment => "="
  | .comma => ","
  | .doubleAmpersand => "&&"
  | .doublePercent => "%%"
  | .equals => "=="
  | .exclamation => "!"
  | .greater => ">"
  | .greaterEqual => ">="
  | .minus => "-"
  | .leftBrace => "\x7b"
  | .leftParen => "("
  | .leftBracket => "["
  | .less => "<"
  | .lessEqual => "<="
  | .notEquals => "!="
  | .percent => "%"
  | .period => "."
  | .plus => "+"
  | .rightBrace => "\x7d"
  | .rightParen => ")"
  | .rightBracket => "]"
  | .slash => "/"

def name : Punctuator → String
  | .ampersand => "ampersand"
  | .arrow => "arrow"
  | .asterisk => "asterisk"
  | .atSign => "at sign"
  | .assignment => "assignment"
  | .comma => "comma"
  | .doubleAmpersand => "double ampersand"
  | .doublePercent => "double percent sign"
  | .equals => "equals"
  | .exclamation => "exclamation mark"
  | .greater => "greater-than"
  | .greaterEqual => "greater-than-or-equal"
  | .minus => "hyphen-minus"
  | .leftBrace => "left curly bracket"
  | .leftParen => "left parenthesis"
  | .leftBracket => "left square bracket"
  | .less => "less-than"
  | .lessEqual => "less-than-or-equal"
  | .notEquals => "not-equals"
  | .percent => "percent sign"
  | .period => "period"
  | .plus => "plus sign"
  | .rightBrace => "right curly bracket"
  | .rightParen => "right parenthesis"
  | .rightBracket => "right square bracket"
  | .slash => "solidus"

def ofChar? : Char → Option Punctuator
  | '(' => some .leftParen
  | ')' => some .rightParen
  | '\x7b' => some .leftBrace
  | '\x7d' => some .rightBrace
  | '[' => some .leftBracket
  | ']' => some .rightBracket
  | ',' => some .comma
  | '.' => some .period
  | '@' => some .atSign
  | '+' => some .plus
  | '*' => some .asterisk
  | '/' => some .slash
  | '%' => some .percent
  | '&' => some .ampersand
  | '-' => some .minus
  | '=' => some .assignment
  | '!' => some .exclamation
  | '<' => some .less
  | '>' => some .greater
  | _ => none

/-- The punctuator of two characters whose first one is `p`. -/
def extend? (p : Punctuator) (next : Char) : Option Punctuator :=
  match p, next with
  | .percent, '%' => some .doublePercent
  | .ampersand, '&' => some .doubleAmpersand
  | .minus, '>' => some .arrow
  | .assignment, '=' => some .equals
  | .exclamation, '=' => some .notEquals
  | .less, '=' => some .lessEqual
  | .greater, '=' => some .greaterEqual
  | _, _ => none

end Punctuator

/-- How an integer was written. The digits of a hexadecimal literal bound its width. -/
inductive Radix
  | decimal
  | hexadecimal (digits : Nat)
deriving DecidableEq

structure IntegerLiteral where
  value : UInt64
  radix : Radix
deriving DecidableEq

def IntegerLiteral.text (n : IntegerLiteral) : String :=
  match n.radix with
  | .decimal => toString n.value.toNat
  | .hexadecimal digits =>
    let shown := Nat.toDigits 16 n.value.toNat
    "0x" ++ String.ofList (List.replicate (digits - shown.length) '0' ++ shown)

namespace Token

inductive Kind
  | keyword (word : Keyword)
  | identifier (name : String)
  | string (value : String)
  | integer (literal : IntegerLiteral)
  | float (bits : UInt64)
  | punctuator (mark : Punctuator)
  | illegal (c : Char)
deriving DecidableEq

/-- What messages call a token. -/
def Kind.name : Kind → String
  | .keyword _ => "keyword"
  | .identifier _ => "identifier"
  | .string _ => "string"
  | .integer _ => "integer"
  | .float _ => "floating-point number"
  | .punctuator mark => mark.name
  | .illegal _ => "illegal character"

def Kind.text : Kind → String
  | .keyword word => word.text
  | .identifier name => name
  | .string value => Text.quoted value
  | .integer literal => literal.text
  | .float bits => Number.showDouble bits
  | .punctuator mark => mark.text
  | .illegal c => c.toString

end Token

structure Token where
  kind : Token.Kind
  start : Location
  stop : Location
deriving DecidableEq

def Token.span (t : Token) : Span :=
  ⟨t.start, t.stop⟩

end RegionCompiler
