import RegionCompiler.Text.Blank
import RegionCompiler.Token

/-! Reading tokens. Every lexeme takes at least one character, so reading ends; a malformed
literal is reported and still gives a token. -/
namespace RegionCompiler.Token

/-- What is wrong with a literal. -/
inductive Fault
  | invalidEscape (c : Char)
  | invalidNumber
  | numberTooLong
  | missingFraction
  | unterminatedString
deriving DecidableEq

namespace Fault

def name : Fault → String
  | .invalidEscape _ => "invalid-escape-character"
  | .invalidNumber => "invalid-number"
  | .numberTooLong => "number-literal-too-long"
  | .missingFraction => "float-wrong-format"
  | .unterminatedString => "unterminated-string"

def message : Fault → String
  | .invalidEscape c =>
    "Invalid escape sequence `\\" ++ c.toString
      ++ "`, only `\\\"`, `\\\\`, `\\0`, `\\n`, `\\r` and `\\t` are allowed"
  | .invalidNumber => "Invalid number"
  | .numberTooLong => "Number literal does not fit in 64 bits"
  | .missingFraction => "Floating-point literal requires digits after the `.`"
  | .unterminatedString => "String literal is not terminated before the end of the line"

end Fault

/-- A fault and where it is reported. -/
structure Report where
  position : Location
  fault : Fault
deriving DecidableEq

/-- What is left to read. -/
structure Reader where
  position : Location
  rest : List Char

namespace Reader

def ofText (text : List Char) : Reader :=
  ⟨Location.origin, text⟩

def skipWhile (p : Char → Bool) (r : Reader) : Reader :=
  ⟨r.position.advanceBy (r.rest.takeWhile p), r.rest.dropWhile p⟩

/-- Past blanks and comments. A comment runs from `#` to the end of its line. -/
def skipBlank (comment : Bool) (position : Location) : List Char → Reader
  | [] => ⟨position, []⟩
  | c :: rest =>
    if c = '#' ∨ (comment ∧ c ≠ '\n') then skipBlank true (position.advance c) rest
    else if Text.isBlank c then skipBlank false (position.advance c) rest
    else ⟨position, c :: rest⟩

theorem skipBlank_rest_length_le (comment : Bool) (position : Location) (text : List Char) :
    (skipBlank comment position text).rest.length ≤ text.length := by
  induction text generalizing comment position with
  | nil => simp [skipBlank]
  | cons c rest ih =>
    simp only [skipBlank]
    split
    · exact Nat.le_succ_of_le (ih _ _)
    · split
      · exact Nat.le_succ_of_le (ih _ _)
      · exact Nat.le_refl _

end Reader

/-- One token without its beginning, what is wrong with it, and what follows it. -/
structure Lexeme where
  kind : Kind
  reports : List Report
  next : Reader

def isDigit (c : Char) : Bool :=
  '0' ≤ c && c ≤ '9'

def isHexDigit (c : Char) : Bool :=
  isDigit c || ('a' ≤ c && c ≤ 'f') || ('A' ≤ c && c ≤ 'F')

def isLetter (c : Char) : Bool :=
  ('a' ≤ c && c ≤ 'z') || ('A' ≤ c && c ≤ 'Z') || c == '_'

def isNameChar (c : Char) : Bool :=
  isLetter c || isDigit c

def hexValue (c : Char) : Nat :=
  if isDigit c then c.toNat - '0'.toNat
  else if 'a' ≤ c then c.toNat - 'a'.toNat + 10
  else c.toNat - 'A'.toNat + 10

def natOfDecimal (digits : List Char) : Nat :=
  digits.foldl (fun n c => 10 * n + (c.toNat - '0'.toNat)) 0

def natOfHex (digits : List Char) : Nat :=
  digits.foldl (fun n c => 16 * n + hexValue c) 0

/-- The character that a backslash and `c` stand for. -/
def escape? : Char → Option Char
  | '"' => some '"'
  | 'n' => some '\n'
  | 'r' => some '\r'
  | 't' => some '\t'
  | '0' => some '\x00'
  | '\\' => some '\\'
  | _ => none

/-- A string literal after its opening quote. -/
structure StringBody where
  value : List Char
  closed : Bool
  reports : List Report
  next : Reader

def StringBody.cons (c : Char) (body : StringBody) : StringBody :=
  { body with value := c :: body.value }

def StringBody.report (r : Report) (body : StringBody) : StringBody :=
  { body with reports := r :: body.reports }

/-- Up to the closing quote, or else to the end of the line. An unknown escape stands for its
character. -/
def stringBody (position : Location) : List Char → StringBody
  | [] => ⟨[], false, [], ⟨position, []⟩⟩
  | '"' :: rest => ⟨[], true, [], ⟨position.advance '"', rest⟩⟩
  | '\n' :: rest => ⟨[], false, [], ⟨position, '\n' :: rest⟩⟩
  | ['\\'] => ⟨[], false, [], ⟨position.advance '\\', []⟩⟩
  | '\\' :: c :: rest =>
    let after := position.advance '\\'
    let body := stringBody (after.advance c) rest
    match escape? c with
    | some d => body.cons d
    | none => (body.cons c).report ⟨after, .invalidEscape c⟩
  | c :: rest => (stringBody (position.advance c) rest).cons c

theorem stringBody_rest_length_le (position : Location) (text : List Char) :
    (stringBody position text).next.rest.length ≤ text.length := by
  fun_induction stringBody position text with
  | case1 => simp
  | case2 => simp
  | case3 => simp
  | case4 => simp
  | case5 position c rest after body d h ih =>
    simp only [StringBody.cons, body, List.length_cons] at ih ⊢
    omega
  | case6 position c rest after body h ih =>
    simp only [StringBody.cons, StringBody.report, body, List.length_cons] at ih ⊢
    omega
  | case7 position c rest h1 h2 h3 h4 ih =>
    simp only [StringBody.cons, List.length_cons] at ih ⊢
    omega

/-- A string literal whose opening quote stands at `start`. -/
def stringLexeme (start : Location) (rest : List Char) : Lexeme :=
  let body := stringBody (start.advance '"') rest
  { kind := .string (String.ofList body.value)
    reports := if body.closed then body.reports else body.reports ++ [⟨start, .unterminatedString⟩]
    next := body.next }

/-- A keyword or a name. -/
def wordLexeme (r : Reader) : Lexeme :=
  let word := String.ofList (r.rest.takeWhile isNameChar)
  let next := r.skipWhile isNameChar
  match Keyword.ofText? word with
  | some .let_ =>
    match next.rest with
    | '@' :: rest => ⟨.keyword .letAlloc, [], ⟨next.position.advance '@', rest⟩⟩
    | _ => ⟨.keyword .let_, [], next⟩
  | some keyword => ⟨.keyword keyword, [], next⟩
  | none => ⟨.identifier word, [], next⟩

/-- Digits after `0x`, at most sixteen of them. -/
def hexLexeme (start : Location) (r : Reader) : Lexeme :=
  let digits := r.rest.takeWhile isHexDigit
  let literal value : Kind := .integer ⟨value, .hexadecimal (max digits.length 1)⟩
  let next := r.skipWhile isHexDigit
  if digits.length = 0 then ⟨literal 0, [⟨start, .invalidNumber⟩], next⟩
  else if 16 < digits.length then ⟨literal 0, [⟨start, .numberTooLong⟩], next⟩
  else ⟨literal (UInt64.ofNat (natOfHex digits)), [], next⟩

/-- Digits, at most the greatest signed 64-bit integer, and perhaps a fraction. -/
def decimalLexeme (r : Reader) : Lexeme :=
  let whole := r.rest.takeWhile isDigit
  let next := r.skipWhile isDigit
  match next.rest with
  | '.' :: rest =>
    let fraction := rest.takeWhile isDigit
    let stop := Reader.skipWhile isDigit ⟨next.position.advance '.', rest⟩
    { kind := .float (Number.doubleOfDecimal whole fraction)
      reports := if fraction.isEmpty then [⟨stop.position, .missingFraction⟩] else []
      next := stop }
  | _ =>
    let value := natOfDecimal whole
    if value < 0x8000000000000000 then ⟨.integer ⟨UInt64.ofNat value, .decimal⟩, [], next⟩
    else ⟨.integer ⟨0, .decimal⟩, [⟨r.position, .numberTooLong⟩], next⟩

def markLexeme (mark : Punctuator) (r : Reader) : Lexeme :=
  match r.rest with
  | [] => ⟨.punctuator mark, [], r⟩
  | c :: rest =>
    match mark.extend? c with
    | some longer => ⟨.punctuator longer, [], ⟨r.position.advance c, rest⟩⟩
    | none => ⟨.punctuator mark, [], r⟩

/-- The lexeme that begins with `c` at `start`. -/
def lexeme (start : Location) (c : Char) (rest : List Char) : Lexeme :=
  let after : Reader := ⟨start.advance c, rest⟩
  if c = '"' then stringLexeme start rest
  else if isLetter c then wordLexeme ⟨start, c :: rest⟩
  else if isDigit c then
    match c, rest with
    | '0', 'x' :: digits => hexLexeme start ⟨after.position.advance 'x', digits⟩
    | _, _ => decimalLexeme ⟨start, c :: rest⟩
  else
    match Punctuator.ofChar? c with
    | some mark => markLexeme mark after
    | none => ⟨.illegal c, [], after⟩

theorem length_dropWhile_cons_le {p : Char → Bool} {c : Char} (h : p c) (rest : List Char) :
    ((c :: rest).dropWhile p).length ≤ rest.length := by
  rw [List.dropWhile_cons_of_pos h]
  exact (List.dropWhile_suffix p).length_le

theorem wordLexeme_rest_length_le {start : Location} {c : Char} (h : isLetter c)
    (rest : List Char) : (wordLexeme ⟨start, c :: rest⟩).next.rest.length ≤ rest.length := by
  have hskip : ((c :: rest).dropWhile isNameChar).length ≤ rest.length :=
    length_dropWhile_cons_le (by simp [isNameChar, h]) rest
  unfold wordLexeme
  dsimp only [Reader.skipWhile]
  split
  · split
    · rename_i heq
      rw [heq, List.length_cons] at hskip
      dsimp only
      omega
    · exact hskip
  · exact hskip
  · exact hskip

theorem decimalLexeme_rest_length_le {start : Location} {c : Char} (h : isDigit c)
    (rest : List Char) : (decimalLexeme ⟨start, c :: rest⟩).next.rest.length ≤ rest.length := by
  have hskip : ((c :: rest).dropWhile isDigit).length ≤ rest.length :=
    length_dropWhile_cons_le h rest
  unfold decimalLexeme
  dsimp only [Reader.skipWhile]
  split
  · rename_i tail heq
    rw [heq, List.length_cons] at hskip
    have := (List.dropWhile_suffix (l := tail) isDigit).length_le
    dsimp only
    omega
  · split <;> exact hskip

theorem markLexeme_rest_length_le (mark : Punctuator) (r : Reader) :
    (markLexeme mark r).next.rest.length ≤ r.rest.length := by
  unfold markLexeme
  split
  · exact Nat.le_refl _
  · rename_i heq
    split <;> simp [heq]

theorem lexeme_rest_length_le (start : Location) (c : Char) (rest : List Char) :
    (lexeme start c rest).next.rest.length ≤ rest.length := by
  unfold lexeme
  dsimp only
  split
  · exact stringBody_rest_length_le _ _
  · split
    · exact wordLexeme_rest_length_le ‹_› rest
    · split
      · split
        · unfold hexLexeme
          have := (List.dropWhile_suffix (l := ‹List Char›) isHexDigit).length_le
          dsimp only
          split
          · exact Nat.le_succ_of_le this
          · split <;> exact Nat.le_succ_of_le this
        · exact decimalLexeme_rest_length_le ‹_› rest
      · split
        · exact markLexeme_rest_length_le _ _
        · exact Nat.le_refl _

/-- All tokens of a text, and the faults met on the way. -/
def readAll (r : Reader) : List Token × List Report :=
  match _h : Reader.skipBlank false r.position r.rest with
  | ⟨_, []⟩ => ([], [])
  | ⟨start, c :: rest⟩ =>
    let one := lexeme start c rest
    let others := readAll one.next
    (⟨one.kind, start, one.next.position⟩ :: others.1, one.reports ++ others.2)
termination_by r.rest.length
decreasing_by
  have hskip := Reader.skipBlank_rest_length_le false r.position r.rest
  have hone := lexeme_rest_length_le start c rest
  rw [_h, List.length_cons] at hskip
  exact Nat.lt_of_le_of_lt hone hskip

def lex (source : String) : List Token × List Report :=
  readAll (Reader.ofText source.toList)

end RegionCompiler.Token
