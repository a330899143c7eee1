import RegionCompiler.Parse.Stmt
import RegionCompiler.Program

/-! Declarations. One that cannot be read is given up with one diagnostic, and reading goes on at
the next keyword that starts a declaration. -/
namespace RegionCompiler.Parse

/-- Without a type the result is `void`, and stands at the end of what was read. -/
def resultType : Parser (Located Ty) := do
  match ← ahead? 0 with
  | some (.identifier _) => type
  | _ =>
    let here ← position
    return ⟨⟨here, here⟩, Ty.void⟩

def parameter : Parser Parameter := do
  let ty ← type
  let name ← expectName "parameter type"
  return ⟨ty, name⟩

def functionAfter (start : Location) : Parser Function := do
  let name ← expectName "fn"
  expectMark .leftParen "function name"
  let parameters ← items parameter .rightParen "parameter"
  let result ← resultType
  let token ← peek
  if token.kind ≠ .punctuator .leftBrace ∧ token.kind ≠ .punctuator .doubleAmpersand then
    fail (.expectedBody token)
  let body ← block
  return ⟨⟨start, ← position⟩, name, parameters, result, body, .empty⟩

def foreignParameter : Parser ForeignParameter := do
  if ← nextIsMark .asterisk then
    return .variadic (← consume).span
  else
    let ty ← type
    let token ← peek
    match token.kind with
    | .identifier name =>
      let _ ← consume
      return .typed ty (some ⟨token.span, name⟩)
    | _ => return .typed ty none

def linkName : Parser (Option (Located String)) := do
  if ← nextIsWord .from_ then
    let _ ← consume
    return some (← expectName "from")
  else return none

def foreignAfter (start : Location) : Parser ForeignFunction := do
  let name ← expectName "cfn"
  let link ← linkName
  expectMark .leftParen "foreign function name"
  let parameters ← items foreignParameter .rightParen "foreign parameter"
  let result ← resultType
  return ⟨⟨start, ← position⟩, name, link, parameters, result⟩

def member : Parser RecordMember := do
  let ty ← type
  let name ← expectName "member type"
  return ⟨ty, name⟩

def recordAfter (start : Location) : Parser Record := do
  let name ← expectName "type"
  expectMark .leftBrace "type name"
  let members ← trailingItems member .rightBrace "record member"
  return ⟨⟨start, ← position⟩, name, members⟩

def embedAfter (start : Location) : Parser Embed := do
  let path ← expectString "embed"
  expectWord .as_ "embed path"
  let name ← expectName "embed path"
  return ⟨⟨start, ← position⟩, path, name, none⟩

def declaration : Parser Declaration := do
  let token ← consume
  match token.kind with
  | .keyword .fn_ => return .function (← functionAfter token.start)
  | .keyword .cfn_ => return .foreign (← foreignAfter token.start)
  | .keyword .type_ => return .record (← recordAfter token.start)
  | .keyword .link_ => return .link (← expectString "link")
  | .keyword .embed_ => return .embed (← embedAfter token.start)
  | _ => fail (.expectedDeclaration token)

def startsDeclaration (t : Token) : Bool :=
  match t.kind with
  | .keyword word => word.startsDeclaration
  | _ => false

/-- Past the tokens that start no declaration. -/
def Cursor.resume (c : Cursor) : Cursor :=
  { c with rest := c.rest.dropWhile fun t => !startsDeclaration t }

/-- Every attempt reads a token, so as many attempts as there are tokens are enough. -/
def declarationsAt : Nat → Cursor → List Declaration × List Diagnostic
  | 0, _ => ([], [])
  | n + 1, c =>
    if c.rest.isEmpty then ([], [])
    else
      match declaration c with
      | .ok one next =>
        let others := declarationsAt n next
        (one :: others.1, others.2)
      | .error .endOfFile stopped => ([], [.endOfFile stopped.last.stop])
      | .error (.reported d) stopped =>
        let others := declarationsAt n stopped.resume
        (others.1, d :: others.2)

def program (path : String) (tokens : List Token) : Program × List Diagnostic :=
  let (declarations, diagnostics) := declarationsAt tokens.length (.ofTokens tokens)
  (.ofDeclarations path declarations, diagnostics)

end RegionCompiler.Parse
