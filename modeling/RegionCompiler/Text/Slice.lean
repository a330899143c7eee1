/-! Cutting a text at byte offsets. -/
namespace RegionCompiler.Text

/-- The characters after the first `n` bytes, if a character ends there. -/
def dropBytes? : Nat → List Char → Option (List Char)
  | 0, text => some text
  | _ + 1, [] => none
  | n + 1, c :: text =>
    if c.utf8Size ≤ n + 1 then dropBytes? (n + 1 - c.utf8Size) text else none

/-- The characters that take the first `n` bytes, if a character ends there. -/
def takeBytes? : Nat → List Char → Option (List Char)
  | 0, _ => some []
  | _ + 1, [] => none
  | n + 1, c :: text =>
    if c.utf8Size ≤ n + 1 then (takeBytes? (n + 1 - c.utf8Size) text).map (c :: ·) else none

/-- The bytes from `start` up to `stop`. Equal bounds give the empty text wherever they lie;
otherwise both must be ends of characters, in order. -/
def slice? (text : String) (start stop : Nat) : Option String :=
  if start = stop then some ""
  else if start < stop then do
    let rest ← dropBytes? start text.toList
    let part ← takeBytes? (stop - start) rest
    return String.ofList part
  else none

end RegionCompiler.Text
