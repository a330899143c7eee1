import RegionCompiler.Number.Binary

/-! The fewest decimal digits that read back as a double, written without an exponent. -/
namespace RegionCompiler.Number

/-- The rationals `low / den` to `high / den` that round to `mid / den`. -/
structure Neighbourhood where
  low : Nat
  mid : Nat
  high : Nat
  den : Nat
  closed : Bool

def Neighbourhood.contains (v : Neighbourhood) (num den : Nat) : Bool :=
  if v.closed then v.low * den ≤ num * v.den && num * v.den ≤ v.high * den
  else v.low * den < num * v.den && num * v.den < v.high * den

/-- Half way to the neighbours of a number. Below a power of two they lie closer. -/
def neighbourhood (bits : Nat) : Neighbourhood :=
  let f := Format.binary64
  let (m, e) := f.decode bits
  let low := if m = 1 <<< (f.precision - 1) then 4 * m - 1 else 4 * m - 2
  ⟨low <<< e, (4 * m) <<< e, (4 * m + 2) <<< e, 4 <<< f.scale, m % 2 = 0⟩

/-- Powers of ten as a numerator and a denominator. -/
def tenPow (e : Int) : Nat × Nat :=
  if 0 ≤ e then (Nat.pow 10 e.toNat, 1) else (1, Nat.pow 10 (-e).toNat)

/-- The multiple of ten to the `e` that reads back: the nearer of the two around the value, the
greater of two equally near. -/
def onGrid (v : Neighbourhood) (e : Int) : Option Nat :=
  let (num, den) := tenPow e
  let below := v.mid * den / (v.den * num)
  let rest := v.mid * den % (v.den * num)
  let above := below + 1
  match v.contains (below * num) den, v.contains (above * num) den with
  | true, true => some (if 2 * rest < v.den * num then below else above)
  | true, false => some below
  | false, true => some above
  | false, false => none

/-- The exponent of the leading digit of `num / den`. -/
def leadingExponent (num den : Nat) : Int :=
  if den ≤ num then ((Nat.toDigits 10 (num / den)).length : Int) - 1
  else
    let e := ((Nat.toDigits 10 (den / num)).length : Int)
    if den ≤ num * Nat.pow 10 (e - 1).toNat then -(e - 1) else -e

/-- The first of the finer and finer grids with a number that reads back. -/
def shortestFrom (v : Neighbourhood) (e : Int) : Nat → Nat × Int
  | 0 => (0, e)
  | n + 1 => match onGrid v e with
    | some digits => (digits, e)
    | none => shortestFrom v (e - 1) n

/-- The integer `digits` and exponent `e` of the shortest decimal of a positive double. It may be
the power of ten above the leading digit, which lies on a coarser grid than any other candidate;
seventeen digits are always enough. -/
def shortest (bits : Nat) : Nat × Int :=
  let v := neighbourhood bits
  shortestFrom v (leadingExponent v.mid v.den + 1) 18

def positional (digits : Nat) (e : Int) : String :=
  let text := Nat.toDigits 10 digits
  if 0 ≤ e then String.ofList (text ++ List.replicate e.toNat '0')
  else
    let places := (-e).toNat
    let padded := List.replicate (places + 1 - text.length) '0' ++ text
    let (whole, fraction) := padded.splitAt (padded.length - places)
    String.ofList (whole ++ '.' :: fraction)

/-- A non-negative double in full, without a fraction where it is whole. -/
def showDouble (bits : UInt64) : String :=
  if bits = 0 then "0"
  else if Format.binary64.infinity ≤ bits.toNat then "inf"
  else
    let (digits, e) := shortest bits.toNat
    positional digits e

example : showDouble 0x3ff8000000000000 = "1.5" := by decide +kernel

example : showDouble 0x4000000000000000 = "2" := by decide +kernel

/-- The double nearest to a millionth lies below it. -/
example : showDouble 0x3eb0c6f7a0b5ed8d = "0.000001" := by decide +kernel

end RegionCompiler.Number
