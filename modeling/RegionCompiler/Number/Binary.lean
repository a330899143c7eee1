/-! Binary floating-point formats. A finite non-negative number is `m * 2 ^ e` with `e` at least
the format's least exponent; its bits order such numbers, so that rounding up into the next
binade, and beyond the last one into infinity, is a carry. -/
namespace RegionCompiler.Number

structure Format where
  /-- Significant bits, with the one that is not stored. -/
  precision : Nat
  exponentBits : Nat

namespace Format

def binary32 : Format := ⟨24, 8⟩

def binary64 : Format := ⟨53, 11⟩

/-- The unit of subnormal numbers is `2 ^ -f.scale`. -/
def scale (f : Format) : Nat :=
  (1 <<< (f.exponentBits - 1)) + f.precision - 3

def infinity (f : Format) : Nat :=
  ((1 <<< f.exponentBits) - 1) <<< (f.precision - 1)

end Format

/-- The quotient rounded to the nearest integer, a half to the even one. -/
def roundDiv (num den : Nat) : Nat :=
  let q := num / den
  let twice := 2 * (num % den)
  if twice > den ∨ (twice = den ∧ q % 2 = 1) then q + 1 else q

/-- The bits of the number nearest to `num / den`, ties to even. -/
def Format.ofRatio (f : Format) (num den : Nat) : Nat :=
  let units := num <<< f.scale
  let shift := (units / den).log2 + 1 - f.precision
  min f.infinity ((shift <<< (f.precision - 1)) + roundDiv units (den <<< shift))

/-- Significand and exponent, the latter counted from that of the subnormal numbers. -/
def Format.decode (f : Format) (bits : Nat) : Nat × Nat :=
  let exponent := (bits >>> (f.precision - 1)) % (1 <<< f.exponentBits)
  let hidden := 1 <<< (f.precision - 1)
  let fraction := bits % hidden
  if exponent = 0 then (fraction, 0) else (fraction + hidden, exponent - 1)

/-- The `g` number nearest to the non-negative `f` number with the given bits. -/
def Format.convert (f g : Format) (bits : Nat) : Nat :=
  if f.infinity ≤ bits then g.infinity
  else
    let (significand, exponent) := f.decode bits
    g.ofRatio (significand <<< exponent) (1 <<< f.scale)

/-- The double nearest to the decimal with the given digits before and after the point. -/
def doubleOfDecimal (whole fraction : List Char) : UInt64 :=
  let digits := (whole ++ fraction).foldl (fun n c => 10 * n + (c.toNat - '0'.toNat)) 0
  UInt64.ofNat (Format.binary64.ofRatio digits (Nat.pow 10 fraction.length))

end RegionCompiler.Number
