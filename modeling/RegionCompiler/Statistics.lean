import RegionCompiler.Compilation

/-! Figures about a compilation. Times are in nanoseconds. -/
namespace RegionCompiler

/-- A number of units of a power of ten, with all decimals up to the last that is not zero. -/
def showUnits (amount places : Nat) (unit : String) : String :=
  let one := Nat.pow 10 places
  let fraction := (toString (amount % one)).toList
  let padded := List.replicate (places - fraction.length) '0' ++ fraction
  let shown := (padded.reverse.dropWhile (· == '0')).reverse
  let whole := toString (amount / one)
  (if shown.isEmpty then whole else whole ++ "." ++ String.ofList shown) ++ unit

/-- A time in the greatest unit of which there is at least one. -/
def showDuration (nanoseconds : Nat) : String :=
  if 1_000_000_000 ≤ nanoseconds then showUnits nanoseconds 9 "s"
  else if 1_000_000 ≤ nanoseconds then showUnits nanoseconds 6 "ms"
  else if 1_000 ≤ nanoseconds then showUnits nanoseconds 3 "µs"
  else toString nanoseconds ++ "ns"

structure Statistics where
  /-- The time that each stage took. -/
  stages : List (Stage × Nat)
  tokens : Nat
  functions : Nat
  instructions : Nat

namespace Statistics

def totalTime (s : Statistics) : Nat :=
  s.stages.foldr (fun (_, time) total => time + total) 0

def text (s : Statistics) : String :=
  let stages := s.stages.map fun (stage, time) =>
    stage.name ++ " time: " ++ showDuration time ++ "\n"
  String.join stages
    ++ "Total time: " ++ showDuration s.totalTime ++ "\nTokens: " ++ toString s.tokens
    ++ "\nFunctions: " ++ toString s.functions ++ "\nInstructions: " ++ toString s.instructions

end Statistics

end RegionCompiler
