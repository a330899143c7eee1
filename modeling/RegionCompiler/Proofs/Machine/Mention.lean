import RegionCompiler.Collector

/-! What instructions mention: the names they define and refer to, and the numbers that have to fit
into four bytes of machine code. -/
namespace RegionCompiler.Machine

section Names

def Address.symbols (a : Address) : List String :=
  match a.base with
  | .register _ => []
  | .symbol name => [name]

def Operand.symbols : Operand → List String
  | .memory _ a => a.symbols
  | .register _ _ | .immediate _ => []

def Target.symbols : Target → List String
  | .label _ => []
  | .symbol name => [name]

namespace Instr

/-- The symbols that an instruction calls, jumps to or addresses. -/
def symbols : Instr → List String
  | .binary _ dst src => dst.symbols ++ src.symbols
  | .unary _ operand => operand.symbols
  | .lea _ a | .movsxd _ a | .movzx _ _ a | .btc _ a _ | .loadFloat _ _ a | .storeFloat _ a _ =>
    a.symbols
  | .call name => [name]
  | .jmp t | .jcc _ t => t.symbols
  | _ => []

/-- The numbered label that stands here. -/
def label? : Instr → Option Label
  | .label l => some l
  | _ => none

/-- The symbol that stands here. -/
def symbol? : Instr → Option String
  | .symbol name => some name
  | _ => none

/-- The numbered label that an instruction may jump to. -/
def jumpsTo? : Instr → Option Label
  | .jmp (.label l) | .jcc _ (.label l) => some l
  | _ => none

/-- The name that an instruction gives to its place. -/
def defines? : Instr → Option String
  | .label l => some l.text
  | .symbol name => some name
  | _ => none

end Instr

/-- The name of the function or routine that a place in the code belongs to: the last symbol up to
there. -/
def owner? (code : Code) (i : Nat) : Option String :=
  ((code.take (i + 1)).filterMap Instr.symbol?).getLast?

/-- The labels that stand before data or behind it. -/
def DataItem.labels : DataItem → List String
  | .bytes label _ | .quads label _ | .reserve label _ => [label]
  | .file label _ stop => [label, stop]

namespace Assembly

def items (a : Assembly) : List DataItem := a.readOnly ++ a.data ++ a.zeroed

/-- All names that a unit defines, as often as it defines them. -/
def definitions (a : Assembly) : List String :=
  a.code.filterMap Instr.defines? ++ a.items.flatMap DataItem.labels

end Assembly

end Names

section Numbers

def Address.numbers (a : Address) : List Int := [a.displacement]

def Operand.numbers : Operand → List Int
  | .memory _ a => a.numbers
  | .immediate value => [value]
  | .register _ _ => []

/-- The displacements and immediate operands of an instruction. What is moved to all of a register
can take eight bytes and is left out. -/
def Instr.numbers : Instr → List Int
  | .binary .mov (.register _ .qword) (.immediate _) => []
  | .binary _ dst src => dst.numbers ++ src.numbers
  | .unary _ operand => operand.numbers
  | .lea _ a | .movsxd _ a | .movzx _ _ a | .loadFloat _ _ a | .storeFloat _ a _ => a.numbers
  | .btc _ a bit => a.numbers ++ [(bit : Int)]
  | _ => []

end Numbers

end RegionCompiler.Machine

namespace RegionCompiler.Collector

open Machine

/-- The names that the collector brings into a program, with those of the C functions. -/
def names : List String :=
  [pushSymbol, enterSymbol, exitSymbol, releaseSymbol, adoptSymbol, collectSymbol, memoryTrap,
    boundsTrap, entriesSymbol, lengthSymbol, capacitySymbol, movedSymbol] ++ cFunctions

end RegionCompiler.Collector

namespace RegionCompiler.Machine

/-- Instructions that are the same in all programs, but for the bits of a literal: they refer to the
collector alone, and their numbers are small. -/
def Instr.isFixed (i : Instr) : Bool :=
  i.symbols.all Collector.names.contains && i.label?.isNone && i.symbol?.isNone && i.jumpsTo?.isNone
    && i.numbers.all (·.natAbs ≤ 64)

end RegionCompiler.Machine
