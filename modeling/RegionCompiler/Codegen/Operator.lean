import RegionCompiler.Codegen.Gen
import RegionCompiler.Codegen.Move

/-! Code of the operators, on values that lie on the stack. -/
namespace RegionCompiler.Codegen

open Machine Machine.Instr

/-- The bits of an integer literal under its type. -/
def integerBits (ty : Ty) (value : Nat) : Int :=
  match ty.precision? with
  | some .single => Number.Format.binary32.ofRatio value 1
  | some .double => Number.Format.binary64.ofRatio value 1
  | none => (value : Int).bmod UInt64.size

/-- The bits of a floating-point literal, given as those of a double, under its type. -/
def floatBits (ty : Ty) (bits : UInt64) : Int :=
  match ty.precision? with
  | some .single => Number.Format.binary64.convert .binary32 bits.toNat
  | _ => (bits.toNat : Int).bmod UInt64.size

/-- Changes the value at the top. -/
def unaryCode (op : UnaryOp) (ty : Ty) : Code :=
  match op with
  | .not_ =>
    if ty.isPlain "bool" then [.binary .xor_ top (.immediate 1)] else [.unary .not_ top]
  | .negate =>
    match ty.precision? with
    | some .single => [.btc .dword top 31]
    | some .double => [.btc .qword top 63]
    | none => [.unary .neg top]
  | .release => [mov Register.rax top, .call Collector.releaseSymbol]

/-- Leaves the quotient of `rax` and `rcx` in `rax` and the remainder in `rdx`. -/
def division (unsigned : Bool) : Code :=
  if unsigned then
    [.binary .xor_ (.register .rdx .dword) (.register .rdx .dword), .unary .div Register.rcx]
  else [.cqo, .unary .idiv Register.rcx]

/-- Makes `rax` one if the condition holds, or else zero. -/
def setIf (condition : Condition) (done : Label) : Code :=
  [movImm Register.rax 1, jumpIf condition done, movImm Register.rax 0, .label done]

def compareCode (condition : Condition) : Gen Code := do
  let done ← freshLabel
  return [.binary .cmp Register.rax Register.rcx] ++ setIf condition done

/-- The remainder takes the sign of the divisor: one of the other sign, unless it is zero, moves
by one divisor. -/
def flooredModulo (unsigned : Bool) : Gen Code := do
  let done ← freshLabel
  return division unsigned
    ++ [mov Register.rax Register.rdx,
      .binary .test Register.rdx Register.rdx,
      jumpIf .equal done,
      .binary .xor_ Register.rdx Register.rcx,
      jumpIf .greaterOrEqual done,
      .binary .add Register.rax Register.rcx,
      .label done]

/-- An operator on `rax` and `rcx`, with its result in `rax`. -/
def integerOperation (unsigned : Bool) : BinaryOp → Gen Code
  | .add => return [.binary .add Register.rax Register.rcx]
  | .subtract => return [.binary .sub Register.rax Register.rcx]
  | .multiply => return [.binary .imul Register.rax Register.rcx]
  | .and_ => return [.binary .and_ Register.rax Register.rcx]
  | .or_ => return [.binary .or_ Register.rax Register.rcx]
  | .xor_ => return [.binary .xor_ Register.rax Register.rcx]
  | .divide => return division unsigned
  | .modulo => return division unsigned ++ [mov Register.rax Register.rdx]
  | .flooredModulo => flooredModulo unsigned
  | .equal => compareCode .equal
  | .notEqual => compareCode .notEqual
  | .less => compareCode (if unsigned then .below else .less)
  | .lessOrEqual => compareCode (if unsigned then .belowOrEqual else .lessOrEqual)
  | .greater => compareCode (if unsigned then .above else .greater)
  | .greaterOrEqual => compareCode (if unsigned then .aboveOrEqual else .greaterOrEqual)

/-- Operands below the top and at the top give way to the result. -/
def integerBinary (op : BinaryOp) (lhs rhs : Ty) (lhsSize rhsSize : Nat) : Gen Code := do
  let operation ← integerOperation (!(lhs.isPlain "int" || lhs.isPlain "i32")) op
  return [loadInteger .rax (Address.stack 16) lhsSize lhs, loadInteger .rcx top rhsSize rhs]
    ++ raise 16 ++ operation ++ [mov top Register.rax]

def floatArithmetic (op : FloatOp) (precision : Precision) : Code :=
  [.floatBinary op precision ⟨0⟩ ⟨1⟩, .storeFloat precision top ⟨0⟩]

/-- Flags are those of an unsigned comparison; what holds of a NaN is given apart. -/
def floatCompare (precision : Precision) (condition : Condition) (unordered : Int) : Gen Code := do
  let done ← freshLabel
  return [.compareFloat precision ⟨0⟩ ⟨1⟩, movImm Register.rax unordered, jumpIf .unordered done]
    ++ setIf condition done ++ [mov top Register.rax]

def floatOperation (precision : Precision) : BinaryOp → Gen Code
  | .add => return floatArithmetic .add precision
  | .subtract => return floatArithmetic .sub precision
  | .multiply => return floatArithmetic .mul precision
  | .divide => return floatArithmetic .div precision
  | .equal => floatCompare precision .equal 0
  | .notEqual => floatCompare precision .notEqual 1
  | .less => floatCompare precision .below 0
  | .lessOrEqual => floatCompare precision .belowOrEqual 0
  | .greater => floatCompare precision .above 0
  | .greaterOrEqual => floatCompare precision .aboveOrEqual 0
  | op => throw (.undefinedOnFloats op)

def floatBinary (op : BinaryOp) (precision : Precision) : Gen Code := do
  let operation ← floatOperation precision op
  return [.loadFloat precision ⟨0⟩ (Address.stack 16), .loadFloat precision ⟨1⟩ top]
    ++ raise 16 ++ operation

/-- Converts the value at the top; `size` is that of the type it has. -/
def conversionCode (source target : Ty) (size : Nat) : Code :=
  match source.precision?, target.precision? with
  | none, none => [loadInteger .rax top size source, mov top Register.rax]
  | none, some p =>
    [loadInteger .rax top size source, .intToFloat p ⟨0⟩ .rax, .storeFloat p top ⟨0⟩]
  | some p, none => [.loadFloat p ⟨0⟩ top, .floatToInt p .rax ⟨0⟩, mov top Register.rax]
  | some p, some q =>
    if p = q then [] else [.loadFloat p ⟨0⟩ top, .convertFloat p ⟨0⟩ ⟨0⟩, .storeFloat q top ⟨0⟩]

end RegionCompiler.Codegen
