import RegionCompiler.Machine.Register

/-! Instructions of the target, as far as programs need them, and their text. Comments, labels
and symbols stand among them. -/
namespace RegionCompiler.Machine

/-- A numbered jump target. -/
structure Label where
  number : Nat
deriving DecidableEq

def Label.text (l : Label) : String := "_L" ++ toString l.number

inductive Target
  | label (l : Label)
  | symbol (name : String)
deriving DecidableEq

def Target.text : Target → String
  | .label l => l.text
  | .symbol name => name

inductive Base
  | register (r : Register)
  /-- A place in the program, relative to the instruction. -/
  | symbol (name : String)
deriving DecidableEq

/-- A number as a word with a sign, which is how it is written. -/
def signed (v : Int) : Int := v.bmod 0x10000000000000000

structure Address where
  base : Base
  index : Option (Register × Nat)
  displacement : Int
deriving DecidableEq

namespace Address

def at_ (r : Register) (displacement : Int) : Address := ⟨.register r, none, displacement⟩

def ofSymbol (name : String) : Address := ⟨.symbol name, none, 0⟩

/-- A place in the values on the stack. -/
def stack (offset : Nat) : Address := at_ .rsp offset

/-- A place in the frame of a function. -/
def frame (displacement : Int) : Address := at_ .rbp displacement

/-- The element with the given index in an array of quadwords. -/
def entry (base index : Register) (displacement : Int) : Address :=
  ⟨.register base, some (index, 8), displacement⟩

def offset (a : Address) (bytes : Nat) : Address :=
  { a with displacement := a.displacement + bytes }

@[simp] theorem offset_zero (a : Address) : a.offset 0 = a := by
  simp [offset]

@[simp] theorem offset_offset (a : Address) (m n : Nat) :
    (a.offset m).offset n = a.offset (m + n) := by
  simp [offset, Int.add_assoc]

def text (a : Address) : String :=
  let base := match a.base with
    | .register r => r.text
    | .symbol name => "rel " ++ name
  let index := match a.index with
    | none => ""
    | some (r, scale) => " + " ++ r.text ++ (if scale = 1 then "" else " * " ++ toString scale)
  let displacement :=
    if signed a.displacement = 0 then ""
    else if signed a.displacement < 0 then " - " ++ toString (signed a.displacement).natAbs
    else " + " ++ toString (signed a.displacement).natAbs
  "[" ++ base ++ index ++ displacement ++ "]"

/-- Whether a displacement can be counted. Those in the frame of a function are sums of words with a
sign: from the locals up to the base pointer, and sixteen bytes more than the place of an argument.
All others are words without a sign. -/
def isCounted (a : Address) : Bool :=
  match a.base with
  | .register .rbp => -0x8000000000000000 < a.displacement &&
    (a.displacement < 0x8000000000000000 || 0x8000000000000010 ≤ a.displacement)
  | _ => a.displacement < 0x10000000000000000

end Address

inductive Operand
  | register (r : Register) (width : Width)
  | memory (width : Width) (address : Address)
  | immediate (value : Int)
deriving DecidableEq

namespace Operand

def text : Operand → String
  | .register r width => r.name width
  | .memory width address => width.keyword ++ " " ++ address.text
  | .immediate value => toString (signed value)

def isCounted : Operand → Bool
  | .register _ _ => true
  | .memory _ address => address.isCounted
  | .immediate value => value < 0x10000000000000000

end Operand

/-- Lets a register stand for all of its bytes. -/
instance : Coe Register Operand := ⟨fun r => .register r .qword⟩

/-- Lets an address stand for the eight bytes there. -/
instance : Coe Address Operand := ⟨fun a => .memory .qword a⟩

inductive Condition
  | equal
  | notEqual
  | greater
  | greaterOrEqual
  | less
  | lessOrEqual
  | above
  | aboveOrEqual
  | below
  | belowOrEqual
  | overflow
  /-- A floating-point comparison met a NaN. -/
  | unordered
deriving DecidableEq

def Condition.text : Condition → String
  | .equal => "e"
  | .notEqual => "ne"
  | .greater => "g"
  | .greaterOrEqual => "ge"
  | .less => "l"
  | .lessOrEqual => "le"
  | .above => "a"
  | .aboveOrEqual => "ae"
  | .below => "b"
  | .belowOrEqual => "be"
  | .overflow => "o"
  | .unordered => "p"

/-- Instructions with a destination and a source of integers. -/
inductive BinaryInstr
  | mov
  | add
  | sub
  | imul
  | and_
  | or_
  | xor_
  | cmp
  | test
deriving DecidableEq

def BinaryInstr.text : BinaryInstr → String
  | .mov => "mov"
  | .add => "add"
  | .sub => "sub"
  | .imul => "imul"
  | .and_ => "and"
  | .or_ => "or"
  | .xor_ => "xor"
  | .cmp => "cmp"
  | .test => "test"

inductive UnaryInstr
  | neg
  | not_
  | inc
  | dec
  | idiv
  | div
deriving DecidableEq

def UnaryInstr.text : UnaryInstr → String
  | .neg => "neg"
  | .not_ => "not"
  | .inc => "inc"
  | .dec => "dec"
  | .idiv => "idiv"
  | .div => "div"

inductive Precision
  | single
  | double
deriving DecidableEq

namespace Precision

def suffix : Precision → String
  | .single => "ss"
  | .double => "sd"

def width : Precision → Width
  | .single => .dword
  | .double => .qword

end Precision

inductive FloatOp
  | add
  | sub
  | mul
  | div
deriving DecidableEq

def FloatOp.text : FloatOp → String
  | .add => "add"
  | .sub => "sub"
  | .mul => "mul"
  | .div => "div"

inductive Instr
  | comment (text : String)
  | label (l : Label)
  | symbol (name : String)
  | binary (op : BinaryInstr) (dst src : Operand)
  | unary (op : UnaryInstr) (operand : Operand)
  | lea (dst : Register) (address : Address)
  /-- Four bytes extended by their sign. -/
  | movsxd (dst : Register) (address : Address)
  /-- One or two bytes extended by zeros. -/
  | movzx (dst : Register) (width : Width) (address : Address)
  | cmov (condition : Condition) (dst src : Register)
  /-- Extends `rax` by its sign into `rdx`. -/
  | cqo
  /-- Flips one bit in memory. -/
  | btc (width : Width) (address : Address) (bit : Nat)
  | push (r : Register)
  | pop (r : Register)
  | call (symbol : String)
  | jmp (target : Target)
  | jcc (condition : Condition) (target : Target)
  | ret
  /-- Copies `rcx` bytes from where `rsi` points to where `rdi` points. -/
  | repMovsb
  | loadFloat (precision : Precision) (dst : Xmm) (address : Address)
  | storeFloat (precision : Precision) (address : Address) (src : Xmm)
  | floatBinary (op : FloatOp) (precision : Precision) (dst src : Xmm)
  | compareFloat (precision : Precision) (lhs rhs : Xmm)
  | intToFloat (precision : Precision) (dst : Xmm) (src : Register)
  /-- Rounds toward zero. -/
  | floatToInt (precision : Precision) (dst : Register) (src : Xmm)
  /-- Changes the precision from the given one to the other. -/
  | convertFloat (source : Precision) (dst src : Xmm)
deriving DecidableEq

abbrev Code := List Instr

namespace Instr

def mov (dst src : Operand) : Instr := .binary .mov dst src

def movImm (dst : Operand) (value : Int) : Instr := .binary .mov dst (.immediate value)

def jump (l : Label) : Instr := .jmp (.label l)

def jumpIf (condition : Condition) (l : Label) : Instr := .jcc condition (.label l)

/-- Whether an instruction becomes machine code. -/
def isExecutable : Instr → Bool
  | .comment _ | .label _ | .symbol _ => false
  | _ => true

/-- Whether the sizes and places in an instruction can be counted. Literals are words by nature, and
so is all that is moved to a register. -/
def isCounted : Instr → Bool
  | .binary .mov (.register _ _) (.immediate _) => true
  | .binary _ dst src => dst.isCounted && src.isCounted
  | .unary _ operand => operand.isCounted
  | .lea _ address | .movsxd _ address | .movzx _ _ address | .btc _ address _
  | .loadFloat _ _ address | .storeFloat _ address _ => address.isCounted
  | _ => true

private def two (op a b : String) : String := op ++ " " ++ a ++ ", " ++ b

def text : Instr → String
  | .comment text => "; " ++ text
  | .label l => l.text ++ ":"
  | .symbol name => name ++ ":"
  | .binary op dst src => two op.text dst.text src.text
  | .unary op operand => op.text ++ " " ++ operand.text
  | .lea dst address => two "lea" dst.text address.text
  | .movsxd dst address => two "movsxd" dst.text (Operand.memory .dword address).text
  | .movzx dst width address => two "movzx" (dst.name .dword) (Operand.memory width address).text
  | .cmov condition dst src => two ("cmov" ++ condition.text) dst.text src.text
  | .cqo => "cqo"
  | .btc width address bit => two "btc" (Operand.memory width address).text (toString bit)
  | .push r => "push " ++ r.text
  | .pop r => "pop " ++ r.text
  | .call name => "call " ++ name
  | .jmp target => "jmp " ++ target.text
  | .jcc condition target => "j" ++ condition.text ++ " " ++ target.text
  | .ret => "ret"
  | .repMovsb => "rep movsb"
  | .loadFloat p dst address =>
    two ("mov" ++ p.suffix) dst.text (Operand.memory p.width address).text
  | .storeFloat p address src =>
    two ("mov" ++ p.suffix) (Operand.memory p.width address).text src.text
  | .floatBinary op p dst src => two (op.text ++ p.suffix) dst.text src.text
  | .compareFloat p lhs rhs => two ("ucomi" ++ p.suffix) lhs.text rhs.text
  | .intToFloat p dst src => two ("cvtsi2" ++ p.suffix) dst.text src.text
  | .floatToInt p dst src => two ("cvtt" ++ p.suffix ++ "2si") dst.text src.text
  | .convertFloat .single dst src => two "cvtss2sd" dst.text src.text
  | .convertFloat .double dst src => two "cvtsd2ss" dst.text src.text

end Instr

end RegionCompiler.Machine
