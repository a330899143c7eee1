import RegionCompiler.Convention
import RegionCompiler.Machine.Assembly

/-! The region collector that every program carries. Pointers to the heap lie on a stack of
their own, where a marker starts each frame; leaving a frame frees what lies above its marker.
An entry that was collected by hand is zero. A pointer that a function returns leaves the frame
of the callee by `release` and joins that of the caller by `adopt`. -/
namespace RegionCompiler.Collector

open Machine Machine.Instr

def entriesSymbol : String := "gc$data"
def lengthSymbol : String := "gc$len"
def capacitySymbol : String := "gc$cap"
/-- Where a released pointer waits to be adopted. -/
def movedSymbol : String := "gc$moved"

def pushSymbol : String := "gc$push"
def enterSymbol : String := "gc$enter"
def exitSymbol : String := "gc$exit"
def releaseSymbol : String := "gc$release"
def adoptSymbol : String := "gc$adopt"
def collectSymbol : String := "gc$collect"

def memoryTrap : String := "err$oom"
def boundsTrap : String := "err$bounds"

/-- The C functions that programs rely on. -/
def cFunctions : List String := ["calloc", "realloc", "free", "exit"]

def marker : Int := -1
def initialCapacity : Int := 16
def memoryExitCode : Int := 12
def boundsExitCode : Int := 13

def entries : Operand := Address.ofSymbol entriesSymbol
def length : Operand := Address.ofSymbol lengthSymbol
def capacity : Operand := Address.ofSymbol capacitySymbol
def moved : Operand := Address.ofSymbol movedSymbol

/-- Calls a C function with integer arguments that lie in no argument register. The stack must be
aligned. -/
def callC (platform : Platform) (symbol : String) (arguments : List Operand) : Code :=
  let moves := (platform.convention.argumentRegisters.zip arguments).map fun (r, a) => mov r a
  if platform.isWindows then
    moves ++ [.binary .sub Register.rsp (.immediate 32), .call symbol,
      .binary .add Register.rsp (.immediate 32)]
  else moves ++ [.call symbol]

/-- Stops the program when an allocation gave nothing. -/
def checkAllocation : Code :=
  [.binary .test Register.rax Register.rax, .jcc .equal (.symbol memoryTrap)]

def prologue : Code := [.push .rbp, mov Register.rbp Register.rsp]

def epilogue : Code := [mov Register.rsp Register.rbp, .pop .rbp, .ret]

/-- What C calls. The result of the program becomes its exit code, extended by the rule for its
size. Programs use `rsi` and `rdi` freely, but the caller may rely on them. -/
def entryPoint (resultSize : Nat) : Code :=
  let top := Address.stack 0
  [.comment "entry point", .symbol "main"] ++ prologue ++ [.push .rsi, .push .rdi]
    ++ (if resultSize = 0 then [] else [.binary .sub Register.rsp (.immediate 16)])
    ++ [.call "fn_main"]
    ++ [match resultSize with
        | 0 => .binary .xor_ (.register .rax .dword) (.register .rax .dword)
        | 1 => .movzx .rax .byte top
        | 4 => .movsxd .rax top
        | _ => mov Register.rax top]
    ++ [.lea .rsp (Address.frame (-16)), .pop .rdi, .pop .rsi, .pop .rbp, .ret]

/-- Appends `rax` and keeps it. A full stack doubles first. -/
def push (platform : Platform) (store : Label) : Code :=
  [.symbol pushSymbol] ++ prologue
    ++ [.push .rax,
      .binary .sub Register.rsp (.immediate 8),
      mov Register.rcx length,
      .binary .cmp Register.rcx capacity,
      jumpIf .below store,
      mov Register.rdx capacity,
      .binary .add Register.rdx Register.rdx,
      movImm Register.r10 initialCapacity,
      .binary .test Register.rdx Register.rdx,
      .cmov .equal .rdx .r10,
      mov capacity Register.rdx,
      mov Register.r11 Register.rdx,
      .binary .imul Register.r11 (.immediate 8),
      mov Register.r10 entries]
    ++ callC platform "realloc" [Register.r10, Register.r11]
    ++ checkAllocation
    ++ [mov entries Register.rax,
      .label store,
      mov Register.rcx entries,
      mov Register.rdx length,
      mov Register.rax (Address.frame (-8)),
      mov (Address.entry .rcx .rdx 0) Register.rax,
      .unary .inc length]
    ++ epilogue

/-- Opens a frame. -/
def enter : Code :=
  [.symbol enterSymbol] ++ prologue
    ++ [movImm Register.rax marker, .call pushSymbol]
    ++ epilogue

/-- Frees the entries of the innermost frame and takes its marker away. -/
def exit (platform : Platform) (next done : Label) : Code :=
  [.symbol exitSymbol] ++ prologue
    ++ [.label next,
      mov Register.rcx length,
      .binary .test Register.rcx Register.rcx,
      jumpIf .equal done,
      .unary .dec Register.rcx,
      mov length Register.rcx,
      mov Register.rdx entries,
      mov Register.rax (Address.entry .rdx .rcx 0),
      .binary .cmp Register.rax (.immediate marker),
      jumpIf .equal done,
      .binary .test Register.rax Register.rax,
      jumpIf .equal next,
      mov Register.r10 Register.rax]
    ++ callC platform "free" [Register.r10]
    ++ [jump next, .label done]
    ++ epilogue

/-- Takes `rax` away without freeing it, if it is the newest entry. -/
def release (done : Label) : Code :=
  [.symbol releaseSymbol,
    movImm moved 0,
    mov Register.rcx length,
    .binary .test Register.rcx Register.rcx,
    jumpIf .equal done,
    mov Register.rdx entries,
    .binary .cmp Register.rax (Address.entry .rdx .rcx (-8)),
    jumpIf .notEqual done,
    .unary .dec length,
    mov moved Register.rax,
    .label done,
    .ret]

/-- Appends the pointer that was released last, if there is one. -/
def adopt (done : Label) : Code :=
  [.symbol adoptSymbol,
    mov Register.rax moved,
    .binary .test Register.rax Register.rax,
    jumpIf .equal done,
    movImm moved 0,
    .jmp (.symbol pushSymbol),
    .label done,
    .ret]

/-- Frees `rax` and makes its newest entry zero. -/
def collect (platform : Platform) (search free : Label) : Code :=
  [.symbol collectSymbol] ++ prologue
    ++ [mov Register.rcx length,
      mov Register.rdx entries,
      .label search,
      .binary .test Register.rcx Register.rcx,
      jumpIf .equal free,
      .unary .dec Register.rcx,
      .binary .cmp Register.rax (Address.entry .rdx .rcx 0),
      jumpIf .notEqual search,
      movImm (Address.entry .rdx .rcx 0) 0,
      .label free,
      mov Register.r10 Register.rax]
    ++ callC platform "free" [Register.r10]
    ++ epilogue

/-- Ends the program from any state of the stack. -/
def trap (platform : Platform) (symbol : String) (exitCode : Int) : Code :=
  [.symbol symbol, .binary .and_ Register.rsp (.immediate (-16))]
    ++ callC platform "exit" [.immediate exitCode]

/-- How many labels the routines use, counted from one. -/
def labelCount : Nat := 7

/-- All of the routines, behind the entry point of the program. -/
def code (platform : Platform) (resultSize : Nat) : Code :=
  entryPoint resultSize
    ++ push platform ⟨1⟩
    ++ enter
    ++ exit platform ⟨2⟩ ⟨3⟩
    ++ release ⟨4⟩
    ++ adopt ⟨5⟩
    ++ collect platform ⟨6⟩ ⟨7⟩
    ++ trap platform memoryTrap memoryExitCode
    ++ trap platform boundsTrap boundsExitCode

def state : List DataItem :=
  [entriesSymbol, lengthSymbol, capacitySymbol, movedSymbol].map (.reserve · 1)

end RegionCompiler.Collector
