/-! Registers of the target and the names of their low parts. -/
namespace RegionCompiler.Machine

inductive Register
  | rax
  | rbx
  | rcx
  | rdx
  | rsi
  | rdi
  | rbp
  | rsp
  | r8
  | r9
  | r10
  | r11
  | r12
  | r13
  | r14
  | r15
deriving DecidableEq

inductive Width
  | byte
  | word
  | dword
  | qword
deriving DecidableEq

namespace Width

def bytes : Width → Nat
  | .byte => 1
  | .word => 2
  | .dword => 4
  | .qword => 8

def keyword : Width → String
  | .byte => "byte"
  | .word => "word"
  | .dword => "dword"
  | .qword => "qword"

end Width

/-- The names of the legacy registers end in two common letters. -/
private def legacyName (letters : String) : Width → String
  | .qword => "r" ++ letters
  | .dword => "e" ++ letters
  | .word => letters
  | .byte => letters ++ "l"

/-- The registers `a` to `d` drop the `x` for their lowest byte. -/
private def letterName (letter : String) : Width → String
  | .byte => letter ++ "l"
  | w => legacyName (letter ++ "x") w

private def numberedName (name : String) : Width → String
  | .qword => name
  | .dword => name ++ "d"
  | .word => name ++ "w"
  | .byte => name ++ "b"

namespace Register

def name : Register → Width → String
  | .rax => letterName "a"
  | .rbx => letterName "b"
  | .rcx => letterName "c"
  | .rdx => letterName "d"
  | .rsi => legacyName "si"
  | .rdi => legacyName "di"
  | .rbp => legacyName "bp"
  | .rsp => legacyName "sp"
  | .r8 => numberedName "r8"
  | .r9 => numberedName "r9"
  | .r10 => numberedName "r10"
  | .r11 => numberedName "r11"
  | .r12 => numberedName "r12"
  | .r13 => numberedName "r13"
  | .r14 => numberedName "r14"
  | .r15 => numberedName "r15"

def text (r : Register) : String := r.name .qword

end Register

/-- A vector register. -/
structure Xmm where
  index : Nat
deriving DecidableEq

def Xmm.text (x : Xmm) : String := "xmm" ++ toString x.index

end RegionCompiler.Machine
