/-! How a program ended, and what is said about it. -/
namespace RegionCompiler

/-- What the number of a signal means. -/
def signalText : Int → String
  | 1 => "terminal line hangup"
  | 2 => "interrupt program"
  | 3 => "quit program"
  | 4 => "illegal instruction"
  | 5 => "trace trap"
  | 6 => "abort program"
  | 7 => "bus error"
  | 8 => "floating-point exception, such as a division by zero"
  | 9 => "kill program"
  | 10 => "User defined signal 1"
  | 11 => "segmentation violation, such as a null pointer dereference"
  | 12 => "User defined signal 2"
  | 13 => "write on a pipe with no reader"
  | 14 => "real-time timer expired"
  | 15 => "software termination signal"
  | n => "unknown signal " ++ toString n

/-- The exit code of a program that crashed on Windows. -/
structure NtStatus where
  code : UInt32
deriving DecidableEq

namespace NtStatus

/-- Whether a code tells of a crash, and is no value that the program returned. -/
def isError (s : NtStatus) : Bool := s.code &&& 0xC0000000 == 0xC0000000

def text (s : NtStatus) : String :=
  if s.code = 0xC0000005 then "access violation, such as a null pointer dereference"
  else if s.code = 0xC0000094 then "integer division by zero"
  else if s.code = 0xC0000095 then "integer overflow in a division"
  else if s.code = 0xC00000FD then "stack overflow"
  else "exit code 0x" ++ String.ofList ((Nat.toDigits 16 s.code.toNat).map Char.toUpper)

end NtStatus

/-- How a program ended. -/
structure Outcome where
  exitCode : Option Nat
  /-- Why it ended without an exit code of its own. -/
  abnormal : Option String
deriving DecidableEq

namespace Outcome

def exited (code : Nat) : Outcome := ⟨some (code % 256), none⟩

def killed (signal : Nat) : Outcome := ⟨none, some (signalText signal)⟩

/-- The meaning of a wait status: the low bits hold a signal, those above them an exit code. A
program that was only stopped has neither. -/
def ofWaitStatus (status : Int) : Outcome :=
  let signal := (status % 128).toNat
  if signal = 0 then exited (status / 256 % 256).toNat
  else if signal = 127 then ⟨none, none⟩
  else killed signal

end Outcome

end RegionCompiler
