import RegionCompiler.Layout
import RegionCompiler.Machine.Instr

/-! Moves of values between memory and the stack of values. A value takes a slot of its size
rounded up to sixteen bytes, so that the stack stays aligned. -/
namespace RegionCompiler.Codegen

open Machine Machine.Instr

/-- The slot of a value of the given size. -/
def slot (size : Nat) : Nat := alignUp size 16

def lower (bytes : Nat) : Code :=
  if bytes = 0 then [] else [.binary .sub Register.rsp (.immediate bytes)]

def raise (bytes : Nat) : Code :=
  if bytes = 0 then [] else [.binary .add Register.rsp (.immediate bytes)]

def top : Address := Address.stack 0

/-- A new slot that holds `rax`. -/
def pushRax : Code := lower 16 ++ [mov top Register.rax]

def popRax : Code := [mov Register.rax top] ++ raise 16

def pushImmediate (value : Int) : Code := [movImm Register.rax value] ++ pushRax

/-- The widest chunks that make up a number of bytes, with their offsets. -/
def chunks (size : Nat) : List (Nat × Width) :=
  (List.range (size / 8)).map (fun i => (8 * i, .qword))
    ++ (if 4 ≤ size % 8 then [(size / 8 * 8, .dword)] else [])
    ++ (if 2 ≤ size % 4 then [(size / 4 * 4, .word)] else [])
    ++ (if size % 2 = 1 then [(size / 2 * 2, .byte)] else [])

theorem flatMap_chunks (size : Nat) :
    (chunks size).flatMap (fun c => List.range' c.1 c.2.bytes) = List.range size := by
  have join : ∀ {start n m next : Nat}, next = start + n →
      List.range' start n ++ List.range' next m = List.range' start (n + m) := by
    intro start n m next h
    rw [h, List.range'_append_1]
  have hq : ∀ n, ((List.range n).map fun i => ((8 * i, Width.qword) : Nat × Width)).flatMap
      (fun c => List.range' c.1 c.2.bytes) = List.range' 0 (8 * n) := by
    intro n
    induction n with
    | zero => rfl
    | succ n ih =>
      rw [List.range_succ, List.map_append, List.flatMap_append, ih]
      simpa [Width.bytes, Nat.mul_succ] using join (by omega)
  have hd : (if 4 ≤ size % 8 then [(size / 8 * 8, Width.dword)] else []).flatMap
      (fun c => List.range' c.1 c.2.bytes) = List.range' (size / 8 * 8) (size % 8 / 4 * 4) := by
    split
    · simp [Width.bytes, show size % 8 / 4 = 1 by omega]
    · simp [show size % 8 / 4 = 0 by omega]
  have hw : (if 2 ≤ size % 4 then [(size / 4 * 4, Width.word)] else []).flatMap
      (fun c => List.range' c.1 c.2.bytes) = List.range' (size / 4 * 4) (size % 4 / 2 * 2) := by
    split
    · simp [Width.bytes, show size % 4 / 2 = 1 by omega]
    · simp [show size % 4 / 2 = 0 by omega]
  have hb : (if size % 2 = 1 then [(size / 2 * 2, Width.byte)] else []).flatMap
      (fun c => List.range' c.1 c.2.bytes) = List.range' (size / 2 * 2) (size % 2) := by
    split
    · simp [Width.bytes, show size % 2 = 1 by omega]
    · simp [show size % 2 = 0 by omega]
  simp only [chunks, List.flatMap_append, hq, hd, hw, hb]
  rw [join (by omega), join (by omega), join (by omega), List.range_eq_range']
  congr 1
  omega

/-- Copies bytes through `r11`. -/
def copy (dst src : Address) (size : Nat) : Code :=
  (chunks size).flatMap fun (offset, width) =>
    [mov (.register .r11 width) (.memory width (src.offset offset)),
      mov (.memory width (dst.offset offset)) (.register .r11 width)]

/-- Fills quadwords with zeros. -/
def zero (dst : Address) (size : Nat) : Code :=
  (List.range ((size + 7) / 8)).map fun i => movImm (dst.offset (8 * i)) 0

/-- Moves the bytes of a slot at the top up over the bytes to be dropped. The highest go first,
since the two places may overlap. -/
def collapse (slot drop : Nat) : Code :=
  if drop = 0 then []
  else
    (List.range ((slot + 7) / 8)).reverse.flatMap (fun i =>
      [mov Register.r11 (Address.stack (8 * i)),
        mov (Address.stack (8 * i + drop)) Register.r11])
      ++ raise drop

/-- Loads an integer and extends it to all of the register. -/
def loadSized (r : Register) (address : Address) (size : Nat) (signed : Bool) : Instr :=
  match size, signed with
  | 1, _ => .movzx r .byte address
  | 2, _ => .movzx r .word address
  | 4, true => .movsxd r address
  | 4, false => mov (.register r .dword) (.memory .dword address)
  | _, _ => mov r address

/-- The only narrow type with a sign is `i32`. -/
def loadInteger (r : Register) (address : Address) (size : Nat) (ty : Ty) : Instr :=
  loadSized r address size (ty.isPlain "i32")

end RegionCompiler.Codegen
