import RegionCompiler.Machine.Instr
import RegionCompiler.Platform

/-! A unit of assembly text: external names, code and data. -/
namespace RegionCompiler.Machine

/-- Labelled data. -/
inductive DataItem
  | bytes (label : String) (values : List Nat)
  /-- Quadwords given as expressions over labels. -/
  | quads (label : String) (values : List String)
  /-- The contents of a file, with a label behind them. -/
  | file (label path stop : String)
  /-- Quadwords of zeros. -/
  | reserve (label : String) (count : Nat)
deriving DecidableEq

namespace DataItem

/-- No bytes at all are written as a zero, so that the label has a place of its own. -/
def lines : DataItem → List String
  | .bytes label [] => [label ++ ": db 0"]
  | .bytes label values => [label ++ ": db " ++ ", ".intercalate (values.map toString)]
  | .quads label values => [label ++ ": dq " ++ ", ".intercalate values]
  | .file label path stop =>
    [label ++ ": incbin \"" ++ path.map (fun c => if c = '\\' then '/' else c) ++ "\"", stop ++ ":"]
  | .reserve label count => [label ++ ": resq " ++ toString count]

end DataItem

structure Assembly where
  platform : Platform
  /-- Names defined elsewhere, each once. -/
  externs : List String
  code : Code
  readOnly : List DataItem
  data : List DataItem
  /-- Data that starts as zeros. -/
  zeroed : List DataItem

namespace Assembly

def empty (platform : Platform) : Assembly := ⟨platform, [], [], [], [], []⟩

def addExtern (a : Assembly) (name : String) : Assembly :=
  if a.externs.contains name then a else { a with externs := a.externs ++ [name] }

theorem mem_externs_addExtern (a : Assembly) (name other : String) :
    other ∈ (a.addExtern name).externs ↔ other ∈ a.externs ∨ other = name := by
  unfold addExtern
  split
  · rename_i h
    exact ⟨Or.inl, fun h' => h'.elim id fun e => e ▸ List.contains_iff_mem.1 h⟩
  · simp

def instructionCount (a : Assembly) : Nat :=
  a.code.countP Instr.isExecutable

/-- Labels and symbols stand at the margin. -/
def codeLine (i : Instr) : String :=
  match i with
  | .label _ | .symbol _ => i.text
  | _ => "    " ++ i.text

/-- The sections of data that hold something, by name. Data is aligned, since it holds quadwords
that point at other data. -/
def sections (a : Assembly) : List (String × List String) :=
  [(a.platform.system.readOnlySection, a.readOnly), (".data", a.data), (".bss", a.zeroed)].filterMap
    fun (name, items) =>
      if items.isEmpty then none else some (name, "align 8" :: items.flatMap DataItem.lines)

def lines (a : Assembly) : List String :=
  ["bits 64", "default rel", ""] ++ a.externs.map ("extern " ++ ·)
    ++ ["", "global main", "", "section .text"] ++ a.code.map codeLine
    ++ a.sections.flatMap fun (name, lines) => ["", "section " ++ name] ++ lines

def text (a : Assembly) : String :=
  String.join (a.lines.map (· ++ "\n"))

end Assembly

end RegionCompiler.Machine
