import RegionCompiler.Ty

/-! Sizes, alignments and register classes of types. Members of a record stand in the order of
their declaration, each at the next multiple of its alignment. Arrays are a pointer and a
length, whatever their elements are. -/
namespace RegionCompiler

/-- The least multiple of the alignment that is not below the value. -/
def alignUp (value alignment : Nat) : Nat :=
  if alignment ≤ 1 then value else (value + alignment - 1) / alignment * alignment

theorem le_alignUp (value alignment : Nat) : value ≤ alignUp value alignment := by
  unfold alignUp
  split
  · exact Nat.le_refl _
  · have h := Nat.div_add_mod (value + alignment - 1) alignment
    have hm := Nat.mod_lt (value + alignment - 1) (y := alignment) (by omega)
    rw [Nat.mul_comm] at h
    omega

theorem dvd_alignUp {value alignment : Nat} (h : 0 < alignment) :
    alignment ∣ alignUp value alignment := by
  unfold alignUp
  split
  · have : alignment = 1 := by omega
    simp [this]
  · exact Nat.dvd_mul_left _ _

theorem alignUp_lt {value alignment : Nat} (h : 0 < alignment) :
    alignUp value alignment < value + alignment := by
  unfold alignUp
  split
  · omega
  · have h := Nat.div_mul_le_self (value + alignment - 1) alignment
    omega

/-- Sizes are words of 64 bits; what does not fit into one cannot be counted. -/
def wordLimit : Nat := 0x10000000000000000

/-- How eight bytes of a value travel. -/
inductive EightbyteClass
  | sse
  | integer
  | memory
deriving DecidableEq

namespace EightbyteClass

def name : EightbyteClass → String
  | .sse => "SSE"
  | .integer => "INTEGER"
  | .memory => "MEMORY"

/-- The class of eight bytes that hold values of two classes. -/
def merge : EightbyteClass → EightbyteClass → EightbyteClass
  | .memory, _ | _, .memory => .memory
  | .integer, _ | _, .integer => .integer
  | .sse, .sse => .sse

end EightbyteClass

/-- A value without parts, by its offset and class. -/
structure Leaf where
  offset : Nat
  kind : EightbyteClass
deriving DecidableEq

def Leaf.shift (n : Nat) (l : Leaf) : Leaf :=
  { l with offset := n + l.offset }

structure LayoutMember where
  name : String
  ty : Ty
  offset : Nat

structure Layout where
  size : Nat
  alignment : Nat
  members : List LayoutMember
  /-- A class for each eight bytes, or `memory` alone. -/
  classes : List EightbyteClass
  /-- The parts of a value of at most sixteen bytes. -/
  leaves : List Leaf

namespace Layout

def primitive (size : Nat) (kind : EightbyteClass) : Layout where
  size := size
  alignment := max size 1
  members := []
  classes := [kind]
  leaves := if size = 0 then [] else [⟨0, kind⟩]

def pointer : Layout := primitive 8 .integer

def array : Layout where
  size := 16
  alignment := 8
  members := [⟨"ptr", .pointer Ty.void, 0⟩, ⟨"len", Ty.int, 8⟩]
  classes := [.integer, .integer]
  leaves := [⟨0, .integer⟩, ⟨8, .integer⟩]

def member? (l : Layout) (name : String) : Option LayoutMember :=
  l.members.find? (·.name == name)

def isMemory (l : Layout) : Bool :=
  l.classes.head? == some .memory

end Layout

/-- The class of the eight bytes with number `window`. Bytes that hold nothing are integers. -/
def windowClass (leaves : List Leaf) (window : Nat) : EightbyteClass :=
  match (leaves.filter fun l => l.offset / 8 == window).map Leaf.kind with
  | [] => .integer
  | k :: ks => ks.foldl EightbyteClass.merge k

/-- What is longer than sixteen bytes never travels in registers. -/
def classify (size : Nat) (leaves : List Leaf) : List EightbyteClass :=
  if 16 < size then [.memory]
  else (List.range (max ((size + 7) / 8) 1)).map (windowClass leaves)

inductive LayoutError
  | duplicateType (name : String)
  | unknownType (ty : Ty)
  | notMaterializable (ty : Ty)
  | cycle (name : String)
  /-- A sum of sizes that is not a word. -/
  | overflow

namespace LayoutError

def name : LayoutError → String
  | .duplicateType _ => "duplicate-type"
  | .unknownType _ => "unknown-type"
  | .notMaterializable _ => "not-materializable"
  | .cycle _ => "cycle"
  | .overflow => "overflow"

def message : LayoutError → String
  | .duplicateType name => "Type `" ++ name ++ "` is already registered"
  | .unknownType ty => "Type `" ++ ty.display ++ "` is not known"
  | .notMaterializable ty => "Type `" ++ ty.display ++ "` has no memory representation"
  | .cycle name => "Layout of `" ++ name ++ "` depends on itself"
  | .overflow => "attempt to add with overflow"

end LayoutError

/-- The layouts of named types. -/
structure Registry where
  entries : List (String × Layout)

/-- Members laid out so far: the end of the last one and the greatest alignment. -/
structure PlacedMembers where
  members : List LayoutMember
  leaves : List Leaf
  stop : Nat
  alignment : Nat

/-- The record that ends behind the last member, at a multiple of its alignment. -/
def PlacedMembers.layout (p : PlacedMembers) : Layout :=
  let size := alignUp p.stop p.alignment
  { size
    alignment := p.alignment
    members := p.members
    classes := classify size p.leaves
    leaves := if 16 < size then [] else p.leaves }

namespace Registry

def initial : Registry where
  entries := [
    ("int", .primitive 8 .integer),
    ("i32", .primitive 4 .integer),
    ("byte", .primitive 1 .integer),
    ("bool", .primitive 1 .integer),
    ("void", .primitive 0 .integer),
    ("double", .primitive 8 .sse),
    ("float", .primitive 4 .sse)]

def get? (r : Registry) (name : String) : Option Layout :=
  r.entries.lookup name

def contains (r : Registry) (name : String) : Bool :=
  (r.get? name).isSome

def layoutOf (r : Registry) (t : Ty) : Except LayoutError Layout :=
  match t with
  | .pointer _ => .ok .pointer
  | .array _ _ => .ok .array
  | .function _ _ _ _ => .error (.notMaterializable t)
  | .invalid => .error (.unknownType t)
  | .base name =>
    match r.get? name with
    | some layout => .ok layout
    | none => .error (.unknownType t)

def sizeOf? (r : Registry) (t : Ty) : Option Nat :=
  match r.layoutOf t with
  | .ok layout => some layout.size
  | .error _ => none

/-- Places members from `offset` on. -/
def place (r : Registry) (offset alignment : Nat) :
    List (String × Ty) → Except LayoutError PlacedMembers
  | [] => .ok ⟨[], [], offset, alignment⟩
  | (name, ty) :: members => do
    let layout ← r.layoutOf ty
    let here := alignUp offset layout.alignment
    if wordLimit ≤ here + layout.size then throw .overflow
    let rest ← r.place (here + layout.size) (max alignment layout.alignment) members
    return { rest with
      members := ⟨name, ty, here⟩ :: rest.members
      leaves := layout.leaves.map (Leaf.shift here) ++ rest.leaves }

def recordLayout (r : Registry) (members : List (String × Ty)) : Except LayoutError Layout := do
  let placed ← r.place 0 1 members
  if wordLimit ≤ placed.layout.size then throw .overflow
  return placed.layout

def insert (r : Registry) (name : String) (layout : Layout) : Registry :=
  ⟨r.entries ++ [(name, layout)]⟩

/-- Adds a record under a new name. -/
def registerType (name : String) (members : List (String × Ty)) :
    ExceptT LayoutError (StateM Registry) Layout := do
  let r ← get
  if r.contains name then throw (.duplicateType name)
  let layout ← r.recordLayout members
  set (r.insert name layout)
  return layout

/-- The registry with one record more. -/
def register (r : Registry) (name : String) (members : List (String × Ty)) :
    Except LayoutError Registry :=
  match (registerType name members).run.run r with
  | (.ok _, next) => .ok next
  | (.error e, _) => .error e

end Registry

/-- A record by its name and members. -/
structure RecordShape where
  name : String
  members : List (String × Ty)

namespace Registry

/-- Whether all that a record contains by value is registered. -/
def isReady (r : Registry) (shape : RecordShape) : Bool :=
  shape.members.all fun (_, ty) =>
    match ty with
    | .base name => r.contains name
    | .invalid => false
    | _ => true

/-- What one walk over the records that wait leaves: the registry, the records that failed and
those that still wait. -/
structure Round where
  registry : Registry
  errors : List (Nat × LayoutError)
  waiting : List (Nat × RecordShape)

def round (r : Registry) : List (Nat × RecordShape) → Round
  | [] => ⟨r, [], []⟩
  | (index, shape) :: rest =>
    if r.isReady shape then
      match (registerType shape.name shape.members).run.run r with
      | (.ok _, next) => round next rest
      | (.error e, next) =>
        let after := round next rest
        { after with errors := (index, e) :: after.errors }
    else
      let after := round r rest
      { after with waiting := (index, shape) :: after.waiting }

/-- Rounds until one registers nothing; there are no more than records that wait. -/
def rounds (r : Registry) (waiting : List (Nat × RecordShape)) : Nat → Round
  | 0 => ⟨r, [], waiting⟩
  | n + 1 =>
    let one := r.round waiting
    if one.waiting.length < waiting.length then
      let others := one.registry.rounds one.waiting n
      { others with errors := one.errors ++ others.errors }
    else one

/-- Why a record could not be registered although it waited to the end. -/
def stuck (r : Registry) (shapes : List RecordShape) (shape : RecordShape) : LayoutError :=
  let isMissing : Ty → Bool
    | .base name => !(r.contains name || shapes.any (·.name == name))
    | .invalid => true
    | _ => false
  match shape.members.find? fun (_, ty) => isMissing ty with
  | some (_, ty) => .unknownType ty
  | none => .cycle shape.name

/-- Registers records in any order of dependence, and reports those that cannot be by their
position. -/
def registerRecords (r : Registry) (shapes : List RecordShape) :
    Registry × List (Nat × LayoutError) :=
  let waiting := (List.range shapes.length).zip shapes
  let last := r.rounds waiting waiting.length
  let left := last.waiting.map fun (index, shape) => (index, last.registry.stuck shapes shape)
  (last.registry, (last.errors ++ left).mergeSort fun a b => a.1 ≤ b.1)

end Registry

end RegionCompiler
