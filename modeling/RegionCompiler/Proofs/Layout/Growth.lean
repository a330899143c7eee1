import RegionCompiler.Proofs.Layout.Known

/-! Registries that grew from the built-in types. Whatever is asked of a registry, it is only ever
extended by one laid-out record after the other, so each of its laws is a law of one registration.
A record is laid out when all that it contains by value is there already. Hence containment is
well-founded, and a walk through the records inside a value comes to an end. -/
namespace RegionCompiler.Registry

/-- What can be asked of a registry. -/
inductive Request
  | record (shape : RecordShape)
  | records (shapes : List RecordShape)

/-- The registry after a request and the records that were refused, by their position. -/
def answer (r : Registry) : Request → Registry × List (Nat × LayoutError)
  | .record shape =>
    match (registerType shape.name shape.members).run.run r with
    | (.ok _, next) => (next, [])
    | (.error e, next) => (next, [(0, e)])
  | .records shapes => r.registerRecords shapes

def answerAll (r : Registry) (requests : List Request) : Registry :=
  requests.foldl (fun r request => (r.answer request).1) r

/-- The leaves of a value of the type. -/
def leavesOf (r : Registry) (t : Ty) : List Leaf :=
  match r.layoutOf t with
  | .ok l => l.leaves
  | .error _ => []

/-- The leaves that the members of a layout give it. A value without members is one leaf, unless it
is empty. -/
def partsOf (r : Registry) (l : Layout) : List Leaf :=
  if l.members.isEmpty then
    if l.size = 0 then [] else l.classes.head?.toList.map (⟨0, ·⟩)
  else l.members.flatMap fun m => (r.leavesOf m.ty).map (Leaf.shift m.offset)

/-- The laws of a layout whose members are laid out in a registry. -/
structure Lays (r : Registry) (l : Layout) : Prop where
  alignment : l.alignment = 1 ∨ l.alignment = 4 ∨ l.alignment = 8
  size : l.alignment ∣ l.size
  word : l.size < wordLimit
  members : ∀ m ∈ l.members, ∃ k, r.layoutOf m.ty = .ok k ∧ k.alignment ∣ m.offset ∧
    m.offset + k.size ≤ l.size
  classes : 16 < l.size ∧ l.classes = [.memory] ∨
    l.size ≤ 16 ∧ l.classes.length = max ((l.size + 7) / 8) 1 ∧ .memory ∉ l.classes
  leaves : l.size ≤ 16 → l.leaves = r.partsOf l
  kinds : ∀ leaf ∈ l.leaves, leaf.kind ≠ .memory

/-- Joins what walks through members have found, up to the first that fails. -/
def gather : List (Option (Except LayoutError (List Leaf))) →
    Option (Except LayoutError (List Leaf))
  | [] => some (.ok [])
  | none :: _ => none
  | some (.error e) :: _ => some (.error e)
  | some (.ok leaves) :: rest => (gather rest).map fun others => others.map (leaves ++ ·)

/-- The leaves of a value at an offset, found by a walk through the records inside it. There is no
result if the walk has to go deeper than it may. -/
def flatten (r : Registry) : Nat → Nat → Ty → Option (Except LayoutError (List Leaf))
  | 0, _, _ => none
  | _ + 1, offset, .pointer _ => some (.ok [⟨offset, .integer⟩])
  | _ + 1, offset, .array _ _ => some (.ok [⟨offset, .integer⟩, ⟨offset + 8, .integer⟩])
  | depth + 1, offset, t =>
    match r.layoutOf t with
    | .error e => some (.error e)
    | .ok l =>
      if l.members.isEmpty then
        some (.ok (if l.size = 0 then [] else l.classes.head?.toList.map (⟨offset, ·⟩)))
      else gather (l.members.map fun m => r.flatten depth (offset + m.offset) m.ty)

/-- Whether a record contains another one by value. -/
def Inside (r : Registry) (inner outer : String) : Prop :=
  ∃ l, r.get? outer = some l ∧ ∃ m ∈ l.members, m.ty = .base inner

/-- The registries that registrations lead to. -/
inductive Grown : Registry → Prop
  | initial : Grown .initial
  | register {r next : Registry} {name : String} {members : List (String × Ty)} (h : Grown r)
    (hnext : r.register name members = .ok next) : Grown next

section Requests

variable {r : Registry}

theorem Grown.round (h : r.Grown) (waiting : List (Nat × RecordShape)) :
    (r.round waiting).registry.Grown := by
  induction waiting generalizing r with
  | nil => exact h
  | cons first rest ih =>
    rcases r.round_cons first.1 first.2 rest with
      ⟨next, -, hnext, hround⟩ | ⟨e, -, -, hround⟩ | ⟨-, hround⟩ <;> rw [hround]
    · exact ih (h.register hnext)
    · exact ih h
    · exact ih h

theorem Grown.rounds (h : r.Grown) (waiting : List (Nat × RecordShape)) (n : Nat) :
    (r.rounds waiting n).registry.Grown := by
  induction n generalizing r waiting with
  | zero => exact h
  | succ n ih =>
    simp only [Registry.rounds]
    split
    · exact ih (h.round waiting) _
    · exact h.round waiting

theorem answer_record (r : Registry) (shape : RecordShape) :
    (∃ next, r.register shape.name shape.members = .ok next ∧
      r.answer (.record shape) = (next, [])) ∨
    ∃ e, r.register shape.name shape.members = .error e ∧
      r.answer (.record shape) = (r, [(0, e)]) := by
  rcases r.registerType_register shape.name shape.members with
    ⟨l, next, hrun, hnext⟩ | ⟨e, hrun, he⟩
  · exact .inl ⟨next, hnext, by rw [answer, hrun]⟩
  · exact .inr ⟨e, he, by rw [answer, hrun]⟩

theorem Grown.answer (h : r.Grown) (request : Request) : (r.answer request).1.Grown := by
  cases request with
  | record shape =>
    rcases r.answer_record shape with ⟨next, hnext, hanswer⟩ | ⟨e, -, hanswer⟩ <;> rw [hanswer]
    · exact h.register hnext
    · exact h
  | records shapes => exact h.rounds _ _

theorem grown_answerAll (requests : List Request) : (initial.answerAll requests).Grown := by
  suffices hfrom : ∀ r : Registry, r.Grown → (r.answerAll requests).Grown from hfrom _ .initial
  induction requests with
  | nil => exact fun _ h => h
  | cons request rest ih => exact fun _ h => ih _ (h.answer request)

theorem answer_le (request : Request) : r.Le (r.answer request).1 := by
  cases request with
  | record shape =>
    rcases r.answer_record shape with ⟨next, hnext, hanswer⟩ | ⟨e, -, hanswer⟩ <;> rw [hanswer]
    · exact register_le hnext
    · exact Le.refl r
  | records shapes => exact registerRecords_le

theorem answerAll_le (requests : List Request) : r.Le (r.answerAll requests) := by
  induction requests generalizing r with
  | nil => exact Le.refl r
  | cons request rest ih => exact (answer_le request).trans ih

theorem answerAll_append (earlier later : List Request) :
    r.answerAll (earlier ++ later) = (r.answerAll earlier).answerAll later :=
  List.foldl_append

end Requests

section Laws

variable {r s : Registry} {l : Layout}

theorem Le.layoutOf (h : r.Le s) {t : Ty} (hl : r.layoutOf t = .ok l) : s.layoutOf t = .ok l := by
  cases t with
  | base name =>
    simp only [Registry.layoutOf] at hl ⊢
    split at hl
    case h_1 k hk =>
      cases hl
      rw [h name l hk]
    case h_2 => cases hl
  | pointer t => exact hl
  | array t n => exact hl
  | invalid => cases hl
  | function t ps v f => cases hl

theorem leavesOf_eq {t : Ty} (hl : r.layoutOf t = .ok l) : r.leavesOf t = l.leaves := by
  rw [leavesOf, hl]

theorem Lays.mono (h : r.Lays l) (hle : r.Le s) : s.Lays l where
  alignment := h.alignment
  size := h.size
  word := h.word
  members m hm := by
    obtain ⟨k, hk, hoffset, hinside⟩ := h.members m hm
    exact ⟨k, hle.layoutOf hk, hoffset, hinside⟩
  classes := h.classes
  leaves hsize := by
    have hparts : l.members.flatMap (fun m => (r.leavesOf m.ty).map (Leaf.shift m.offset)) =
        l.members.flatMap fun m => (s.leavesOf m.ty).map (Leaf.shift m.offset) := by
      rw [List.flatMap_def, List.flatMap_def]
      refine congrArg List.flatten (List.map_congr_left fun m hm => ?_)
      obtain ⟨k, hk, -, -⟩ := h.members m hm
      rw [leavesOf_eq hk, leavesOf_eq (hle.layoutOf hk)]
    rw [h.leaves hsize, partsOf, partsOf, hparts]
  kinds := h.kinds

theorem lays_primitive (r : Registry) {size : Nat} {kind : EightbyteClass}
    (hsize : size = 0 ∨ size = 1 ∨ size = 4 ∨ size = 8) (hkind : kind ≠ .memory) :
    r.Lays (.primitive size kind) := by
  rcases hsize with rfl | rfl | rfl | rfl <;>
    constructor <;> simp [Layout.primitive, partsOf, hkind, hkind.symm, wordLimit]

theorem lays_array (h : initial.Le r) : r.Lays .array := by
  have hlength : r.layoutOf Ty.int = .ok (.primitive 8 .integer) :=
    h.layoutOf rfl
  constructor
  case members =>
    intro m hm
    simp only [Layout.array, List.mem_cons, List.not_mem_nil, or_false] at hm
    rcases hm with rfl | rfl
    · exact ⟨.pointer, rfl, by simp, by simp [Layout.pointer, Layout.primitive, Layout.array]⟩
    · exact ⟨_, hlength, by simp [Layout.primitive], by simp [Layout.primitive, Layout.array]⟩
  case leaves =>
    intro _
    simp [Layout.array, partsOf, leavesOf_eq hlength, Layout.primitive, Leaf.shift,
      leavesOf_eq (show r.layoutOf (.pointer Ty.void) = .ok .pointer from rfl), Layout.pointer]
  all_goals simp [Layout.array, wordLimit]

theorem initial_lays (r : Registry) (name : String) (hl : initial.get? name = some l) :
    r.Lays l := by
  obtain ⟨before, after, hentries, -⟩ := List.lookup_eq_some_iff.1 hl
  have hmem : (name, l) ∈ initial.entries := by simp [hentries]
  simp only [initial, List.mem_cons, Prod.mk.injEq, List.not_mem_nil, or_false] at hmem
  rcases hmem with ⟨-, rfl⟩ | ⟨-, rfl⟩ | ⟨-, rfl⟩ | ⟨-, rfl⟩ | ⟨-, rfl⟩ | ⟨-, rfl⟩ | ⟨-, rfl⟩ <;>
    exact lays_primitive r (by simp) (by simp)

/-- Members that were placed from an offset on. -/
structure Places (r : Registry) (offset : Nat) (placed : PlacedMembers) : Prop where
  alignment : placed.alignment = 1 ∨ placed.alignment = 4 ∨ placed.alignment = 8
  stop : offset ≤ placed.stop
  members : ∀ m ∈ placed.members, ∃ k, r.layoutOf m.ty = .ok k ∧ k.alignment ∣ m.offset ∧
    m.offset + k.size ≤ placed.stop
  leaves : placed.leaves =
    placed.members.flatMap fun m => (r.leavesOf m.ty).map (Leaf.shift m.offset)
  kinds : ∀ leaf ∈ placed.leaves, leaf.kind ≠ .memory

theorem place_places (h : ∀ t l, r.layoutOf t = .ok l → r.Lays l) {offset alignment : Nat}
    {members : List (String × Ty)} {placed : PlacedMembers}
    (halign : alignment = 1 ∨ alignment = 4 ∨ alignment = 8)
    (hplaced : r.place offset alignment members = .ok placed) : r.Places offset placed := by
  induction members generalizing offset alignment placed with
  | nil =>
    cases hplaced
    exact ⟨halign, Nat.le_refl _, by simp, by simp, by simp⟩
  | cons first rest ih =>
    obtain ⟨l, others, hl, -, hothers, rfl⟩ := place_cons hplaced
    have hlays := h first.2 l hl
    have hrest := ih (by rcases halign with rfl | rfl | rfl <;>
      rcases hlays.alignment with ha | ha | ha <;> simp [ha]) hothers
    have hhere := le_alignUp offset l.alignment
    have hstop := hrest.stop
    constructor
    case alignment => exact hrest.alignment
    case stop =>
      simp only [PlacedMembers.behind]
      omega
    case members =>
      intro m hm
      rcases List.mem_cons.1 hm with rfl | hm
      · refine ⟨l, hl, dvd_alignUp ?_, hstop⟩
        rcases hlays.alignment with ha | ha | ha <;> simp [ha]
      · exact hrest.members m hm
    case leaves => simp [PlacedMembers.behind, hrest.leaves, leavesOf_eq hl]
    case kinds =>
      intro leaf hleaf
      rcases List.mem_append.1 hleaf with hleaf | hleaf
      · obtain ⟨inner, hinner, rfl⟩ := List.mem_map.1 hleaf
        exact hlays.kinds inner hinner
      · exact hrest.kinds leaf hleaf

/-- Without such a leaf no eight bytes travel in memory. -/
theorem windowClass_ne_memory {leaves : List Leaf} (h : ∀ leaf ∈ leaves, leaf.kind ≠ .memory)
    (window : Nat) : windowClass leaves window ≠ .memory := by
  have hmerge : ∀ (ks : List EightbyteClass) (k : EightbyteClass), k ≠ .memory →
      .memory ∉ ks → ks.foldl EightbyteClass.merge k ≠ .memory := by
    intro ks
    induction ks with
    | nil => exact fun k hk _ => hk
    | cons first rest ih =>
      intro k hk hks
      rw [List.mem_cons, not_or] at hks
      refine ih _ ?_ hks.2
      cases k <;> cases first <;> simp_all [EightbyteClass.merge]
  have hkinds : .memory ∉ (leaves.filter fun l => l.offset / 8 == window).map Leaf.kind := by
    rw [List.mem_map]
    rintro ⟨leaf, hleaf, hmemory⟩
    exact h leaf (List.mem_filter.1 hleaf).1 hmemory
  unfold windowClass
  split
  case h_1 => simp
  case h_2 k ks heq =>
    rw [heq, List.mem_cons, not_or] at hkinds
    exact hmerge ks k (Ne.symm hkinds.1) hkinds.2

theorem classify_cases {size : Nat} {leaves : List Leaf}
    (h : ∀ leaf ∈ leaves, leaf.kind ≠ .memory) :
    16 < size ∧ classify size leaves = [.memory] ∨
      size ≤ 16 ∧ (classify size leaves).length = max ((size + 7) / 8) 1 ∧
        .memory ∉ classify size leaves := by
  unfold classify
  split
  case isTrue hlong => exact .inl ⟨hlong, rfl⟩
  case isFalse hshort =>
    refine .inr ⟨by omega, by simp, ?_⟩
    rw [List.mem_map]
    rintro ⟨window, -, hmemory⟩
    exact windowClass_ne_memory h window hmemory

theorem place_nil {offset alignment : Nat} {members : List (String × Ty)} {placed : PlacedMembers}
    (h : r.place offset alignment members = .ok placed) (hempty : placed.members = []) :
    placed = ⟨[], [], offset, alignment⟩ := by
  have hmembers := place_members h
  rw [hempty, List.map_nil] at hmembers
  subst hmembers
  cases h
  rfl

theorem recordLayout_lays (h : ∀ t l, r.layoutOf t = .ok l → r.Lays l)
    {members : List (String × Ty)} (hl : r.recordLayout members = .ok l) : r.Lays l := by
  obtain ⟨placed, hplaced, rfl, hword⟩ := recordLayout_place hl
  have hplaces := place_places h (.inl rfl) hplaced
  have hsize := le_alignUp placed.stop placed.alignment
  constructor
  case alignment => exact hplaces.alignment
  case size =>
    have hpositive : 0 < placed.alignment := by
      rcases hplaces.alignment with ha | ha | ha <;> omega
    exact dvd_alignUp hpositive
  case word => exact hword
  case members =>
    intro m hm
    obtain ⟨k, hk, hoffset, hinside⟩ := hplaces.members m hm
    exact ⟨k, hk, hoffset, Nat.le_trans hinside hsize⟩
  case classes => exact classify_cases hplaces.kinds
  case leaves =>
    intro hshort
    simp only [PlacedMembers.layout] at hshort ⊢
    rw [if_neg (by omega)]
    by_cases hempty : placed.members = []
    · rw [place_nil hplaced hempty]
      simp [partsOf, alignUp]
    · simp only [partsOf, List.isEmpty_iff, hempty, if_false, hplaces.leaves]
  case kinds =>
    intro leaf hleaf
    simp only [PlacedMembers.layout] at hleaf
    split at hleaf
    · cases hleaf
    · exact hplaces.kinds leaf hleaf

theorem Grown.initial_le (h : r.Grown) : Registry.initial.Le r := by
  induction h with
  | initial => exact Le.refl _
  | register _ hnext ih => exact ih.trans (register_le hnext)

theorem lays_layoutOf (hinitial : initial.Le r) (h : ∀ name l, r.get? name = some l → r.Lays l)
    {t : Ty} (hl : r.layoutOf t = .ok l) : r.Lays l := by
  cases t with
  | base name =>
    simp only [layoutOf] at hl
    split at hl
    case h_1 k hk =>
      cases hl
      exact h name l hk
    case h_2 => cases hl
  | pointer t =>
    cases hl
    exact lays_primitive r (by simp) (by simp)
  | array t n =>
    cases hl
    exact lays_array hinitial
  | invalid => cases hl
  | function t ps v f => cases hl

theorem get?_register {next : Registry} {name : String} {members : List (String × Ty)}
    (hnext : r.register name members = .ok next) {other : String}
    (hl : next.get? other = some l) :
    r.get? other = some l ∨ other = name ∧ r.recordLayout members = .ok l := by
  obtain ⟨k, hk, -, rfl⟩ := register_spec hnext
  rw [get?_insert, Option.or_eq_some_iff] at hl
  rcases hl with hold | ⟨-, hnew⟩
  · exact .inl hold
  · obtain ⟨rfl, rfl⟩ : other = name ∧ k = l := by simpa using hnew
    exact .inr ⟨rfl, hk⟩

theorem Grown.lays (h : r.Grown) {t : Ty} (hl : r.layoutOf t = .ok l) : r.Lays l := by
  suffices hall : ∀ name l, r.get? name = some l → r.Lays l from
    lays_layoutOf h.initial_le hall hl
  clear hl
  induction h with
  | initial => exact fun name l hl => initial_lays _ name hl
  | register hr hnext ih =>
    intro name l hl
    have hle := register_le hnext
    rcases get?_register hnext hl with hold | ⟨-, hnew⟩
    · exact (ih name l hold).mono hle
    · exact (recordLayout_lays (fun _ _ => lays_layoutOf hr.initial_le ih) hnew).mono hle

end Laws

section Containment

variable {r : Registry} {inner outer : String}

/-- The position of a name; a name that is not there stands behind all others. -/
def rank (r : Registry) (name : String) : Nat := r.entries.findIdx (·.1 == name)

theorem rank_lt_iff {name : String} : r.rank name < r.entries.length ↔ r.contains name := by
  rw [rank, List.findIdx_lt_length, contains, get?, List.lookup_isSome_iff]
  simp only [beq_iff_eq, @eq_comm _ name]

theorem rank_insert (name other : String) (l : Layout) :
    (r.insert name l).rank other = if r.rank other < r.entries.length then r.rank other
      else (Registry.mk [(name, l)]).rank other + r.entries.length :=
  List.findIdx_append

theorem contains_of_layoutOf {l : Layout} {name : String}
    (h : r.layoutOf (.base name) = .ok l) : r.contains name := by
  simp only [layoutOf] at h
  split at h
  case h_1 k hk => simp [contains, hk]
  case h_2 => cases h

theorem Grown.rank_lt (h : r.Grown) (hinside : r.Inside inner outer) :
    r.rank inner < r.rank outer := by
  induction h with
  | initial =>
    obtain ⟨l, hl, m, hm, -⟩ := hinside
    obtain ⟨before, after, hentries, -⟩ := List.lookup_eq_some_iff.1 hl
    have hmem : (outer, l) ∈ Registry.initial.entries := by simp [hentries]
    simp only [Registry.initial, List.mem_cons, Prod.mk.injEq, List.not_mem_nil, or_false] at hmem
    rcases hmem with ⟨-, rfl⟩ | ⟨-, rfl⟩ | ⟨-, rfl⟩ | ⟨-, rfl⟩ | ⟨-, rfl⟩ | ⟨-, rfl⟩ | ⟨-, rfl⟩ <;>
      cases hm
  | @register r next name members hr hnext ih =>
    obtain ⟨l, hl, m, hm, hty⟩ := hinside
    obtain ⟨k, hk, hfree, hentries⟩ := register_spec hnext
    rcases get?_register hnext hl with hold | ⟨rfl, hnew⟩
    · have hlt := ih ⟨l, hold, m, hm, hty⟩
      have houter : r.rank outer < r.entries.length := rank_lt_iff.2 (by simp [contains, hold])
      subst hentries
      rw [rank_insert, rank_insert, if_pos (Nat.lt_trans hlt houter), if_pos houter]
      exact hlt
    · obtain ⟨k', hk', -, -⟩ := (recordLayout_lays (fun _ _ => hr.lays) hnew).members m hm
      have hinner : r.rank inner < r.entries.length :=
        rank_lt_iff.2 (contains_of_layoutOf (hty ▸ hk'))
      have houter : ¬ r.rank outer < r.entries.length := by
        rw [rank_lt_iff, contains, hfree]
        simp
      subst hentries
      rw [rank_insert, rank_insert, if_pos hinner, if_neg houter]
      omega

theorem Grown.inside_wellFounded (h : r.Grown) : WellFounded r.Inside :=
  Subrelation.wf h.rank_lt (InvImage.wf r.rank Nat.lt_wfRel.wf)

theorem Grown.inside_contains (h : r.Grown) (hinside : r.Inside inner outer) :
    r.contains inner := by
  obtain ⟨l, hl, m, hm, hty⟩ := hinside
  have hlays : r.Lays l := h.lays (t := .base outer) (by simp [layoutOf, hl])
  obtain ⟨k, hk, -, -⟩ := hlays.members m hm
  exact contains_of_layoutOf (hty ▸ hk)

end Containment

section Walks

variable {r : Registry} {l : Layout} {offset : Nat}

theorem shift_shift (m n : Nat) (leaf : Leaf) :
    (leaf.shift n).shift m = leaf.shift (m + n) := by
  simp [Leaf.shift, Nat.add_assoc]

theorem flatten_error {t : Ty} {e : LayoutError} (h : r.layoutOf t = .error e) (depth : Nat) :
    r.flatten (depth + 1) offset t = some (.error e) := by
  cases t with
  | pointer t => cases h
  | array t n => cases h
  | _ => simp only [flatten, h]

theorem gather_members {members : List LayoutMember} {bound : Nat}
    (h : ∀ m ∈ members, ∃ k leaves, r.layoutOf m.ty = .ok k ∧
      (∀ depth, bound < depth → r.flatten depth (offset + m.offset) m.ty = some (.ok leaves)) ∧
      (k.size ≤ 16 → leaves = k.leaves.map (Leaf.shift (offset + m.offset)))) :
    ∃ leaves, (∀ depth, bound < depth →
      gather (members.map fun m => r.flatten depth (offset + m.offset) m.ty) =
        some (.ok leaves)) ∧
    ((∀ m ∈ members, ∀ k, r.layoutOf m.ty = .ok k → k.size ≤ 16) →
      leaves = members.flatMap fun m => (r.leavesOf m.ty).map
        (Leaf.shift (offset + m.offset))) := by
  induction members with
  | nil => exact ⟨[], fun _ _ => rfl, fun _ => rfl⟩
  | cons m rest ih =>
    obtain ⟨k, first, hk, hfirst, hleaves⟩ := h m List.mem_cons_self
    obtain ⟨others, hothers, hrest⟩ := ih fun m' hm' => h m' (List.mem_cons_of_mem _ hm')
    refine ⟨first ++ others, fun depth hdepth => ?_, fun hshort => ?_⟩
    · rw [List.map_cons, hfirst depth hdepth, gather, hothers depth hdepth]
      rfl
    · rw [List.flatMap_cons, leavesOf_eq hk, ← hleaves (hshort m List.mem_cons_self k hk),
        ← hrest fun m' hm' => hshort m' (List.mem_cons_of_mem _ hm')]

/-- How deep a walk through a value of the type goes at most. -/
def depthOf (r : Registry) : Ty → Nat
  | .base name => r.rank name + 1
  | _ => 0

theorem Grown.flatten_ok (h : r.Grown) {t : Ty} (hl : r.layoutOf t = .ok l) (offset : Nat) :
    ∃ leaves, (∀ depth, r.depthOf t < depth → r.flatten depth offset t = some (.ok leaves)) ∧
      (l.size ≤ 16 → leaves = l.leaves.map (Leaf.shift offset)) := by
  -- By induction on the rank of the record: all that it contains has a lower one.
  induction hdepth : r.depthOf t using Nat.strongRecOn generalizing t l offset with
  | ind n ih =>
    cases t with
    | pointer t =>
      cases hl
      refine ⟨[⟨offset, .integer⟩], fun depth hpositive => ?_, fun _ => rfl⟩
      obtain ⟨depth, rfl⟩ := Nat.exists_eq_add_of_lt hpositive
      rfl
    | array t length =>
      cases hl
      refine ⟨[⟨offset, .integer⟩, ⟨offset + 8, .integer⟩], fun depth hpositive => ?_,
        fun _ => rfl⟩
      obtain ⟨depth, rfl⟩ := Nat.exists_eq_add_of_lt hpositive
      rfl
    | invalid => cases hl
    | function t ps v f => cases hl
    | base name =>
      have hlays := h.lays hl
      have hget : r.get? name = some l := by
        simp only [layoutOf] at hl
        split at hl
        case h_1 k hk => cases hl; exact hk
        case h_2 => cases hl
      by_cases hempty : l.members = []
      · refine ⟨if l.size = 0 then [] else l.classes.head?.toList.map (⟨offset, ·⟩),
          fun depth hpositive => ?_, fun hshort => ?_⟩
        · obtain ⟨depth, rfl⟩ := Nat.exists_eq_add_of_lt hpositive
          simp only [flatten, hl, hempty, List.isEmpty_nil, if_true]
        · rw [hlays.leaves hshort, partsOf, hempty, List.isEmpty_nil, if_pos rfl]
          split <;> simp [Leaf.shift]
      · have hmembers : ∀ m ∈ l.members, ∃ k leaves, r.layoutOf m.ty = .ok k ∧
            (∀ depth, r.rank name < depth →
              r.flatten depth (offset + m.offset) m.ty = some (.ok leaves)) ∧
            (k.size ≤ 16 → leaves = k.leaves.map (Leaf.shift (offset + m.offset))) := by
          intro m hm
          obtain ⟨k, hk, -, -⟩ := hlays.members m hm
          have hlower : r.depthOf m.ty ≤ r.rank name := by
            cases hty : m.ty with
            | base inner => exact h.rank_lt ⟨l, hget, m, hm, hty⟩
            | _ => exact Nat.zero_le _
          obtain ⟨leaves, hleaves, hshift⟩ := ih _
            (by rw [← hdepth]; exact Nat.lt_succ_of_le hlower)
            hk (offset + m.offset) rfl
          exact ⟨k, leaves, hk, fun depth hd => hleaves depth
            (Nat.lt_of_le_of_lt hlower hd), hshift⟩
        obtain ⟨leaves, hleaves, hparts⟩ := gather_members hmembers
        refine ⟨leaves, fun depth hpositive => ?_, fun hshort => ?_⟩
        · obtain ⟨depth, rfl⟩ : ∃ d, depth = d + 1 := ⟨depth - 1, by omega⟩
          have hbelow : r.rank name < depth := by
            rw [← hdepth, depthOf] at hpositive
            omega
          simp only [flatten, hl, List.isEmpty_iff, hempty, if_false]
          exact hleaves depth hbelow
        · rw [hlays.leaves hshort, hparts, partsOf]
          · simp [hempty, List.map_flatMap, shift_shift, Function.comp_def]
          · intro m hm k hk
            obtain ⟨k', hk', -, hinside⟩ := hlays.members m hm
            rw [hk] at hk'
            cases hk'
            omega

theorem Grown.flatten_ends (h : r.Grown) (t : Ty) (offset : Nat) : ∃ result,
    (∀ depth, r.entries.length < depth → r.flatten depth offset t = some result) ∧
    (∀ e, r.layoutOf t = .error e → result = .error e) ∧
    ∀ l, r.layoutOf t = .ok l → ∃ leaves, result = .ok leaves ∧
      (l.size ≤ 16 → leaves = l.leaves.map (Leaf.shift offset)) := by
  cases hl : r.layoutOf t with
  | error e =>
    refine ⟨.error e, fun depth hdepth => ?_, fun e' he => ?_, nofun⟩
    · obtain ⟨depth, rfl⟩ := Nat.exists_eq_add_of_lt hdepth
      exact flatten_error hl _
    · cases he
      rfl
  | ok l =>
    obtain ⟨leaves, hleaves, hshift⟩ := h.flatten_ok hl offset
    refine ⟨.ok leaves, fun depth hdepth => hleaves depth ?_, nofun, fun l' hl' => ?_⟩
    · have hrank : r.depthOf t ≤ r.entries.length := by
        cases t with
        | base name => exact rank_lt_iff.2 (contains_of_layoutOf hl)
        | _ => exact Nat.zero_le _
      omega
    · cases hl'
      exact ⟨leaves, rfl, hshift⟩

end Walks

/-- What holds of a registry whatever was asked of it. -/
structure Lawful (r : Registry) : Prop where
  lays : ∀ t l, r.layoutOf t = .ok l → r.Lays l
  closed : ∀ inner outer, r.Inside inner outer → r.contains inner
  wellFounded : WellFounded r.Inside
  /-- Every walk ends. It fails on types without a layout alone, and finds the leaves that are kept
  in the layout of a short value. -/
  flattens : ∀ t offset, ∃ result,
    (∀ depth, r.entries.length < depth → r.flatten depth offset t = some result) ∧
    (∀ e, r.layoutOf t = .error e → result = .error e) ∧
    ∀ l, r.layoutOf t = .ok l → ∃ leaves, result = .ok leaves ∧
      (l.size ≤ 16 → leaves = l.leaves.map (Leaf.shift offset))

/-- After any requests all laws hold, whatever is asked later leaves what is registered as it is,
and a record that is refused leaves all of the registry as it is. -/
theorem answerAll_lawful (requests later : List Request) :
    (initial.answerAll requests).Lawful ∧
    (initial.answerAll requests).Le (initial.answerAll (requests ++ later)) ∧
    ∀ shape e, (initial.answerAll requests).register shape.name shape.members = .error e →
      (initial.answerAll requests).answer (.record shape) =
        (initial.answerAll requests, [(0, e)]) := by
  have hgrown := grown_answerAll requests
  refine ⟨⟨fun _ _ => hgrown.lays, fun _ _ => hgrown.inside_contains, hgrown.inside_wellFounded,
    hgrown.flatten_ends⟩, ?_, ?_⟩
  · rw [answerAll_append]
    exact answerAll_le later
  · intro shape e he
    rcases (initial.answerAll requests).answer_record shape with ⟨next, hnext,
      -⟩ | ⟨e', he', hanswer⟩
    · rw [he] at hnext
      cases hnext
    · rw [he] at he'
      cases he'
      exact hanswer

end RegionCompiler.Registry
