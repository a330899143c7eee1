import RegionCompiler.Proofs.Layout.Placement

/-! The classes of a short record follow from the values without parts in it: each of them lies in
one window of eight bytes, and a window that holds nothing but floats is of class SSE. How records
are nested does not matter. -/
namespace RegionCompiler

/-- A leaf of the given size lies in one window of eight bytes. -/
def Leaf.InWindow (leaf : Leaf) (n window : Nat) : Prop :=
  8 * window ≤ leaf.offset ∧ leaf.offset + n ≤ 8 * window + 8

theorem Leaf.InWindow.div_eq {leaf : Leaf} {n window : Nat} (h : leaf.InWindow n window)
    (hn : 0 < n) : leaf.offset / 8 = window := by
  obtain ⟨hstart, hstop⟩ := h
  omega

theorem foldl_merge {ks : List EightbyteClass} {k : EightbyteClass} (h : .memory ∉ k :: ks) :
    ks.foldl EightbyteClass.merge k = if .integer ∈ k :: ks then .integer else .sse := by
  induction ks generalizing k with
  | nil => cases k <;> simp_all
  | cons first rest ih =>
    rw [List.foldl_cons, ih]
    · cases k <;> cases first <;> simp_all [EightbyteClass.merge]
    · cases k <;> cases first <;> simp_all [EightbyteClass.merge]

section Windows

variable {leaves : List Leaf} (h : ∀ leaf ∈ leaves, leaf.kind ≠ .memory) (window : Nat)

include h

theorem windowClass_sse_iff : windowClass leaves window = .sse ↔
    (∃ leaf ∈ leaves, leaf.offset / 8 = window) ∧
      ∀ leaf ∈ leaves, leaf.offset / 8 = window → leaf.kind = .sse := by
  have hmem (kind : EightbyteClass) :
      kind ∈ (leaves.filter fun l => l.offset / 8 == window).map Leaf.kind ↔
        ∃ leaf ∈ leaves, leaf.offset / 8 = window ∧ leaf.kind = kind := by
    simp [and_assoc]
  unfold windowClass
  generalize (leaves.filter fun l => l.offset / 8 == window).map Leaf.kind = kinds at hmem
  have hmemory : .memory ∉ kinds := by
    rw [hmem]
    rintro ⟨leaf, hleaf, -, hkind⟩
    exact h leaf hleaf hkind
  cases kinds with
  | nil =>
    refine iff_of_false nofun ?_
    rintro ⟨⟨leaf, hleaf, hwindow⟩, -⟩
    exact absurd ((hmem leaf.kind).2 ⟨leaf, hleaf, hwindow, rfl⟩) List.not_mem_nil
  | cons k ks =>
    dsimp only
    rw [foldl_merge hmemory]
    by_cases hinteger : .integer ∈ k :: ks
    · rw [if_pos hinteger]
      refine iff_of_false nofun ?_
      obtain ⟨leaf, hleaf, hwindow, hkind⟩ := (hmem _).1 hinteger
      rintro ⟨-, hall⟩
      rw [hall leaf hleaf hwindow] at hkind
      cases hkind
    · rw [if_neg hinteger]
      obtain ⟨first, hfirst, hwindow, -⟩ := (hmem k).1 List.mem_cons_self
      refine iff_of_true rfl ⟨⟨first, hfirst, hwindow⟩, fun leaf hleaf hwindow => ?_⟩
      have hin := (hmem leaf.kind).2 ⟨leaf, hleaf, hwindow, rfl⟩
      cases hkind : leaf.kind with
      | sse => rfl
      | integer => exact absurd (hkind ▸ hin) hinteger
      | memory => exact absurd (hkind ▸ hin) hmemory

theorem windowClass_integer_iff : windowClass leaves window = .integer ↔
    (∃ leaf ∈ leaves, leaf.offset / 8 = window ∧ leaf.kind = .integer) ∨
      ∀ leaf ∈ leaves, leaf.offset / 8 = window → False := by
  have hsse := windowClass_sse_iff h window
  have hmemory := Registry.windowClass_ne_memory h window
  have hkind (leaf : Leaf) (hleaf : leaf ∈ leaves) : leaf.kind = .sse ↔ leaf.kind ≠ .integer := by
    have hne := h leaf hleaf
    cases hk : leaf.kind <;> simp_all
  have hother : windowClass leaves window = .integer ↔ windowClass leaves window ≠ .sse := by
    cases hclass : windowClass leaves window <;> simp_all
  rw [hother, Ne, hsse, not_and_or, or_comm]
  refine or_congr ?_ (by simp)
  simp only [not_forall, exists_prop]
  refine exists_congr fun leaf => and_congr_right fun hleaf => and_congr_right fun _ => ?_
  rw [hkind leaf hleaf, not_not]

/-- Only which leaves there are counts. -/
theorem windowClass_congr {others : List Leaf} (h' : ∀ leaf ∈ others, leaf.kind ≠ .memory)
    (hmem : ∀ leaf, leaf ∈ others ↔ leaf ∈ leaves) :
    windowClass others window = windowClass leaves window := by
  cases hclass : windowClass leaves window with
  | sse =>
    rw [windowClass_sse_iff h']
    simpa only [hmem] using (windowClass_sse_iff h window).1 hclass
  | integer =>
    rw [windowClass_integer_iff h']
    simpa only [hmem] using (windowClass_integer_iff h window).1 hclass
  | memory => exact absurd hclass (Registry.windowClass_ne_memory h window)

end Windows

/-- The member of a record that lies inside another one. -/
def LayoutMember.shift (n : Nat) (m : LayoutMember) : LayoutMember :=
  { m with offset := n + m.offset }

namespace Registry

/-- A value without parts inside a record that has this layout. -/
def Includes (r : Registry) (l : Layout) (leaf : Leaf) (n : Nat) : Prop :=
  ∃ m ∈ l.members, ∃ inner, r.Contains m.ty inner n ∧ leaf = inner.shift m.offset

section Walks

variable {r : Registry}

theorem mem_of_gather {walks : List (Option (Except LayoutError (List Leaf)))}
    {leaves : List Leaf} (h : gather walks = some (.ok leaves)) (leaf : Leaf) :
    leaf ∈ leaves ↔ ∃ found, some (.ok found) ∈ walks ∧ leaf ∈ found := by
  induction walks generalizing leaves with
  | nil =>
    cases h
    simp
  | cons first rest ih =>
    match first with
    | none => cases h
    | some (.error e) => cases h
    | some (.ok found) =>
      rw [gather] at h
      obtain ⟨result, hrest, hresult⟩ := Option.map_eq_some_iff.1 h
      cases result with
      | error e => cases hresult
      | ok others =>
        cases hresult
        simp [ih hrest]

theorem ok_of_gather {walks : List (Option (Except LayoutError (List Leaf)))}
    {leaves : List Leaf} (h : gather walks = some (.ok leaves)) :
    ∀ walk ∈ walks, ∃ found, walk = some (.ok found) := by
  induction walks generalizing leaves with
  | nil => exact fun _ hwalk => absurd hwalk List.not_mem_nil
  | cons first rest ih =>
    match first with
    | none => cases h
    | some (.error e) => cases h
    | some (.ok found) =>
      rw [gather] at h
      obtain ⟨result, hrest, hresult⟩ := Option.map_eq_some_iff.1 h
      cases result with
      | error e => cases hresult
      | ok others => exact List.forall_mem_cons.2 ⟨⟨found, rfl⟩, ih hrest⟩

/-- A walk finds the leaves that a value contains, and no others. -/
theorem mem_flatten {depth offset : Nat} {t : Ty} {leaves : List Leaf}
    (h : r.flatten depth offset t = some (.ok leaves)) (leaf : Leaf) :
    leaf ∈ leaves ↔ ∃ inner n, r.Contains t inner n ∧ leaf = inner.shift offset := by
  induction depth generalizing offset t leaves leaf with
  | zero => cases h
  | succ depth ih =>
    cases t with
    | pointer t =>
      cases h
      constructor
      · intro hleaf
        exact ⟨_, _, .pointer, by simpa [Leaf.shift] using hleaf⟩
      · rintro ⟨_, _, ⟨⟩, rfl⟩
        simp [Leaf.shift]
    | array t length =>
      cases h
      constructor
      · intro hleaf
        rcases List.mem_cons.1 hleaf with rfl | hleaf
        · exact ⟨_, _, .address, rfl⟩
        · exact ⟨_, _, .length, by simpa [Leaf.shift] using hleaf⟩
      · rintro ⟨_, _, ⟨⟩ | ⟨⟩, rfl⟩ <;> simp [Leaf.shift]
    | invalid => cases h
    | function t ps v f => cases h
    | base name =>
      simp only [flatten] at h
      split at h
      case h_1 => cases h
      case h_2 l hl =>
        have hget := layoutOf_base.1 hl
        split at h
        case isTrue hempty =>
          rw [List.isEmpty_iff] at hempty
          cases h
          constructor
          · intro hleaf
            split at hleaf
            case isTrue => cases hleaf
            case isFalse hsize =>
              obtain ⟨kind, hkind, rfl⟩ := List.mem_map.1 hleaf
              exact ⟨_, _, .plain hget hempty hsize (Option.mem_toList.1 hkind), rfl⟩
          · rintro ⟨_, _, hcontains, rfl⟩
            cases hcontains with
            | plain hget' _ hsize hkind =>
              cases hget.symm.trans hget'
              simp [hsize, hkind, Leaf.shift]
            | member hget' hm _ =>
              cases hget.symm.trans hget'
              rw [hempty] at hm
              cases hm
        case isFalse hmembers =>
          rw [List.isEmpty_iff] at hmembers
          rw [mem_of_gather h]
          constructor
          · rintro ⟨found, hfound, hleaf⟩
            obtain ⟨m, hm, hwalk⟩ := List.mem_map.1 hfound
            obtain ⟨inner, n, hcontains, rfl⟩ := (ih hwalk leaf).1 hleaf
            exact ⟨_, _, .member hget hm hcontains, (shift_shift ..).symm⟩
          · rintro ⟨_, _, hcontains, rfl⟩
            cases hcontains with
            | plain hget' hempty _ _ =>
              cases hget.symm.trans hget'
              exact absurd hempty hmembers
            | @member _ _ m inner _ hget' hm hinner =>
              cases hget.symm.trans hget'
              obtain ⟨found, hwalk⟩ := ok_of_gather h _ (List.mem_map_of_mem hm)
              refine ⟨found, ?_, (ih hwalk _).2 ⟨inner, _, hinner, shift_shift ..⟩⟩
              rw [← hwalk]
              exact List.mem_map_of_mem hm

end Walks

section Records

variable {r : Registry} {members : List (String × Ty)} {l : Layout}

theorem Grown.lays_record (h : r.Grown) (hl : r.recordLayout members = .ok l) : r.Lays l :=
  recordLayout_lays (fun _ _ => h.lays) hl

theorem Grown.size_eq_zero (h : r.Grown) (hl : r.recordLayout members = .ok l)
    (hempty : l.members = []) : l.size = 0 := by
  obtain ⟨ks, hks⟩ := laysAll_of_recordLayout hl
  have hsize := (h.conforms hks hl).size
  simp only [hempty, List.zip_nil_left, List.getLast?_nil, Option.map_none,
    Option.getD_none] at hsize
  exact hsize.zero

theorem depth_le {t : Ty} {k : Layout} (hk : r.layoutOf t = .ok k) :
    r.depthOf t ≤ r.entries.length := by
  cases t with
  | base name => exact rank_lt_iff.2 (contains_of_layoutOf hk)
  | _ => exact Nat.zero_le _

theorem Grown.gather_leaves (h : r.Grown) (hl : r.recordLayout members = .ok l)
    (hsize : l.size ≤ 16) {depth : Nat} (hdepth : r.entries.length < depth) :
    gather (l.members.map fun m => r.flatten depth m.offset m.ty) = some (.ok l.leaves) := by
  have hlays := h.lays_record hl
  have hmembers : ∀ m ∈ l.members, ∃ k leaves, r.layoutOf m.ty = .ok k ∧
      (∀ depth, r.entries.length < depth →
        r.flatten depth (0 + m.offset) m.ty = some (.ok leaves)) ∧
      (k.size ≤ 16 → leaves = k.leaves.map (Leaf.shift (0 + m.offset))) := by
    intro m hm
    obtain ⟨k, hk, -, -⟩ := hlays.members m hm
    obtain ⟨leaves, hwalk, hshift⟩ := h.flatten_ok hk (0 + m.offset)
    exact ⟨k, leaves, hk, fun d hd => hwalk d (Nat.lt_of_le_of_lt (depth_le hk) hd), hshift⟩
  obtain ⟨leaves, hwalk, hparts⟩ := gather_members hmembers
  simp only [Nat.zero_add] at hwalk hparts
  rw [hwalk depth hdepth, hparts, hlays.leaves hsize, partsOf]
  · split
    case isTrue hempty =>
      rw [List.isEmpty_iff] at hempty
      rw [hempty, if_pos (h.size_eq_zero hl hempty), List.flatMap_nil]
    case isFalse => rfl
  · intro m hm k hk
    obtain ⟨k', hk', -, hinside⟩ := hlays.members m hm
    cases hk.symm.trans hk'
    omega

theorem Grown.mem_leaves (h : r.Grown) (hl : r.recordLayout members = .ok l)
    (hsize : l.size ≤ 16) (leaf : Leaf) : leaf ∈ l.leaves ↔ ∃ n, r.Includes l leaf n := by
  have hgather := h.gather_leaves hl hsize (Nat.lt_succ_self r.entries.length)
  rw [mem_of_gather hgather]
  constructor
  · rintro ⟨found, hfound, hleaf⟩
    obtain ⟨m, hm, hwalk⟩ := List.mem_map.1 hfound
    obtain ⟨inner, n, hcontains, rfl⟩ := (mem_flatten hwalk leaf).1 hleaf
    exact ⟨n, m, hm, inner, hcontains, rfl⟩
  · rintro ⟨n, m, hm, inner, hcontains, rfl⟩
    have hmem := List.mem_map_of_mem
      (f := fun m => r.flatten (r.entries.length + 1) m.offset m.ty) hm
    obtain ⟨found, hwalk⟩ := ok_of_gather hgather _ hmem
    exact ⟨found, hwalk ▸ hmem, (mem_flatten hwalk _).2 ⟨inner, n, hcontains, rfl⟩⟩

/-- No leaf straddles two windows, since it lies at a multiple of its size. -/
theorem Grown.includes_window (h : r.Grown) (hl : r.recordLayout members = .ok l) {leaf : Leaf}
    {n : Nat} (hleaf : r.Includes l leaf n) :
    0 < n ∧ leaf.offset + n ≤ l.size ∧ leaf.InWindow n (leaf.offset / 8) := by
  obtain ⟨m, hm, inner, hcontains, rfl⟩ := hleaf
  obtain ⟨k, hk, hoffset, hinside⟩ := (h.lays_record hl).members m hm
  obtain ⟨hn, hdvd, halign, hle⟩ := h.contains_natural hcontains hk
  have hwhole : n ∣ m.offset + inner.offset :=
    Nat.dvd_add (Nat.dvd_trans halign hoffset) hdvd
  simp only [Leaf.InWindow, Leaf.shift]
  obtain ⟨c, hc⟩ := hwhole
  rcases hn with rfl | rfl | rfl <;> omega

theorem classes_eq (hl : r.recordLayout members = .ok l)
    (hsize : l.size ≤ 16) :
    l.classes = (List.range (max ((l.size + 7) / 8) 1)).map (windowClass l.leaves) := by
  obtain ⟨placed, -, rfl, -⟩ := recordLayout_place hl
  simp only [PlacedMembers.layout] at hsize ⊢
  rw [classify, if_neg (by omega), if_neg (by omega)]

/-- The windows of a record are classified by the leaves in them. -/
structure Classified (r : Registry) (l : Layout) : Prop where
  length : l.classes.length = max ((l.size + 7) / 8) 1
  window : ∀ leaf n, r.Includes l leaf n →
    0 < n ∧ ∃ window < l.classes.length, leaf.InWindow n window
  integer : ∀ window < l.classes.length, l.classes[window]? = some .integer ↔
    (∃ leaf n, r.Includes l leaf n ∧ leaf.InWindow n window ∧ leaf.kind = .integer) ∨
      ∀ leaf n, r.Includes l leaf n → ¬ leaf.InWindow n window
  sse : ∀ window < l.classes.length, l.classes[window]? = some .sse ↔
    (∃ leaf n, r.Includes l leaf n ∧ leaf.InWindow n window) ∧
      ∀ leaf n, r.Includes l leaf n → leaf.InWindow n window → leaf.kind = .sse

theorem Grown.classified (h : r.Grown) (hl : r.recordLayout members = .ok l)
    (hsize : l.size ≤ 16) : r.Classified l := by
  have hclasses := classes_eq hl hsize
  have hkinds := (h.lays_record hl).kinds
  have hlength : l.classes.length = max ((l.size + 7) / 8) 1 := by
    rw [hclasses, List.length_map, List.length_range]
  -- The leaves that start in a window are those that lie in it.
  have hstarts (P : Leaf → Prop) (window : Nat) :
      (∃ leaf ∈ l.leaves, leaf.offset / 8 = window ∧ P leaf) ↔
        ∃ leaf n, r.Includes l leaf n ∧ leaf.InWindow n window ∧ P leaf := by
    simp only [h.mem_leaves hl hsize]
    constructor
    · rintro ⟨leaf, ⟨n, hleaf⟩, rfl, hP⟩
      exact ⟨leaf, n, hleaf, (h.includes_window hl hleaf).2.2, hP⟩
    · rintro ⟨leaf, n, hleaf, hwindow, hP⟩
      exact ⟨leaf, ⟨n, hleaf⟩, hwindow.div_eq (h.includes_window hl hleaf).1, hP⟩
  have hall (P : Leaf → Prop) (window : Nat) :
      (∀ leaf ∈ l.leaves, leaf.offset / 8 = window → P leaf) ↔
        ∀ leaf n, r.Includes l leaf n → leaf.InWindow n window → P leaf := by
    simpa using (hstarts (fun leaf => ¬ P leaf) window).not
  have hclass (window : Nat) (hwindow : window < l.classes.length) :
      l.classes[window]? = some (windowClass l.leaves window) := by
    rw [hlength] at hwindow
    rw [hclasses, List.getElem?_map, List.getElem?_range hwindow]
    rfl
  constructor
  case length => exact hlength
  case window =>
    intro leaf n hleaf
    obtain ⟨hn, hinside, hwindow⟩ := h.includes_window hl hleaf
    refine ⟨hn, _, ?_, hwindow⟩
    rw [hlength]
    omega
  case integer =>
    intro window hwindow
    rw [hclass window hwindow, Option.some.injEq, windowClass_integer_iff hkinds,
      hstarts (fun leaf => leaf.kind = .integer), hall fun _ => False]
  case sse =>
    intro window hwindow
    have hsome := hstarts (fun _ => True) window
    simp only [and_true] at hsome
    rw [hclass window hwindow, Option.some.injEq, windowClass_sse_iff hkinds, hsome,
      hall fun leaf => leaf.kind = .sse]

theorem Grown.classes_congr {s : Registry} {k : Layout} {others : List (String × Ty)}
    (h : r.Grown) (hl : r.recordLayout members = .ok l) (h' : s.Grown)
    (hk : s.recordLayout others = .ok k) (hshort : l.size ≤ 16) (hsize : k.size = l.size)
    (hleaves : ∀ leaf, (∃ n, s.Includes k leaf n) ↔ ∃ n, r.Includes l leaf n) :
    k.classes = l.classes := by
  have hmem (leaf : Leaf) : leaf ∈ k.leaves ↔ leaf ∈ l.leaves := by
    rw [h'.mem_leaves hk (hsize ▸ hshort), h.mem_leaves hl hshort, hleaves]
  rw [classes_eq hk (hsize ▸ hshort), classes_eq hl hshort, hsize]
  refine List.map_congr_left fun window _ => ?_
  exact windowClass_congr (h.lays_record hl).kinds window (h'.lays_record hk).kinds hmem

theorem includes_wrapped {group : List (String × Ty)} {inner : String} {k wrapped : Layout}
    {others : List LayoutMember} {field : String} {start : Nat} (h : r.Grown)
    (hgroup : r.recordLayout group = .ok k) (hinner : r.get? inner = some k)
    (hplain : l.members.Perm (k.members.map (LayoutMember.shift start) ++ others))
    (hwrapped : wrapped.members.Perm (⟨field, .base inner, start⟩ :: others)) (leaf : Leaf)
    (n : Nat) : r.Includes wrapped leaf n ↔ r.Includes l leaf n := by
  constructor
  · rintro ⟨m, hm, x, hcontains, rfl⟩
    rcases List.mem_cons.1 (hwrapped.mem_iff.1 hm) with rfl | hm
    · cases hcontains with
      | plain hget hempty hsize _ =>
        cases hinner.symm.trans hget
        exact absurd (h.size_eq_zero hgroup hempty) hsize
      | @member _ _ m y _ hget hm hcontains =>
        cases hinner.symm.trans hget
        refine ⟨m.shift start, ?_, y, hcontains, shift_shift ..⟩
        exact hplain.mem_iff.2 (List.mem_append_left _ (List.mem_map_of_mem hm))
    · exact ⟨m, hplain.mem_iff.2 (List.mem_append_right _ hm), x, hcontains, rfl⟩
  · rintro ⟨m, hm, x, hcontains, rfl⟩
    rcases List.mem_append.1 (hplain.mem_iff.1 hm) with hm | hm
    · obtain ⟨inner, hinside, rfl⟩ := List.mem_map.1 hm
      refine ⟨_, hwrapped.mem_iff.2 List.mem_cons_self, _, .member hinner hinside hcontains, ?_⟩
      exact (shift_shift ..).symm
    · exact ⟨m, hwrapped.mem_iff.2 (List.mem_cons_of_mem _ hm), x, hcontains, rfl⟩

end Records

/-- The classes of a short record are those of the leaves that a walk through its members finds.
They depend on the size of the record and on its leaves alone, so that it does not matter whether
some of the members stand in a record of their own at the same places. -/
theorem classes_exact (requests : List Request) {members : List (String × Ty)} {l : Layout}
    (hl : (initial.answerAll requests).recordLayout members = .ok l) (hsize : l.size ≤ 16) :
    (∀ depth, (initial.answerAll requests).entries.length < depth →
      gather (l.members.map fun m =>
        (initial.answerAll requests).flatten depth m.offset m.ty) = some (.ok l.leaves)) ∧
    (∀ leaf, leaf ∈ l.leaves ↔ ∃ n, (initial.answerAll requests).Includes l leaf n) ∧
    (initial.answerAll requests).Classified l ∧
    (∀ (requests' : List Request) (members' : List (String × Ty)) (l' : Layout),
      (initial.answerAll requests').recordLayout members' = .ok l' → l'.size = l.size →
      (∀ leaf, (∃ n, (initial.answerAll requests').Includes l' leaf n) ↔
        ∃ n, (initial.answerAll requests).Includes l leaf n) →
      l'.classes = l.classes) ∧
    ∀ (group wrapped : List (String × Ty)) (inner field : String) (start : Nat) (k l' : Layout)
      (others : List LayoutMember), (initial.answerAll requests).recordLayout group = .ok k →
      (initial.answerAll requests).get? inner = some k →
      (initial.answerAll requests).recordLayout wrapped = .ok l' →
      l.members.Perm (k.members.map (LayoutMember.shift start) ++ others) →
      l'.members.Perm (⟨field, .base inner, start⟩ :: others) → l'.size = l.size →
      l'.classes = l.classes := by
  have hgrown := grown_answerAll requests
  refine ⟨fun depth => hgrown.gather_leaves hl hsize, hgrown.mem_leaves hl hsize,
    hgrown.classified hl hsize, ?_, ?_⟩
  · intro requests' members' l' hl' hsame hleaves
    exact hgrown.classes_congr hl (grown_answerAll requests') hl' hsize hsame hleaves
  · intro group wrapped inner field start k l' others hgroup hinner hl' hplain hwrapped hsame
    refine hgrown.classes_congr hl hgrown hl' hsize hsame fun leaf => exists_congr fun n => ?_
    exact includes_wrapped hgrown hgroup hinner hplain hwrapped leaf n

def pairRequests : List Request := [.record ⟨"Pair", [("a", .float), ("b", .float)]⟩]

def pairLayout : Layout :=
  ⟨8, 4, [⟨"a", .float, 0⟩, ⟨"b", .float, 4⟩], [.sse], [⟨0, .sse⟩, ⟨4, .sse⟩]⟩

/-- Two floats in front of an integer have the same classes in a record of their own or without
it. -/
theorem classes_exact_pair : ∃ l l',
    (initial.answerAll pairRequests).recordLayout
      [("a", .float), ("b", .float), ("n", .int)] = .ok l ∧
    (initial.answerAll pairRequests).recordLayout
      [("pair", .base "Pair"), ("n", .int)] = .ok l' ∧
    l'.classes = l.classes ∧ l.classes = [.sse, .integer] := by
  have hplain : (initial.answerAll pairRequests).recordLayout
      [("a", .float), ("b", .float), ("n", .int)] = .ok ⟨16, 8, [⟨"a", .float, 0⟩,
        ⟨"b", .float, 4⟩, ⟨"n", .int, 8⟩], [.sse, .integer],
        [⟨0, .sse⟩, ⟨4, .sse⟩, ⟨8, .integer⟩]⟩ := rfl
  have hwrapped : (initial.answerAll pairRequests).recordLayout
      [("pair", .base "Pair"), ("n", .int)] = .ok ⟨16, 8, [⟨"pair", .base "Pair", 0⟩,
        ⟨"n", .int, 8⟩], [.sse, .integer], [⟨0, .sse⟩, ⟨4, .sse⟩, ⟨8, .integer⟩]⟩ := rfl
  obtain ⟨-, -, -, -, hwraps⟩ := classes_exact pairRequests hplain (by decide)
  exact ⟨_, _, hplain, hwrapped, hwraps [("a", .float), ("b", .float)] _ "Pair" "pair" 0 pairLayout
    _ [⟨"n", .int, 8⟩] rfl rfl hwrapped (.refl _) (.refl _) rfl, rfl⟩

end Registry

end RegionCompiler
