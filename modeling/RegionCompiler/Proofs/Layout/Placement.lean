import Mathlib.Data.List.Chain
import Mathlib.Data.List.Forall2
import RegionCompiler.Proofs.Layout.Growth

/-! Records are laid out as C does it: members in the order of their declaration, each at the next
multiple of its alignment, and padding at the end. In an array of records every value without parts
lies at a multiple of its own size. -/
namespace RegionCompiler

/-- The least multiple of an alignment that is not below a value. -/
structure NextMultiple (alignment value n : Nat) : Prop where
  dvd : alignment ∣ n
  le : value ≤ n
  least : ∀ k, alignment ∣ k → value ≤ k → n ≤ k

theorem nextMultiple_alignUp {alignment : Nat} (h : 0 < alignment) (value : Nat) :
    NextMultiple alignment value (alignUp value alignment) where
  dvd := dvd_alignUp h
  le := le_alignUp value alignment
  least := by
    intro k hk hvalue
    have hlt : alignUp value alignment < value + alignment := alignUp_lt h
    obtain ⟨i, hi⟩ : alignment ∣ alignUp value alignment := dvd_alignUp h
    obtain ⟨j, rfl⟩ := hk
    rw [hi] at hlt ⊢
    refine Nat.mul_le_mul_left alignment (Nat.le_of_lt_succ ?_)
    exact Nat.lt_of_mul_lt_mul_left (a := alignment) (by rw [Nat.mul_succ]; omega)

theorem NextMultiple.zero {alignment n : Nat} (h : NextMultiple alignment 0 n) : n = 0 :=
  Nat.le_zero.1 (h.least 0 (Nat.dvd_zero alignment) (Nat.le_refl 0))

namespace Registry

abbrev Laid := LayoutMember × Layout

/-- The end of a member. -/
def Laid.stop (a : Laid) : Nat := a.1.offset + a.2.size

/-- The second member lies at the next place behind the first one that suits it. -/
def Laid.Next (a b : Laid) : Prop := NextMultiple b.2.alignment (Laid.stop a) b.1.offset

/-- The layout that C gives to members with these layouts. -/
structure Conforms (members : List (String × Ty)) (ks : List Layout) (l : Layout) : Prop where
  declared : l.members.map (fun m => (m.name, m.ty)) = members
  first : ∀ a ∈ (l.members.zip ks).head?, a.1.offset = 0
  next : (l.members.zip ks).IsChain Laid.Next
  apart : (l.members.zip ks).Pairwise fun a b => Laid.stop a ≤ b.1.offset
  inside : ∀ a ∈ l.members.zip ks, Laid.stop a ≤ l.size
  alignment : l.alignment = (ks.map Layout.alignment).foldl max 1
  size : NextMultiple l.alignment (((l.members.zip ks).getLast?.map Laid.stop).getD 0) l.size

/-- Members with these layouts, each at the next place behind the one before it. -/
def arrange (offset alignment : Nat) : List (String × Ty) → List Layout → PlacedMembers
  | (name, ty) :: members, k :: ks =>
    let here := alignUp offset k.alignment
    (arrange (here + k.size) (max alignment k.alignment) members ks).behind name ty k here
  | _, _ => ⟨[], [], offset, alignment⟩

/-- Members that were placed from an offset on, with their layouts. -/
structure Row (offset alignment : Nat) (ks : List Layout) (placed : PlacedMembers) : Prop where
  first : ∀ a ∈ (placed.members.zip ks).head?, NextMultiple a.2.alignment offset a.1.offset
  next : (placed.members.zip ks).IsChain Laid.Next
  behind : ∀ a ∈ placed.members.zip ks, offset ≤ a.1.offset
  apart : (placed.members.zip ks).Pairwise fun a b => Laid.stop a ≤ b.1.offset
  inside : ∀ a ∈ placed.members.zip ks, Laid.stop a ≤ placed.stop
  alignment : placed.alignment = (ks.map Layout.alignment).foldl max alignment
  stop : placed.stop = ((placed.members.zip ks).getLast?.map Laid.stop).getD offset

theorem Row.le_stop {offset alignment : Nat} {ks : List Layout} {placed : PlacedMembers}
    (h : Row offset alignment ks placed) : offset ≤ placed.stop := by
  rw [h.stop]
  cases hlast : (placed.members.zip ks).getLast? with
  | none => exact Nat.le_refl _
  | some a =>
    have hbehind := h.behind a (List.mem_of_getLast? hlast)
    change offset ≤ a.1.offset + a.2.size
    omega

section Members

variable {r s : Registry} {members : List (String × Ty)} {ks : List Layout} {l : Layout}

/-- What a list of types is laid out as. -/
abbrev LaysAll (r : Registry) (members : List (String × Ty)) (ks : List Layout) : Prop :=
  List.Forall₂ (fun m k => r.layoutOf m.2 = .ok k) members ks

theorem arrange_row (hpositive : ∀ k ∈ ks, 0 < k.alignment) (hks : r.LaysAll members ks)
    (offset alignment : Nat) : Row offset alignment ks (arrange offset alignment members ks) := by
  induction hks generalizing offset alignment with
  | nil => exact ⟨by simp, .nil, by simp, .nil, by simp, rfl, rfl⟩
  | @cons m k rest ks hk hks ih =>
    have hnext := nextMultiple_alignUp (hpositive k List.mem_cons_self) offset
    have hrow := ih (fun k' hk' => hpositive k' (List.mem_cons_of_mem _ hk'))
      (alignUp offset k.alignment + k.size) (max alignment k.alignment)
    have hle := hrow.le_stop
    simp only [arrange, PlacedMembers.behind] at hrow hle ⊢
    generalize arrange (alignUp offset k.alignment + k.size) (max alignment k.alignment) rest ks =
      placed at hrow hle ⊢
    constructor
    case first => simpa using hnext
    case next =>
      rw [List.zip_cons_cons, List.isChain_cons]
      exact ⟨hrow.first, hrow.next⟩
    case behind =>
      intro a ha
      rcases List.mem_cons.1 ha with rfl | ha
      · exact hnext.le
      · have hbehind := hrow.behind a ha
        have hle := hnext.le
        omega
    case apart => exact List.pairwise_cons.2 ⟨hrow.behind, hrow.apart⟩
    case inside =>
      intro a ha
      rcases List.mem_cons.1 ha with rfl | ha
      · exact hle
      · exact hrow.inside a ha
    case alignment => exact hrow.alignment
    case stop =>
      simp only [List.zip_cons_cons, List.getLast?_cons, hrow.stop]
      cases (placed.members.zip ks).getLast? <;> rfl

/-- Members are placed where they belong, or their end cannot be counted. -/
theorem place_arrange (hpositive : ∀ k ∈ ks, 0 < k.alignment) (hks : r.LaysAll members ks)
    {offset : Nat} (hoffset : offset < wordLimit) (alignment : Nat) :
    r.place offset alignment members =
      if (arrange offset alignment members ks).stop < wordLimit then
        .ok (arrange offset alignment members ks)
      else .error .overflow := by
  induction hks generalizing offset alignment with
  | nil => exact (if_pos hoffset).symm
  | @cons m k rest ks hk hks ih =>
    have hpositive' : ∀ k' ∈ ks, 0 < k'.alignment := fun k' hk' =>
      hpositive k' (List.mem_cons_of_mem _ hk')
    have hle := (arrange_row hpositive' hks (alignUp offset k.alignment + k.size)
      (max alignment k.alignment)).le_stop
    rw [place_first r offset alignment rest hk, arrange, PlacedMembers.behind_stop]
    by_cases hfits : alignUp offset k.alignment + k.size < wordLimit
    · rw [if_neg (Nat.not_le.2 hfits), ih hpositive' hfits]
      exact apply_ite _ _ _ _
    · rw [if_pos (Nat.not_lt.1 hfits), if_neg (by omega)]

theorem Grown.alignment_pos (h : r.Grown) {t : Ty} (hl : r.layoutOf t = .ok l) :
    0 < l.alignment := by
  rcases (h.lays hl).alignment with ha | ha | ha <;> simp [ha]

theorem Grown.alignments_pos (h : r.Grown) (hks : r.LaysAll members ks) :
    ∀ k ∈ ks, 0 < k.alignment := by
  induction hks with
  | nil => simp
  | cons hk _ ih => exact List.forall_mem_cons.2 ⟨h.alignment_pos hk, ih⟩

theorem arrange_members (hks : r.LaysAll members ks) (offset alignment : Nat) :
    (arrange offset alignment members ks).members.map (fun m => (m.name, m.ty)) = members := by
  induction hks generalizing offset alignment with
  | nil => rfl
  | cons _ _ ih => simp [arrange, PlacedMembers.behind, ih]

theorem le_foldl_max (a : Nat) (ns : List Nat) :
    a ≤ ns.foldl max a ∧ ∀ n ∈ ns, n ≤ ns.foldl max a := by
  induction ns generalizing a with
  | nil => simp
  | cons first rest ih =>
    obtain ⟨hfirst, hrest⟩ := ih (max a first)
    refine ⟨le_trans (le_max_left a first) hfirst, List.forall_mem_cons.2 ⟨?_, hrest⟩⟩
    exact le_trans (le_max_right a first) hfirst

/-- What C makes of the members, whether its size can be counted or not. -/
theorem Grown.arrange_conforms (h : r.Grown) (hks : r.LaysAll members ks) :
    Conforms members ks (arrange 0 1 members ks).layout := by
  have hrow := arrange_row (h.alignments_pos hks) hks 0 1
  have hmembers := arrange_members hks 0 1
  generalize arrange 0 1 members ks = placed at hrow hmembers ⊢
  have hpositive : 0 < placed.alignment := by
    rw [hrow.alignment]
    exact (le_foldl_max 1 _).1
  have hsize := nextMultiple_alignUp hpositive placed.stop
  constructor
  case declared => exact hmembers
  case first => exact fun a ha => (hrow.first a ha).zero
  case next => exact hrow.next
  case apart => exact hrow.apart
  case inside => exact fun a ha => (hrow.inside a ha).trans hsize.le
  case alignment => exact hrow.alignment
  case size =>
    change NextMultiple placed.alignment _ (alignUp placed.stop placed.alignment)
    rw [hrow.stop] at hsize ⊢
    exact hsize

theorem Grown.recordLayout_arrange (h : r.Grown) (hks : r.LaysAll members ks) :
    r.recordLayout members = if (arrange 0 1 members ks).layout.size < wordLimit then
      .ok (arrange 0 1 members ks).layout else .error .overflow := by
  have hstop : (arrange 0 1 members ks).stop ≤ (arrange 0 1 members ks).layout.size :=
    le_alignUp _ _
  rw [recordLayout, place_arrange (h.alignments_pos hks) hks (by decide)]
  by_cases hsize : (arrange 0 1 members ks).layout.size < wordLimit
  · rw [if_pos (Nat.lt_of_le_of_lt hstop hsize), if_pos hsize]
    exact if_neg (Nat.not_le.2 hsize)
  · rw [if_neg hsize]
    split
    · exact if_pos (Nat.not_lt.1 hsize)
    · rfl

theorem Grown.register_arrange (h : r.Grown) (hks : r.LaysAll members ks) {name : String}
    (hfree : r.contains name = false) :
    r.register name members = if (arrange 0 1 members ks).layout.size < wordLimit then
      .ok (r.insert name (arrange 0 1 members ks).layout) else .error .overflow := by
  rw [register_eq, hfree, h.recordLayout_arrange hks, apply_ite (Except.map _)]
  rfl

theorem Grown.layout_eq (h : r.Grown) (hks : r.LaysAll members ks)
    (hl : r.recordLayout members = .ok l) : (arrange 0 1 members ks).layout = l := by
  rw [h.recordLayout_arrange hks] at hl
  split at hl
  · exact Except.ok.inj hl
  · cases hl

theorem Grown.conforms (h : r.Grown) (hks : r.LaysAll members ks)
    (hl : r.recordLayout members = .ok l) : Conforms members ks l :=
  h.layout_eq hks hl ▸ h.arrange_conforms hks

theorem place_mono (hle : r.Le s) {offset alignment : Nat} {placed : PlacedMembers}
    (h : r.place offset alignment members = .ok placed) :
    s.place offset alignment members = .ok placed := by
  induction members generalizing offset alignment placed with
  | nil => exact h
  | cons first rest ih =>
    obtain ⟨k, others, hk, hfits, hothers, rfl⟩ := place_cons h
    rw [place_first s offset alignment rest (hle.layoutOf hk), if_neg (Nat.not_le.2 hfits),
      ih hothers]
    rfl

theorem recordLayout_mono (hle : r.Le s) (h : r.recordLayout members = .ok l) :
    s.recordLayout members = .ok l := by
  obtain ⟨placed, hplaced, rfl, hword⟩ := recordLayout_place h
  rw [recordLayout, place_mono hle hplaced]
  exact if_neg (Nat.not_le.2 hword)

theorem Grown.origin (h : r.Grown) {name : String} (hl : r.get? name = some l) :
    Registry.initial.get? name = some l ∨ ∃ members, r.recordLayout members = .ok l := by
  induction h with
  | initial => exact .inl hl
  | register hr hnext ih =>
    rcases get?_register hnext hl with hold | ⟨-, hnew⟩
    · refine (ih hold).imp_right fun ⟨members, hmembers⟩ => ⟨members, ?_⟩
      exact recordLayout_mono (register_le hnext) hmembers
    · exact .inr ⟨_, recordLayout_mono (register_le hnext) hnew⟩

theorem laysAll_of_recordLayout (h : r.recordLayout members = .ok l) :
    ∃ ks, r.LaysAll members ks := by
  have hplace : ∀ (offset alignment : Nat) (placed : PlacedMembers),
      r.place offset alignment members = .ok placed → ∃ ks, r.LaysAll members ks := by
    clear h
    induction members with
    | nil => exact fun _ _ _ _ => ⟨[], .nil⟩
    | cons first rest ih =>
      intro offset alignment placed hplaced
      obtain ⟨k, others, hk, -, hothers, -⟩ := place_cons hplaced
      obtain ⟨ks, hks⟩ := ih _ _ _ hothers
      exact ⟨k :: ks, .cons hk hks⟩
  obtain ⟨placed, hplaced, -⟩ := recordLayout_place h
  exact hplace _ _ _ hplaced

end Members

section Leaves

variable {r : Registry} {l k : Layout}

/-- A value without parts inside a value of the type, with its size. Arrays are made of an address
and a length. -/
inductive Contains (r : Registry) : Ty → Leaf → Nat → Prop
  | pointer {t} : Contains r (.pointer t) ⟨0, .integer⟩ 8
  | address {t n} : Contains r (.array t n) ⟨0, .integer⟩ 8
  | length {t n} : Contains r (.array t n) ⟨8, .integer⟩ 8
  | plain {name l kind} : r.get? name = some l → l.members = [] → l.size ≠ 0 →
      l.classes.head? = some kind → Contains r (.base name) ⟨0, kind⟩ l.size
  | member {name l m leaf n} : r.get? name = some l → m ∈ l.members → Contains r m.ty leaf n →
      Contains r (.base name) (leaf.shift m.offset) n

theorem layoutOf_base {name : String} : r.layoutOf (.base name) = .ok l ↔ r.get? name = some l := by
  simp only [layoutOf]
  split
  case h_1 k hk => simp [hk]
  case h_2 hnone => simp [hnone]

theorem initial_members {name : String} (h : initial.get? name = some l) :
    l.members = [] ∧ l.alignment = max l.size 1 := by
  obtain ⟨before, after, hentries, -⟩ := List.lookup_eq_some_iff.1 h
  have hmem : (name, l) ∈ initial.entries := by simp [hentries]
  simp only [initial, List.mem_cons, Prod.mk.injEq, List.not_mem_nil, or_false] at hmem
  rcases hmem with ⟨-, rfl⟩ | ⟨-, rfl⟩ | ⟨-, rfl⟩ | ⟨-, rfl⟩ | ⟨-, rfl⟩ | ⟨-, rfl⟩ | ⟨-, rfl⟩ <;>
    exact ⟨rfl, rfl⟩

/-- Only built-in types have a size but no members. -/
theorem Grown.alignment_of_plain (h : r.Grown) {name : String} (hl : r.get? name = some l)
    (hmembers : l.members = []) (hsize : l.size ≠ 0) : l.alignment = l.size := by
  rcases h.origin hl with hinitial | ⟨members, hrecord⟩
  · have halign := (initial_members hinitial).2
    omega
  · obtain ⟨ks, hks⟩ := laysAll_of_recordLayout hrecord
    have hzero := (h.conforms hks hrecord).size
    simp only [hmembers, List.zip_nil_left, List.getLast?_nil, Option.map_none,
      Option.getD_none] at hzero
    exact absurd hzero.zero hsize

theorem Grown.member_alignment (h : r.Grown) {name : String} (hl : r.get? name = some l)
    {m : LayoutMember} (hm : m ∈ l.members) (hk : r.layoutOf m.ty = .ok k) :
    k.alignment ∣ l.alignment := by
  rcases h.origin hl with hinitial | ⟨members, hrecord⟩
  · rw [(initial_members hinitial).1] at hm
    cases hm
  obtain ⟨ks, hks⟩ := laysAll_of_recordLayout hrecord
  have hconforms := h.conforms hks hrecord
  have hmem : k ∈ ks := by
    have hdeclared : (m.name, m.ty) ∈ members := by
      rw [← hconforms.declared]
      exact List.mem_map_of_mem hm
    clear hrecord hconforms
    induction hks with
    | nil => cases hdeclared
    | cons hfirst _ ih =>
      rcases List.mem_cons.1 hdeclared with heq | hrest
      · rw [← heq, hk] at hfirst
        cases hfirst
        exact List.mem_cons_self
      · exact List.mem_cons_of_mem _ (ih hrest)
  have hle : k.alignment ≤ l.alignment := by
    rw [hconforms.alignment]
    exact (le_foldl_max _ _).2 _ (List.mem_map_of_mem hmem)
  have hlays := (h.lays (layoutOf_base.2 hl)).alignment
  rcases (h.lays hk).alignment with ha | ha | ha <;> rw [ha] at hle ⊢ <;>
    rcases hlays with hb | hb | hb <;> rw [hb] at hle ⊢ <;> first | decide | omega

/-- Every leaf lies inside of its value, at a multiple of its size, and the value is aligned for
it. -/
theorem Grown.contains_natural (h : r.Grown) {t : Ty} {leaf : Leaf} {n : Nat}
    (hleaf : r.Contains t leaf n) (hl : r.layoutOf t = .ok l) :
    (n = 1 ∨ n = 4 ∨ n = 8) ∧ n ∣ leaf.offset ∧ n ∣ l.alignment ∧ leaf.offset + n ≤ l.size := by
  induction hleaf generalizing l with
  | pointer | address | length =>
    cases hl
    decide
  | plain hget hmembers hsize _ =>
    obtain rfl := Option.some.inj ((layoutOf_base.1 hl).symm.trans hget)
    have halign := h.alignment_of_plain hget hmembers hsize
    have hlays := (h.lays hl).alignment
    rw [halign] at hlays ⊢
    exact ⟨hlays, Nat.dvd_zero _, Nat.dvd_refl _, by simp⟩
  | @member name l' m leaf n hget hm _ ih =>
    obtain rfl := Option.some.inj ((layoutOf_base.1 hl).symm.trans hget)
    obtain ⟨k, hk, hoffset, hinside⟩ := (h.lays hl).members m hm
    obtain ⟨hn, hdvd, halign, hle⟩ := ih hk
    refine ⟨hn, Nat.dvd_add (Nat.dvd_trans halign hoffset) hdvd,
      Nat.dvd_trans halign (h.member_alignment hget hm hk), ?_⟩
    change m.offset + leaf.offset + n ≤ l.size
    omega

end Leaves

/-- Registering a record under a free name lays it out as C does if its size is a word, and fails
otherwise. In an array of such records every value without parts is aligned. -/
theorem register_conforms (requests : List Request) (name : String)
    {members : List (String × Ty)} {ks : List Layout}
    (hks : (initial.answerAll requests).LaysAll members ks) :
    ∃ l, Conforms members ks l ∧
      ((∃ next, (initial.answerAll requests).register name members = .ok next) ↔
        (initial.answerAll requests).contains name = false ∧ l.size < wordLimit) ∧
      ((initial.answerAll requests).register name members = .error .overflow ↔
        (initial.answerAll requests).contains name = false ∧ wordLimit ≤ l.size) ∧
      ∀ next, (initial.answerAll requests).register name members = .ok next →
        next.get? name = some l ∧
        ∀ base index leaf n, l.alignment ∣ base → next.Contains (.base name) leaf n →
          n ∣ base + index * l.size + leaf.offset := by
  have hgrown := grown_answerAll requests
  generalize initial.answerAll requests = r at hks hgrown ⊢
  refine ⟨_, hgrown.arrange_conforms hks, ?_, ?_, fun next hnext => ?_⟩
  · cases hname : r.contains name with
    | true => simp [register_eq, hname]
    | false =>
      rw [hgrown.register_arrange hks hname]
      split <;> simp [*]
  · cases hname : r.contains name with
    | true => simp [register_eq, hname]
    | false => simp [hgrown.register_arrange hks hname]
  · have hnextGrown := hgrown.register hnext
    obtain ⟨l, hl, hfree, rfl⟩ := register_spec hnext
    obtain rfl := hgrown.layout_eq hks hl
    have hget : (r.insert name (arrange 0 1 members ks).layout).get? name =
        some (arrange 0 1 members ks).layout := by
      rw [get?_insert, hfree]
      simp
    refine ⟨hget, fun base index leaf n hbase hleaf => ?_⟩
    obtain ⟨-, hoffset, halign, -⟩ := hnextGrown.contains_natural hleaf (layoutOf_base.2 hget)
    have hsize := (hnextGrown.lays (layoutOf_base.2 hget)).size
    have hstride : n ∣ index * (arrange 0 1 members ks).layout.size :=
      Nat.dvd_trans (Nat.dvd_trans halign hsize) (Nat.dvd_mul_left _ index)
    exact Nat.dvd_add (Nat.dvd_add (Nat.dvd_trans halign hbase) hstride) hoffset

/-- A record with padding, and with another record and an array in it. -/
def entryMembers : List (String × Ty) :=
  [("tag", .byte), ("pair", .base "Pair"), ("items", .bytes), ("last", .bool)]

theorem register_conforms_entry : ∃ ks next l,
    (initial.answerAll [.record ⟨"Pair", [("a", .float), ("b", .i32)]⟩]).LaysAll entryMembers ks ∧
    (initial.answerAll [.record ⟨"Pair", [("a", .float), ("b", .i32)]⟩]).register "Entry"
      entryMembers = .ok next ∧
    next.get? "Entry" = some l ∧ Conforms entryMembers ks l ∧
    l.members.map LayoutMember.offset = [0, 4, 16, 32] ∧ l.size = 40 := by
  have hks : (initial.answerAll [.record ⟨"Pair", [("a", .float), ("b", .i32)]⟩]).LaysAll
      entryMembers [.primitive 1 .integer,
        ⟨8, 4, [⟨"a", .float, 0⟩, ⟨"b", .i32, 4⟩], [.integer], [⟨0, .sse⟩, ⟨4, .integer⟩]⟩,
        .array, .primitive 1 .integer] :=
    .cons rfl (.cons rfl (.cons rfl (.cons rfl .nil)))
  obtain ⟨l, hlayout, -, -, hlays⟩ := register_conforms _ "Entry" hks
  obtain ⟨hl, -⟩ := hlays _ rfl
  cases hl
  exact ⟨_, _, _, hks, rfl, rfl, hlayout, rfl, rfl⟩

end Registry

end RegionCompiler
