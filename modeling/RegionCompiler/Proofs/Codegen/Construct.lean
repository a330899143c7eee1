import RegionCompiler.Codegen.Expr
import RegionCompiler.Proofs.Codegen.Gives
import RegionCompiler.Proofs.Codegen.Move
import RegionCompiler.Proofs.Layout.Placement
import RegionCompiler.Proofs.Machine.Loading
import RegionCompiler.Proofs.Typing.Constructors

/-! Records on the stack. The slot of a record is cleared, and every value moves from the slot in
which it was pushed to the offset of its member. -/
namespace RegionCompiler

namespace Registry

/-- Members lie one behind the other within the record. -/
structure Apart (r : Registry) (size : Nat) (members : List LayoutMember) : Prop where
  inside : ∀ m ∈ members, m.offset + Codegen.sizeIn r m.ty ≤ size
  apart : members.Pairwise fun a b => a.offset + Codegen.sizeIn r a.ty ≤ b.offset

variable {r : Registry} {l : Layout}

theorem sizeIn_of_layoutOf {t : Ty} (hl : r.layoutOf t = .ok l) : Codegen.sizeIn r t = l.size := by
  simp [Codegen.sizeIn, sizeOf?, hl]

theorem Grown.apart (h : r.Grown) {name : String} (hl : r.get? name = some l) :
    r.Apart l.size l.members where
  inside m hm := by
    obtain ⟨k, hk, -, hinside⟩ := (h.lays (layoutOf_base.2 hl)).members m hm
    rwa [sizeIn_of_layoutOf hk]
  apart := by
    rcases h.origin hl with hinitial | ⟨members, hrecord⟩
    · rw [(initial_members hinitial).1]
      exact .nil
    obtain ⟨ks, hks⟩ := laysAll_of_recordLayout hrecord
    have hconforms := h.conforms hks hrecord
    have hlength : l.members.length = ks.length := by
      rw [← hks.length_eq, ← hconforms.declared, List.length_map]
    have hzip : (l.members.zip ks).map Prod.fst = l.members := List.map_fst_zip hlength.le
    have hsizes : ∀ a ∈ l.members.zip ks, Codegen.sizeIn r a.1.ty = a.2.size := by
      have hall : List.Forall₂ (fun m k => r.layoutOf m.ty = .ok k) l.members ks := by
        unfold LaysAll at hks
        rwa [← hconforms.declared, List.forall₂_map_left_iff] at hks
      exact fun a ha => sizeIn_of_layoutOf (List.forall₂_zip hall ha)
    rw [← hzip, List.pairwise_map]
    refine hconforms.apart.imp_of_mem fun {a b} ha _ hab => ?_
    rw [hsizes a ha]
    exact hab

end Registry

namespace Codegen

open Machine Machine.Instr Typing

/-- The code of a record expression from that of its values, each with its member. -/
def filling (r : Registry) (pieces : List (Code × LayoutMember)) : Code :=
  pieces.flatMap fun p => p.1 ++ storeBelow p.2.offset (sizeIn r p.2.ty)

theorem filling_cons (r : Registry) (part : Code) (member : LayoutMember)
    (rest : List (Code × LayoutMember)) : filling r ((part, member) :: rest) =
      part ++ storeBelow member.offset (sizeIn r member.ty) ++ filling r rest := by
  rw [filling, List.flatMap_cons, filling]

section Generation

variable {env : Env}

/-- Each piece is code that the generation gives for the value of its argument. -/
def Pieces (env : Env) (arguments : List Argument) (pieces : List (Code × LayoutMember)) : Prop :=
  List.Forall₂ (fun a p => ∃ s s', exprCode env a.value s = .ok (p.1, s')) arguments pieces

theorem membersCode_yields : ∀ (arguments : List Argument) {members : List LayoutMember},
    (∀ m ∈ members, env.sizeOf m.ty = .ok (sizeIn env.layouts m.ty)) →
    arguments.length = members.length → ∀ s : Supply,
    Yields (membersCode env members arguments) s fun code _ => ∃ pieces,
      Pieces env arguments pieces ∧ pieces.map Prod.snd = members ∧
        code = filling env.layouts pieces
  | [], members, hsizes, hlength, s => by
    rw [membersCode]
    exact .pure ⟨[], .nil, (List.length_eq_zero_iff.1 hlength.symm).symm, rfl⟩
  | .mk _ value :: rest, [], hsizes, hlength, s => by cases hlength
  | .mk _ value :: rest, member :: others, hsizes, hlength, s => by
    obtain ⟨hsize, hothers⟩ := List.forall_mem_cons.1 hsizes
    rw [membersCode]
    refine .known hsize (.bind fun part s' hpart => ?_)
    refine .seq (membersCode_yields rest hothers (by simpa using hlength) s') ?_
    rintro _ s'' ⟨pieces, hpieces, hmembers, rfl⟩
    refine .pure ⟨(part, member) :: pieces, .cons ⟨s, s', hpart⟩ hpieces, ?_, ?_⟩
    · rw [List.map_cons, hmembers]
    · rw [filling_cons]

theorem membersCode_gives_of_values : ∀ (arguments : List Argument) {members : List LayoutMember},
    (∀ m ∈ members, env.sizeOf m.ty = .ok (sizeIn env.layouts m.ty)) →
    (∀ a ∈ arguments, ∀ s, Gives (exprCode env a.value) s fun _ _ => True) → ∀ s : Supply,
    Gives (membersCode env members arguments) s fun _ _ => True
  | [], members, hsizes, hvalues, s => by
    rw [membersCode]
    exact .pure trivial
  | .mk _ value :: rest, [], hsizes, hvalues, s => by
    rw [membersCode]
    exact .pure trivial
  | .mk name value :: rest, member :: others, hsizes, hvalues, s => by
    obtain ⟨hsize, hothers⟩ := List.forall_mem_cons.1 hsizes
    obtain ⟨hvalue, hrest⟩ := List.forall_mem_cons.1 hvalues
    rw [membersCode]
    exact .lift hsize (.bind (hvalue s) fun part s' _ =>
      .bind (membersCode_gives_of_values rest hothers hrest s') fun stores s'' _ => .pure trivial)

end Generation

section Runs

variable {m : Image} {r : Registry} {size i : Nat} {s : State} {base : Word}
  {value : LayoutMember → Nat → BitVec 8} {members : List LayoutMember}

/-- The slot of a record in which some members have their values. -/
structure Filled (r : Registry) (size : Nat) (value : LayoutMember → Nat → BitVec 8)
    (members : List LayoutMember) (base : Word) (memory : Memory) : Prop where
  values : ∀ member ∈ members, ∀ k < sizeIn r member.ty,
    memory (base + BitVec.ofNat 64 (member.offset + k)) = value member k
  zeros : ∀ k < slot size,
    (∀ member ∈ members, k < member.offset ∨ member.offset + sizeIn r member.ty ≤ k) →
    memory (base + BitVec.ofNat 64 k) = 0#8

theorem add_ofNat_inj (a : Word) {j k : Nat} (hj : j < 2 ^ 64) (hk : k < 2 ^ 64)
    (h : a + BitVec.ofNat 64 j = a + BitVec.ofNat 64 k) : j = k := by
  have hoffset := congrArg BitVec.toNat ((BitVec.add_right_inj a).1 h)
  rw [BitVec.toNat_ofNat, BitVec.toNat_ofNat, Nat.mod_eq_of_lt hj, Nat.mod_eq_of_lt hk] at hoffset
  exact hoffset

theorem Filled.congr {memory memory' : Memory}
    (hinside : ∀ m ∈ members, m.offset + sizeIn r m.ty ≤ size)
    (h : Filled r size value members base memory)
    (hsame : ∀ k < slot size,
      memory' (base + BitVec.ofNat 64 k) = memory (base + BitVec.ofNat 64 k)) :
    Filled r size value members base memory' where
  values member hm k hk := by
    have hlast := hinside member hm
    have hslot := le_alignUp size 16
    rw [hsame _ (show member.offset + k < slot size by unfold slot; omega)]
    exact h.values member hm k hk
  zeros k hk hout := by rw [hsame k hk, h.zeros k hk hout]

theorem Filled.snoc {memory memory' : Memory} {member : LayoutMember} {src : Word}
    (h : Filled r size value members base memory) (hapart : r.Apart size (members ++ [member]))
    (hslot : slot size ≤ 2 ^ 64)
    (hvalue : ∀ k < sizeIn r member.ty, memory (src + BitVec.ofNat 64 k) = value member k)
    (hmoves : memory.Moves memory' (base + BitVec.ofNat 64 member.offset) src
      (sizeIn r member.ty)) :
    Filled r size value (members ++ [member]) base memory' := by
  have hsize : size ≤ slot size := le_alignUp size 16
  have hlast := hapart.inside member (by simp)
  have hnew (k : Nat) : base + BitVec.ofNat 64 member.offset + BitVec.ofNat 64 k =
      base + BitVec.ofNat 64 (member.offset + k) := by
    rw [BitVec.ofNat_add, BitVec.add_assoc]
  have hother : ∀ k < slot size,
      k < member.offset ∨ member.offset + sizeIn r member.ty ≤ k →
      memory' (base + BitVec.ofNat 64 k) = memory (base + BitVec.ofNat 64 k) := by
    intro k hk hout
    refine hmoves.others _ fun j hj heq => ?_
    rw [hnew] at heq
    have hplace := add_ofNat_inj base (by omega) (by omega) heq
    omega
  constructor
  · intro old hold k hk
    rcases List.mem_append.1 hold with hold | hold
    · have hbefore := (List.pairwise_append.1 hapart.apart).2.2 old hold member (by simp)
      rw [hother _ (by omega) (by omega)]
      exact h.values old hold k hk
    · obtain rfl := List.mem_singleton.1 hold
      rw [← hnew, hmoves.moved k hk]
      exact hvalue k hk
  · intro k hk hout
    rw [hother k hk (hout member (by simp))]
    exact h.zeros k hk fun old hold => hout old (List.mem_append_left _ hold)

theorem storeBelow_moves {n offset : Nat} (hfits : offset + n ≤ size) (hroom : slot size ≤ 2 ^ 63)
    (hrsp : s.registers .rsp = displace base (-slot n)) : ∃ t,
    straight m.symbols (storeBelow offset n) s = some t ∧ t.registers .rsp = base ∧
      s.memory.Moves t.memory (base + BitVec.ofNat 64 offset) (s.registers .rsp) n := by
  have hsize : size ≤ slot size := le_alignUp size 16
  have hslot : slot n ≤ slot size := by
    rw [slot, slot, alignUp, alignUp, if_neg (by decide), if_neg (by decide)]
    omega
  have hsrc : s.address m.symbols top = s.registers .rsp := by simp [top]
  have hdst : s.address m.symbols (Address.stack (slot n + offset)) =
      base + BitVec.ofNat 64 offset := by
    rw [State.address_stack, hrsp, displace_displace, ← displace_zero base, displace_add,
      displace_displace]
    congr 1
    push_cast
    omega
  have hdisjoint : ∀ j < n, ∀ k < n,
      s.address m.symbols (Address.stack (slot n + offset)) + BitVec.ofNat 64 j ≠
        s.address m.symbols top + BitVec.ofNat 64 k := by
    intro j hj k hk heq
    rw [hdst, hsrc, hrsp] at heq
    have hnumber := congrArg BitVec.toNat heq
    have hn : n ≤ slot n := le_alignUp n 16
    simp only [displace, BitVec.toNat_add, BitVec.toNat_ofInt, BitVec.toNat_ofNat] at hnumber
    omega
  have htop : top.Avoids .r11 := Address.avoids_stack (by decide) 0
  obtain ⟨v, memory, hcopy, hmoves⟩ := copy_moves
    (Address.avoids_stack (by decide) _) htop hdisjoint
  obtain ⟨f, hraise⟩ := straight_raise m.symbols ((s.set .r11 v).withMemory memory) (slot n)
  rw [hdst, hsrc] at hmoves
  have hrun : straight m.symbols (storeBelow offset n) s =
      straight m.symbols (raise (slot n)) ((s.set .r11 v).withMemory memory) := by
    rw [storeBelow, straight_append, hcopy, bind_straight]
  exact ⟨_, hrun.trans hraise, by simp [hrsp], hmoves⟩

/-- The code of the values, one after the other, pushes these bytes, and keeps the record. -/
def ValuesPush (m : Image) (r : Registry) (size : Nat) (value : LayoutMember → Nat → BitVec 8) :
    Nat → State → List (Code × LayoutMember) → Prop
  | _, _, [] => True
  | i, s, (part, member) :: rest => m.Arrives i s fun j t =>
    j = i + part.length ∧
    t.registers .rsp = displace (s.registers .rsp) (-slot (sizeIn r member.ty)) ∧
    (∀ k < slot size, t.memory (s.registers .rsp + BitVec.ofNat 64 k) =
      s.memory (s.registers .rsp + BitVec.ofNat 64 k)) ∧
    (∀ k < sizeIn r member.ty,
      t.memory (t.registers .rsp + BitVec.ofNat 64 k) = value member k) ∧
    ∀ u, straight m.symbols (storeBelow member.offset (sizeIn r member.ty)) t = some u →
      ValuesPush m r size value
        (j + (storeBelow member.offset (sizeIn r member.ty)).length) u rest

theorem filling_arrives (hroom : slot size ≤ 2 ^ 63) {pieces : List (Code × LayoutMember)}
    (hapart : r.Apart size (members ++ pieces.map Prod.snd))
    (hsits : Sits m.code i (filling r pieces))
    (hfilled : Filled r size value members (s.registers .rsp) s.memory)
    (hvalues : ValuesPush m r size value i s pieces) :
    m.Arrives i s fun j t => j = i + (filling r pieces).length ∧
      t.registers .rsp = s.registers .rsp ∧
      Filled r size value (members ++ pieces.map Prod.snd) (t.registers .rsp) t.memory := by
  induction pieces generalizing members i s with
  | nil => exact .here ⟨rfl, rfl, by simpa using hfilled⟩
  | cons piece rest ih =>
    obtain ⟨part, member⟩ := piece
    rw [List.map_cons, List.append_cons] at hapart
    have hfits : member.offset + sizeIn r member.ty ≤ size := hapart.inside member (by simp)
    have hmembers : r.Apart size (members ++ [member]) :=
      ⟨fun m hm => hapart.inside m (List.mem_append_left _ hm),
        (List.pairwise_append.1 hapart.apart).1⟩
    have hold : Filled r size value members (s.registers .rsp) s.memory := hfilled
    rw [filling_cons] at hsits
    refine Image.Arrives.bind hvalues ?_
    rintro _ t ⟨rfl, hrsp, hkept, hvalue, hrest⟩
    obtain ⟨u, hstore, hback, hmoves⟩ := storeBelow_moves (m := m) hfits hroom hrsp
    have hstored : Filled r size value (members ++ [member]) (u.registers .rsp) u.memory := by
      rw [hback]
      refine (hold.congr (fun m hm => hmembers.inside m (List.mem_append_left _ hm)) hkept).snoc
        hmembers (by omega) hvalue hmoves
    refine .straight hsits.left.right hstore ?_
    have hnext : Sits m.code
        (i + part.length + (storeBelow member.offset (sizeIn r member.ty)).length)
        (filling r rest) := by
      have hright := hsits.right
      rwa [List.length_append, ← Nat.add_assoc] at hright
    refine (ih hapart hnext hstored (hrest u hstore)).mono ?_
    rintro j v ⟨rfl, hv, hall⟩
    refine ⟨?_, hv.trans hback, ?_⟩
    · rw [filling_cons]
      simp [Nat.add_assoc]
    · rwa [List.map_cons, List.append_cons]

/-- The code that makes room for a record. -/
def opening (size : Nat) : Code := lower (slot size) ++ zero top (slot size)

theorem straight_opening (symbols : String → Word) (s : State) (hroom : slot size ≤ 2 ^ 63) : ∃ t,
    straight symbols (opening size) s = some t ∧
      t.registers .rsp = displace (s.registers .rsp) (-slot size) ∧
      ∀ k < slot size, t.memory (t.registers .rsp + BitVec.ofNat 64 k) = 0#8 := by
  obtain ⟨count, hcount⟩ : 16 ∣ slot size := dvd_alignUp (by decide)
  have hwords : slot size = 8 * (2 * count) := by omega
  obtain ⟨f, hlower⟩ := straight_lower symbols s (slot size)
  obtain ⟨t, ht⟩ : ∃ t, (s.withFlags f).set .rsp (displace (s.registers .rsp) (-slot size)) = t :=
    ⟨_, rfl⟩
  have htop : t.address symbols top = t.registers .rsp := by simp [top]
  have hzero : straight symbols (zero top (slot size)) t =
      some (t.withMemory (t.memory.zeroed (t.registers .rsp) (slot size))) := by
    rw [hwords, straight_zero symbols t top (by omega), htop]
  refine ⟨t.withMemory (t.memory.zeroed (t.registers .rsp) (slot size)), ?_, ?_, fun k hk => ?_⟩
  · rw [opening, straight_append, hlower, ht, bind_straight, hzero]
  · rw [← ht]
    simp
  · exact t.memory.zeroed_byte _ hk

/-- Wherever the code runs, it leaves a record on the stack in which every member has the bytes that
the code of its value pushed. All other bytes are zero. -/
def BuildsRecord (r : Registry) (l : Layout) (pieces : List (Code × LayoutMember)) (code : Code) :
    Prop :=
  ∀ (m : Image) (i : Nat) (s : State) (value : LayoutMember → Nat → BitVec 8), Sits m.code i code →
    (∀ t, straight m.symbols (opening l.size) s = some t →
      ValuesPush m r l.size value (i + (opening l.size).length) t pieces) →
    m.Arrives i s fun j t => j = i + code.length ∧
      t.registers .rsp = displace (s.registers .rsp) (-slot l.size) ∧
      Filled r l.size value l.members (t.registers .rsp) t.memory

theorem buildsRecord {l : Layout} (hapart : r.Apart l.size l.members)
    (hroom : slot l.size ≤ 2 ^ 63) {pieces : List (Code × LayoutMember)}
    (hmembers : pieces.map Prod.snd = l.members) :
    BuildsRecord r l pieces (opening l.size ++ filling r pieces) := by
  intro m i s value hsits hvalues
  obtain ⟨t, hopening, hrsp, hzeros⟩ := straight_opening m.symbols s hroom
  have hcleared : Filled r l.size value [] (t.registers .rsp) t.memory :=
    ⟨by simp, fun k hk _ => hzeros k hk⟩
  refine .straight hsits.left hopening ?_
  rw [← hmembers] at hapart ⊢
  refine (filling_arrives hroom hapart hsits.right hcleared
    (hvalues t hopening)).mono ?_
  rintro j u ⟨rfl, hback, hfilled⟩
  exact ⟨by rw [List.length_append, Nat.add_assoc], hback.trans hrsp, hfilled⟩

theorem toNat_above (a : Word) {k n : Nat} (h : k + n < 2 ^ 64) :
    (a + BitVec.ofNat 64 k - displace a (-n)).toNat = k + n := by
  simp only [displace, BitVec.toNat_sub, BitVec.toNat_add, BitVec.toNat_ofInt, BitVec.toNat_ofNat]
  omega

theorem valuesPush_literals {m : Image} {r : Registry} {size i : Nat} {s : State}
    (literal : LayoutMember → Int) (hroom : slot size ≤ 2 ^ 63)
    {pieces : List (Code × LayoutMember)} (hsits : Sits m.code i (filling r pieces))
    (hliteral : ∀ p ∈ pieces, p.1 = pushImmediate (literal p.2) ∧ sizeIn r p.2.ty ≤ 8 ∧
      slot (sizeIn r p.2.ty) = 16) :
    ValuesPush m r size
      (fun member k => BitVec.ofNat 8 ((BitVec.ofInt 64 (literal member)).toNat / 256 ^ k))
      i s pieces := by
  induction pieces generalizing i s with
  | nil => trivial
  | cons piece rest ih =>
    obtain ⟨part, member⟩ := piece
    obtain ⟨⟨hpart, hsize, hslot⟩, hrest⟩ := List.forall_mem_cons.1 hliteral
    obtain rfl : part = pushImmediate (literal member) := hpart
    rw [filling_cons] at hsits
    obtain ⟨bits, hbits⟩ : ∃ bits, BitVec.ofInt 64 (literal member) = bits := ⟨_, rfl⟩
    obtain ⟨a, ha⟩ : ∃ a, displace (s.registers .rsp) (-(16 : Nat)) = a := ⟨_, rfl⟩
    obtain ⟨f, hlower⟩ := straight_lower m.symbols (s.set .rax bits) 16
    have hrun : straight m.symbols (pushImmediate (literal member)) s =
        some ((((s.set .rax bits).withFlags f).set .rsp a).put a bits) := by
      rw [pushImmediate, pushRax, straight_append, straight_cons, State.effect_movImm_register,
        bind_straight, straight_nil, bind_straight, straight_append, hbits, hlower, bind_straight]
      simp [top, ← ha]
    rw [ValuesPush]
    refine .straight hsits.left.left hrun
      (.here ⟨rfl, ?_, fun k hk => ?_, fun k hk => ?_, fun u _ => ?_⟩)
    · simp [hslot, ← ha]
    · have hoffset := toNat_above (s.registers .rsp) (k := k) (n := 16) (by omega)
      rw [ha] at hoffset
      rw [State.memory_put, Memory.put_other (by omega)]
      rfl
    · have hbyte : (s.memory.put a bits) (a + BitVec.ofNat 64 k) =
          BitVec.ofNat 8 (bits.toNat / 256 ^ k) :=
        s.memory.store_byte (lt_of_lt_of_le hk hsize) (by omega)
      rw [hbits]
      exact hbyte
    · refine ih ?_ hrest
      have hright := hsits.right
      rwa [List.length_append, ← Nat.add_assoc] at hright

end Runs

section Constructors

variable {env : Env} {node : Node} {record : Located String} {layout : Layout}
  {arguments : List Argument}

theorem sizeOf_members (hgrown : env.layouts.Grown)
    (hl : env.layouts.get? record.value = some layout) :
    ∀ m ∈ layout.members, env.sizeOf m.ty = .ok (sizeIn env.layouts m.ty) := by
  intro m hm
  obtain ⟨k, hk, -⟩ := (hgrown.lays (Registry.layoutOf_base.2 hl)).members m hm
  simp [Env.sizeOf, Env.layoutOf, hk, Registry.sizeIn_of_layoutOf hk]

theorem layoutOf_record (hl : env.layouts.get? record.value = some layout) :
    env.layoutOf (.base record.value) = .ok layout := by
  simp [Env.layoutOf, Registry.layoutOf, hl]

theorem construct_yields (hgrown : env.layouts.Grown)
    (hl : env.layouts.get? record.value = some layout) (hroom : slot layout.size ≤ 2 ^ 63)
    (hlength : arguments.length = layout.members.length) (s : Supply) :
    Yields (exprCode env (.construct { node with ty := some (.base record.value) }
      record arguments))
      s fun code _ => ∃ pieces, Pieces env arguments pieces ∧
        pieces.map Prod.snd = layout.members ∧ BuildsRecord env.layouts layout pieces code := by
  rw [exprCode]
  refine .known rfl (.known (layoutOf_record hl) (.seq (membersCode_yields arguments
    (sizeOf_members hgrown hl) hlength s) ?_))
  rintro _ s' ⟨pieces, hpieces, hmembers, rfl⟩
  exact .pure ⟨pieces, hpieces, hmembers, buildsRecord (hgrown.apart hl) hroom hmembers⟩

theorem construct_gives (hgrown : env.layouts.Grown)
    (hl : env.layouts.get? record.value = some layout)
    (hvalues : ∀ a ∈ arguments, ∀ s, Gives (exprCode env a.value) s fun _ _ => True) (s : Supply) :
    Gives (exprCode env (.construct { node with ty := some (.base record.value) } record arguments))
      s fun _ _ => True := by
  rw [exprCode]
  exact .lift rfl (.lift (layoutOf_record hl) (.bind (membersCode_gives_of_values arguments
    (sizeOf_members hgrown hl) hvalues s) fun stores s' _ => .pure trivial))

/-- Arguments with names pass the checks just if their names are those of the members, each of them
once. They are then put into the members' order, each value with its name, and the code stores each
value at the offset of its member, in a slot that is zero otherwise. -/
theorem named_arguments_construct {scopes : Typing.Env} (hlayouts : env.layouts = scopes.layouts)
    (hgrown : env.layouts.Grown) (hl : env.layouts.get? record.value = some layout)
    (scope : ScopePath) (hint : Ty) (node : Node)
    (hnamed : ∃ a ∈ arguments, a.name.isSome) :
    (checkArguments node.span (.base record.value) layout arguments = .ok () ↔
      CoversMembers layout.members arguments) ∧
    (¬ CoversMembers layout.members arguments → ∃ place problem,
      infer scopes scope hint (.construct node record arguments) =
        (.construct { node with ty := some .invalid } record arguments, reject place problem) ∧
      (problem = .constructorFormat ∨
        (∃ name, problem = .constructorUnknownMember (.base record.value) name) ∨
        problem = .constructorCount (.base record.value) layout.members.length arguments.length)) ∧
    (CoversMembers layout.members arguments → ∃ ordered settled result,
      arguments.Perm ordered ∧ Argument.AllFill ordered settled ∧
      settled.map (fun a => a.name.map (·.value)) = layout.members.map (some ·.name) ∧
      infer scopes scope hint (.construct node record arguments) =
        (.construct { node with ty := some (recorded result) } record settled, result) ∧
      ∀ t, result = .ok t → t = .base record.value ∧
        (slot layout.size ≤ 2 ^ 63 → ∀ s,
          Yields (exprCode env (.construct { node with ty := some t } record settled)) s
            fun code _ => ∃ pieces, Pieces env settled pieces ∧
              pieces.map Prod.snd = layout.members ∧
              BuildsRecord env.layouts layout pieces code) ∧
        ((∀ a ∈ settled, ∀ s, Gives (exprCode env a.value) s fun _ _ => True) → ∀ s,
          Gives (exprCode env (.construct { node with ty := some t } record settled)) s
            fun _ _ => True)) := by
  have hl' : scopes.layouts.get? record.value = some layout := by rwa [← hlayouts]
  have hiff : checkArguments node.span (.base record.value) layout arguments = .ok () ↔
      CoversMembers layout.members arguments :=
    checkArguments_iff_covers node.span (.base record.value) hnamed
  refine ⟨hiff, fun hno => ?_, fun hcovers => ?_⟩
  · cases hc : checkArguments node.span (.base record.value) layout arguments with
    | ok _ => exact absurd (hiff.1 hc) hno
    | error d =>
      obtain ⟨place, problem, rfl, hproblem⟩ := checkArguments_error hc
      exact ⟨place, problem, infer_construct_rejected hl' hc, hproblem⟩
  · obtain ⟨ordered, settled, result, hperm, hfills, hnames, hinfer, hty⟩ :=
      @infer_construct_ordered _ scope hint node _ _ _ hl' hcovers
    refine ⟨ordered, settled, result, hperm, hfills, hnames, hinfer, fun t ht => ?_⟩
    obtain rfl := hty t ht
    have hlength : settled.length = layout.members.length := by
      simpa using congrArg List.length hnames
    exact ⟨rfl, fun hroom => construct_yields hgrown hl hroom hlength, construct_gives hgrown hl⟩

end Constructors

/-- A byte and a quadword, with padding between them. -/
def tagged : Registry := Registry.initial.answerAll [.record ⟨"R", [("tag", .byte), ("x", .int)]⟩]

def taggedLayout : Layout where
  size := 16
  alignment := 8
  members := [⟨"tag", .byte, 0⟩, ⟨"x", .int, 8⟩]
  classes := [.integer, .integer]
  leaves := [⟨0, .integer⟩, ⟨8, .integer⟩]

def number (value : UInt64) (ty : Option Ty) : Expr := .integer ⟨.origin, ty⟩ ⟨value, .decimal⟩

def named (name : String) (value : Expr) : Argument := .mk (some ⟨.origin, name⟩) value

/-- The quadword is given first. -/
def swapped : List Argument := [named "x" (number 7 none), named "tag" (number 1 none)]

def settled : List Argument :=
  [named "tag" (number 1 (some .byte)), named "x" (number 7 (some .int))]

/-- A function without variables. -/
def idle : Env where
  platform := .linux
  layouts := tagged
  routines := []
  foreign := []
  current :=
    ⟨⟨.origin, ⟨.origin, "f"⟩, [], ⟨.origin, .void⟩, .mk .origin false [], .empty⟩, ⟨0, 0, 0⟩⟩

def taggedCode : Code := opening 16 ++ filling tagged
  [(pushImmediate 1, ⟨"tag", .byte, 0⟩), (pushImmediate 7, ⟨"x", .int, 8⟩)]

theorem length_taggedCode : taggedCode.length < 2 ^ 63 := by decide

theorem exprCode_tagged : exprCode idle (.construct ⟨.origin, some (.base "R")⟩ ⟨.origin, "R"⟩
    settled) ⟨0, []⟩ = .ok (taggedCode, ⟨0, []⟩) := by cbv

theorem exprCode_number :
    (∀ s, exprCode idle (number 1 (some .byte)) s = .ok (pushImmediate 1, s)) ∧
    ∀ s, exprCode idle (number 7 (some .int)) s = .ok (pushImmediate 7, s) :=
  ⟨fun s => by cbv, fun s => by cbv⟩

/-- The byte ends up below the quadword, with zeros between them. -/
theorem named_arguments_construct_tagged :
    idle.layouts.Grown ∧ idle.layouts.get? "R" = some taggedLayout ∧
    CoversMembers taggedLayout.members swapped ∧
    infer ⟨tagged, .empty, []⟩ (.ofFunction "f") .invalid
        (.construct ⟨.origin, none⟩ ⟨.origin, "R"⟩ swapped) =
      (.construct ⟨.origin, some (.base "R")⟩ ⟨.origin, "R"⟩ settled, .ok (.base "R")) ∧
    ∀ s : State, (Loading.image .linux taggedCode length_taggedCode).Arrives 0 s fun j t =>
      j = taggedCode.length ∧ ∀ k < 16, t.memory (t.registers .rsp + BitVec.ofNat 64 k) =
        if k = 0 then 1#8 else if k = 8 then 7#8 else 0#8 := by
  have hgrown : idle.layouts.Grown := Registry.grown_answerAll _
  have hl : idle.layouts.get? "R" = some taggedLayout := by cbv
  have hcovers : CoversMembers taggedLayout.members swapped :=
    ⟨["x", "tag"], rfl, .swap _ _ _, by decide⟩
  have hinferred : infer ⟨tagged, .empty, []⟩ (.ofFunction "f") .invalid
        (.construct ⟨.origin, none⟩ ⟨.origin, "R"⟩ swapped) =
      (.construct ⟨.origin, some (.base "R")⟩ ⟨.origin, "R"⟩ settled, .ok (.base "R")) := by cbv
  refine ⟨hgrown, hl, hcovers, hinferred, fun s => ?_⟩
  obtain ⟨-, -, hordered⟩ := @named_arguments_construct idle ⟨.origin, "R"⟩ taggedLayout swapped
    ⟨tagged, .empty, []⟩ rfl hgrown hl (.ofFunction "f") .invalid ⟨.origin, none⟩
    ⟨_, List.mem_cons_self, rfl⟩
  obtain ⟨_, arguments, result, -, -, -, hinfer, hresult⟩ := hordered hcovers
  rw [hinferred] at hinfer
  obtain ⟨rfl, rfl⟩ : arguments = settled ∧ result = .ok (.base "R") := by
    simp only [Prod.mk.injEq, Expr.construct.injEq] at hinfer
    exact ⟨hinfer.1.2.2.symm, hinfer.2.symm⟩
  obtain ⟨-, hyields, -⟩ := hresult _ rfl
  obtain ⟨pieces, hpieces, hmembers, hbuilds⟩ :=
    hyields (by decide) ⟨0, []⟩ _ _ exprCode_tagged
  have hcode : pieces =
      [(pushImmediate 1, ⟨"tag", .byte, 0⟩), (pushImmediate 7, ⟨"x", .int, 8⟩)] := by
    obtain ⟨htag, hx⟩ := exprCode_number
    cases hpieces with | @cons _ first _ _ hfirst hrest
    cases hrest with | @cons _ second _ _ hsecond hrest
    cases hrest
    obtain ⟨s, s', hfirst⟩ := hfirst
    obtain ⟨u, u', hsecond⟩ := hsecond
    have htagCode := (Prod.mk.inj (Except.ok.inj ((htag s).symm.trans hfirst))).1
    have hxCode := (Prod.mk.inj (Except.ok.inj ((hx u).symm.trans hsecond))).1
    simp only [taggedLayout, List.map_cons, List.map_nil, List.cons.injEq] at hmembers
    rw [htagCode, hxCode, ← hmembers.1, ← hmembers.2.1]
  subst hcode
  have hsits : Sits (Loading.image .linux taggedCode length_taggedCode).code 0 taggedCode :=
    fun k instr hk => by rwa [Nat.zero_add]
  refine (hbuilds _ 0 s _ hsits fun t _ => valuesPush_literals
    (fun member => if member.name = "tag" then 1 else 7) (by decide) hsits.right
    (by decide)).mono ?_
  rintro j t ⟨rfl, -, hvalues, hzeros⟩
  refine ⟨Nat.zero_add _, fun k hk => ?_⟩
  have hbyte : sizeIn idle.layouts .byte = 1 := by cbv
  have hword : sizeIn idle.layouts .int = 8 := by cbv
  have htag := hvalues ⟨"tag", .byte, 0⟩ (by simp [taggedLayout]) 0 (by simp [hbyte])
  have hx (n : Nat) (hn : n < 8) :=
    hvalues ⟨"x", .int, 8⟩ (by simp [taggedLayout]) n (by simpa [hword])
  by_cases hpadding : 1 ≤ k ∧ k < 8
  · rw [if_neg (by omega), if_neg (by omega)]
    refine hzeros k (lt_of_lt_of_eq hk (by decide)) ?_
    simp only [taggedLayout, List.mem_cons, List.not_mem_nil, or_false, forall_eq_or_imp, forall_eq]
    rw [hbyte, hword]
    omega
  · rcases Nat.lt_or_ge k 8 with hlow | hhigh
    · obtain rfl : k = 0 := by omega
      exact htag
    · obtain ⟨n, rfl⟩ := Nat.exists_eq_add_of_le hhigh
      have hseven : ∀ n < 8, BitVec.ofNat 8 ((BitVec.ofInt 64 7).toNat / 256 ^ n) =
          if n = 0 then 7#8 else 0#8 := by decide
      rw [if_neg (by omega)]
      refine (hx n (by omega)).trans ((hseven n (by omega)).trans ?_)
      simp

end Codegen

end RegionCompiler
