import RegionCompiler.Proofs.Typing.Arguments
import RegionCompiler.Proofs.Typing.Judgment

/-! Inference is sound: an expression that gets a type has it by the rules, under the annotations
that inference leaves in it. -/
namespace RegionCompiler

theorem Ty.known_of_isPlain {r : Registry} {t : Ty} {name : String} (h : t.isPlain name)
    (hr : r.contains name) : t.Known r := by
  cases t <;> simp [Ty.isPlain] at h
  subst h
  exact hr

theorem Ty.known_of_isNumeric {r : Registry} (hr : Registry.initial.Le r) {t : Ty}
    (h : t.isNumeric) : t.Known r := by
  simp only [Ty.isNumeric, Ty.isInteger, Ty.isFloating, Bool.or_eq_true] at h
  rcases h with ((h | h) | h) | h | h <;>
    exact Ty.known_of_isPlain h (hr.contains (by decide))

theorem Ty.known_int {r : Registry} (hr : Registry.initial.Le r) : Ty.int.Known r := by
  have h : Registry.initial.contains "int" := by decide
  exact hr.contains h

theorem Ty.known_bool {r : Registry} (hr : Registry.initial.Le r) : Ty.bool.Known r := by
  have h : Registry.initial.contains "bool" := by decide
  exact hr.contains h

theorem Ty.known_bytes {r : Registry} (hr : Registry.initial.Le r) : Ty.bytes.Known r := by
  have h : Registry.initial.contains "byte" := by decide
  exact hr.contains h

namespace Typing

variable {D : Decls}

theorem Leads.known (hD : D.Sound) : ∀ {base t : Ty} {accessors : List Accessor},
    Leads D base accessors t → base.Known D.layouts → t.Known D.layouts
  | _, _, _, .nil, hbase => hbase
  | _, _, _, .index _ h, hbase => Leads.known hD h hbase
  | _, _, _, .dereference h, hbase => Leads.known hD h hbase
  | _, _, _, .member hl hm h, _ =>
    Leads.known hD h (hD.members hl _ (List.mem_of_find?_eq_some hm))

theorem Refers.known (hD : D.Sound) {head : Head} {accessors : List Accessor} {t : Ty}
    (h : Refers D head accessors t) : t.Known D.layouts := by
  cases h with
  | value hdecl hf h => exact h.known hD (hD.value hdecl hf)
  | call hdecl _ h => exact h.known hD (hD.result hdecl)

theorem HasType.known (hD : D.Sound) {e : Expr} {t : Ty} (h : HasType D e t) :
    t.Known D.layouts := by
  cases h with
  | integer h => exact Ty.known_of_isNumeric hD.builtin h
  | float h => exact Ty.known_of_isNumeric hD.builtin (by simp [Ty.isNumeric, h])
  | boolean => exact Ty.known_bool hD.builtin
  | string => exact Ty.known_bytes hD.builtin
  | null _ h => exact h
  | reference h => exact h.known hD
  | parenthesized h => exact HasType.known hD h
  | emptyArray h => exact h
  | array h _ =>
    have ht := HasType.known hD h
    exact ht
  | allocation _ h => exact h
  | addressOf h _ => exact h.known hD
  | unary h _ => exact HasType.known hD h
  | binary h _ _ _ =>
    unfold binaryType
    split
    · exact Ty.known_bool hD.builtin
    · exact HasType.known hD h
  | conversion _ _ h => exact h
  | construct h _ => exact Option.isSome_iff_exists.2 ⟨_, h⟩

/-- The declarations cover all that an environment offers to expressions of a scope. -/
structure Fits (env : Env) (scope : ScopePath) (D : Decls) : Prop where
  layouts : D.layouts = env.layouts
  sound : D.Sound
  types : ∀ name, env.types.contains name → D.layouts.contains name
  resolves : ∀ {name symbol}, IsName name → env.symbols.resolve scope name = some symbol →
    D.declares ⟨symbol.mangled, symbol.kind⟩ symbol.ty

variable {env : Env} {scope : ScopePath}

/-- An expectation is a type with a layout, or none. -/
def Hint (D : Decls) (t : Ty) : Prop := t = .invalid ∨ t.Known D.layouts

theorem Hint.known {t : Ty} (h : Hint D t) (hv : t.isValid) : t.Known D.layouts := by
  rcases h with rfl | h
  · cases hv
  · exact h

theorem checkTypeExists_known {r : Registry}
    (hr : ∀ name, env.types.contains name → r.contains name) {ty : Located Ty}
    (hd : ty.value.IsData) (h : checkTypeExists env ty = .ok ()) : ty.value.Known r := by
  unfold checkTypeExists at h
  split at h
  · rename_i name hname
    split at h
    · rename_i hin
      exact Ty.known_of_name? (hr name hin) _ hd hname
    · cases h
  · cases h

theorem literalType_isNumeric (literal : IntegerLiteral) (hint : Ty) :
    (literalType literal hint).isNumeric := by
  have hall : ∀ t ∈ literalCandidates literal, ∃ name, t = .base name ∧ t.isNumeric := by
    intro t ht
    unfold literalCandidates at ht
    have hmem : t ∈ [Ty.byte, Ty.i32, Ty.int, Ty.float, Ty.double] := by
      split at ht
      · rcases List.mem_append.1 ht with ht | ht
        · rcases List.mem_append.1 ht with ht | ht <;> split at ht <;> simp_all
        · simp_all
      · split at ht
        · exact List.mem_of_mem_take (i := 3) ht
        · split at ht
          · exact List.mem_cons_of_mem _ (List.mem_of_mem_take (i := 2) ht)
          · simp_all
    simp only [List.mem_cons, List.not_mem_nil, or_false] at hmem
    rcases hmem with rfl | rfl | rfl | rfl | rfl <;> exact ⟨_, rfl, by decide⟩
  unfold literalType
  dsimp only
  split
  · rename_i h
    simp only [Bool.and_eq_true, List.any_eq_true] at h
    obtain ⟨-, t, ht, hagree⟩ := h
    obtain ⟨name, rfl, hn⟩ := hall t ht
    cases hint <;> simp [Ty.agrees] at hagree
    rwa [← hagree]
  · cases hc : literalCandidates literal with
    | nil => decide
    | cons t rest =>
      obtain ⟨_, _, hn⟩ := hall t (by simp [hc])
      exact hn

theorem expectTy_int {span : Span} {name : String} {actual : Result}
    (h : expectTy span (.base name) actual = .ok ()) : actual = .ok (.base name) := by
  cases actual with
  | error d => cases h
  | ok t =>
    simp only [expectTy, bind, Except.bind] at h
    split at h
    · rename_i hagree
      rw [Ty.agrees_base hagree]
    · cases h

theorem expectTy_agrees {span : Span} {expected : Ty} {actual : Result}
    (h : expectTy span expected actual = .ok ()) : ∃ t, actual = .ok t ∧ t.agrees expected := by
  cases actual with
  | error d => cases h
  | ok t =>
    simp only [expectTy, bind, Except.bind] at h
    split at h
    · exact ⟨t, rfl, ‹_›⟩
    · cases h

theorem unaryResult_ok {op : UnaryOp} {span : Span} {t u : Ty}
    (h : unaryResult op span t = .ok u) : u = t ∧ UnaryDefined op t := by
  unfold unaryResult at h
  cases op <;> dsimp only at h <;> split at h <;> cases h
  · rename_i hdefined
    exact ⟨rfl, by simpa [UnaryDefined] using hdefined⟩
  · rename_i hdefined
    exact ⟨rfl, hdefined⟩
  · rename_i hdefined
    exact ⟨rfl, by simpa [UnaryDefined] using hdefined⟩

theorem binaryResult_ok {op : Located BinaryOp} {span : Span} {t u v : Ty}
    (h : binaryResult op span t u = .ok v) :
    t.agrees u ∧ operatorDefined op.value t ∧ v = binaryType op.value t := by
  unfold binaryResult at h
  split at h
  · cases h
  · split at h
    · cases h
    · rename_i hagree hdefined
      refine ⟨by simpa using hagree, by simpa using hdefined, ?_⟩
      unfold binaryType
      split at h
      · cases h
        simp [*]
      · cases h
        simp [*]

theorem checkCount_ok {span : Span} {name : String} {expected actual : Nat} {variadic : Bool}
    (h : checkCount span name expected actual variadic = .ok ()) :
    expected ≤ actual ∧ (variadic = false → actual = expected) := by
  unfold checkCount at h
  cases variadic
  · simp only [Bool.false_eq_true, if_false] at h
    split at h
    · exact ⟨by omega, fun _ => ‹_›⟩
    · cases h
  · simp only [if_true] at h
    split at h
    · exact ⟨‹_›, by simp⟩
    · cases h

theorem memberType_some {t u : Ty} {member : String} (h : memberType env t member = some u) :
    ∃ name l m, t = .base name ∧ env.layouts.get? name = some l ∧ l.member? member = some m ∧
      m.ty = u := by
  unfold memberType at h
  split at h
  · rename_i name
    obtain ⟨m, hm, rfl⟩ := Option.map_eq_some_iff.1 h
    obtain ⟨l, hl, hlm⟩ := Option.bind_eq_some_iff.1 hm
    exact ⟨name, l, m, rfl, hl, hlm, rfl⟩
  · cases h

theorem placeAlong_ok (hD : Fits env scope D) {head head' : Head}
    {accessors accessors' : List Accessor} {along : Ty → List Accessor × Result} {t : Ty}
    (hname : IsName head.name.value)
    (h : placeAlong env scope head accessors along = (head', accessors', .ok t)) :
    ∃ base binding, head' = ⟨head.name, some base, some binding⟩ ∧ D.declares binding base ∧
      (base.isFunction → (accessors.head?.map Accessor.isCall).getD false) ∧
      along base = (accessors', .ok t) := by
  unfold placeAlong bindHead at h
  cases hs : env.symbols.resolve scope head.name.value with
  | none => simp [hs, reject] at h
  | some symbol =>
    simp only [hs] at h
    split at h
    · simp at h
    · rename_i hcalled
      simp only [Prod.mk.injEq] at h
      obtain ⟨rfl, halong⟩ := h
      refine ⟨symbol.ty, ⟨symbol.mangled, symbol.kind⟩, rfl, hD.resolves hname hs, ?_, ?_⟩
      · intro hf
        unfold checkCalled at hcalled
        split at hcalled
        · cases hcalled
        · rename_i hc
          simpa [hf] using hc
      · exact halong

/-- The argument has a type that agrees with that of its member. -/
def Initialized (D : Decls) (members : List LayoutMember) (c : CheckedArgument) : Prop :=
  ∃ m name e t, members[c.position]? = some m ∧ c.after = .mk name e ∧ HasType D e t ∧
    t.agrees m.ty

theorem settleArguments_initializes {members : List LayoutMember} {checked : List CheckedArgument}
    {k : Nat} {arguments : List Argument}
    (hpositions : checked.map (·.position) = List.range' k checked.length)
    (hlength : members.length = k + checked.length)
    (hsound : ∀ c ∈ checked, c.outcome = .ok () → Initialized D members c)
    (h : settleArguments checked = (arguments, .ok ())) :
    Initializes D (members.drop k) arguments := by
  induction checked generalizing k arguments with
  | nil =>
    cases h
    rw [List.drop_eq_nil_of_le (by simp [hlength])]
    exact .nil
  | cons c rest ih =>
    unfold settleArguments at h
    split at h
    · rename_i hok
      obtain ⟨m, name, e, t, hm, hafter, ht, hagrees⟩ := hsound c (by simp) hok
      simp only [List.map_cons, List.length_cons, List.range'_succ, List.cons.injEq]
        at hpositions
      rw [hpositions.1] at hm
      cases hs : settleArguments rest with
      | mk others outcome =>
        simp only [hs, Prod.mk.injEq] at h
        obtain ⟨rfl, rfl⟩ := h
        have hrest := ih hpositions.2 (by simpa [Nat.add_assoc, Nat.add_comm 1] using hlength)
          (fun d hd => hsound d (by simp [hd])) hs
        obtain ⟨hk, rfl⟩ := List.getElem?_eq_some_iff.1 hm
        rw [List.drop_eq_getElem_cons hk, hafter]
        exact .cons ht hagrees hrest
    · simp at h

/-- Where accessors lead from a value, or from a function that is called at once. -/
inductive Follows (D : Decls) : Ty → List Accessor → Ty → Prop
  | value {base accessors t} : base.isFunction = false → Leads D base accessors t →
      Follows D base accessors t
  | call {result parameters variadic foreign span arguments rest t} :
      Takes D parameters variadic arguments → Leads D result rest t →
      Follows D (.function result parameters variadic foreign)
        (.call ⟨span, some result⟩ arguments :: rest) t

theorem refers_of_placeAlong (hD : Fits env scope D) {head head' : Head}
    {accessors accessors' : List Accessor} {along : Ty → List Accessor × Result} {t : Ty}
    (hname : IsName head.name.value)
    (halong : ∀ base binding, D.declares binding base →
      (base.isFunction → (accessors.head?.map Accessor.isCall).getD false) →
      along base = (accessors', .ok t) → Follows D base accessors' t)
    (h : placeAlong env scope head accessors along = (head', accessors', .ok t)) :
    Refers D head' accessors' t := by
  obtain ⟨base, binding, rfl, hdecl, hcall, hbase⟩ := placeAlong_ok hD hname h
  cases halong base binding hdecl hcall hbase with
  | value hf hleads => exact .value hdecl hf hleads
  | call htakes hleads => exact .call hdecl htakes hleads

theorem isCall_inferAccessors {name : String} {running : Ty} {accessors : List Accessor} :
    (inferAccessors env scope name running accessors).1.map Accessor.isCall =
      accessors.map Accessor.isCall := by
  induction accessors generalizing running with
  | nil => simp [inferAccessors]
  | cons a rest ih =>
    cases a with
    | call node arguments =>
      unfold inferAccessors
      split
      · split
        · rfl
        · dsimp only
          split
          · simp [Accessor.isCall]
          · simp [Accessor.isCall, ih]
      · rfl
    | index node position =>
      unfold inferAccessors
      split
      · dsimp only
        split
        · simp [Accessor.isCall]
        · simp [Accessor.isCall, ih]
      · rfl
    | dereference node =>
      unfold inferAccessors
      split
      · simp [Accessor.isCall, ih]
      · rfl
    | member node member =>
      unfold inferAccessors
      split
      · simp [Accessor.isCall, ih]
      · rfl

theorem containsCall_congr {as bs : List Accessor}
    (h : as.map Accessor.isCall = bs.map Accessor.isCall) :
    Place.containsCall as = Place.containsCall bs := by
  have hmap : ∀ cs : List Accessor, Place.containsCall cs = (cs.map Accessor.isCall).any id := by
    intro cs
    simp [Place.containsCall, List.any_map]
  rw [hmap, hmap, h]

theorem endsInCall_congr {as bs : List Accessor}
    (h : as.map Accessor.isCall = bs.map Accessor.isCall) :
    Place.endsInCall as = Place.endsInCall bs := by
  unfold Place.endsInCall
  rw [← List.getLast?_map, ← List.getLast?_map, h]

theorem Follows.leads {base t : Ty} {accessors : List Accessor} (h : Follows D base accessors t)
    (hf : base.isFunction = false) : Leads D base accessors t := by
  cases h with
  | value _ h => exact h
  | call _ _ => cases hf

theorem length_inferElements : ∀ (elements : List Expr) {expected : Ty} {elements' : List Expr}
    {outcome : Except Diagnostic Unit},
    inferElements env scope expected elements = (elements', outcome) →
    elements'.length = elements.length
  | [], expected, elements', outcome, h => by
    cases h
    rfl
  | element :: rest, expected, elements', outcome, h => by
    unfold inferElements at h
    dsimp only at h
    split at h
    · cases h
      rfl
    · cases h
      simp [length_inferElements rest (Prod.ext rfl rfl)]

theorem isCall_placeAlong (hD : Fits env scope D) {head head' : Head}
    {accessors accessors' : List Accessor} {name : String} {t : Ty}
    (hname : IsName head.name.value)
    (h : (placeAlong env scope head accessors fun t => inferAccessors env scope name t accessors)
      = (head', accessors', .ok t)) :
    accessors'.map Accessor.isCall = accessors.map Accessor.isCall := by
  obtain ⟨base, -, -, -, -, hbase⟩ := placeAlong_ok hD hname h
  have hsame := @isCall_inferAccessors env scope name base accessors
  rwa [hbase] at hsame

mutual
theorem infer_sound (hD : Fits env scope D) : ∀ (e : Expr) {hint : Ty} {e' : Expr} {t : Ty},
    Hint D hint → e.Tidy → infer env scope hint e = (e', .ok t) → HasType D e' t
  | .integer node literal, hint, e', t, hhint, htidy, h => by
    cases h
    exact .integer (literalType_isNumeric literal hint)
  | .float node bits, hint, e', t, hhint, htidy, h => by
    cases h
    refine .float ?_
    split
    · assumption
    · decide
  | .boolean node value, hint, e', t, hhint, htidy, h => by
    cases h
    exact .boolean
  | .string node value, hint, e', t, hhint, htidy, h => by
    cases h
    exact .string
  | .null node, hint, e', t, hhint, htidy, h => by
    simp only [infer, Prod.mk.injEq] at h
    obtain ⟨rfl, hr⟩ := h
    split at hr
    · rename_i hp
      cases hr
      simp only [hp, if_true, recorded]
      have hv : hint.isValid := by cases hint <;> simp_all [Ty.isPointer, Ty.isArray, Ty.isValid]
      exact .null (by simpa using hp) (hhint.known hv)
    · cases hr
  | .variable node head accessors, hint, e', t, hhint, htidy, h => by
    simp only [infer, Prod.mk.injEq] at h
    obtain ⟨rfl, hr⟩ := h
    simp only [hr, recorded]
    refine .reference (refers_of_placeAlong hD htidy.1.name
      (fun base binding hdecl hcall hbase => ?_)
      (Prod.ext rfl (Prod.ext rfl hr)))
    exact inferAccessors_sound hD accessors htidy.2 (.inr ⟨binding, hdecl⟩) hcall hbase
  | .parenthesized node inner, hint, e', t, hhint, htidy, h => by
    simp only [infer, Prod.mk.injEq] at h
    obtain ⟨rfl, hr⟩ := h
    simp only [hr, recorded]
    exact .parenthesized (infer_sound hD inner hhint htidy (Prod.ext rfl hr))
  | .array node [], hint, e', t, hhint, htidy, h => by
    simp only [infer, Prod.mk.injEq] at h
    obtain ⟨rfl, hr⟩ := h
    simp only [hr, recorded]
    split at hr
    · rename_i harray
      cases hr
      cases hint <;> simp [Ty.isArray] at harray
      have hk := hhint.known rfl
      exact .emptyArray hk
    · split at hr
      · rename_i hv
        cases hr
        exact .emptyArray (hhint.known hv)
      · cases hr
  | .array node (first :: rest), hint, e', t, hhint, htidy, h => by
    simp only [infer, Prod.mk.injEq] at h
    obtain ⟨rfl, hr⟩ := h
    simp only [hr, recorded]
    have hh : Hint D (if hint.isArray then hint.withoutModifier else .invalid) := by
      split
      · rename_i harray
        rcases hhint with rfl | hk
        · cases harray
        · exact .inr (hk.withoutModifier (.inr harray))
      · exact .inl rfl
    cases hf : infer env scope (if hint.isArray then hint.withoutModifier else .invalid) first with
    | mk first' element =>
      simp only [hf] at hr ⊢
      cases element with
      | error d => cases hr
      | ok u =>
        have hfirst := infer_sound hD first hh htidy.1 hf
        dsimp only at hr ⊢
        cases hes : inferElements env scope u rest with
        | mk rest' outcome =>
          simp only [hes] at hr ⊢
          cases outcome with
          | error d => cases hr
          | ok _ =>
            cases hr
            have hlen := length_inferElements rest hes
            have hel := inferElements_sound hD rest (.inr (hfirst.known hD.sound)) htidy.2 hes
            rw [← hlen]
            exact .array hfirst hel
  | .allocation node size, hint, e', t, hhint, htidy, h => by
    simp only [infer, Prod.mk.injEq] at h
    obtain ⟨rfl, hr⟩ := h
    simp only [hr, recorded]
    split at hr
    · rename_i u
      have hk := hhint.known rfl
      cases hi : infer env scope Ty.int size with
      | mk size' actual =>
        simp only [hi] at hr ⊢
        cases he : expectTy size.span Ty.int actual with
        | error d => simp [he, Except.map] at hr
        | ok _ =>
          simp only [he, Except.map] at hr
          cases hr
          have hint' := expectTy_int he
          subst hint'
          exact .allocation (infer_sound hD size (.inr (Ty.known_int hD.sound.builtin)) htidy hi) hk
    · cases hr
    · cases hr
  | .addressOf node target head accessors, hint, e', t, hhint, htidy, h => by
    unfold infer at h
    split at h
    · cases h
    · rename_i hcalls
      simp only [Prod.mk.injEq] at h
      obtain ⟨rfl, hr⟩ := h
      simp only [hr, recorded]
      cases hp : (placeAlong env scope head accessors fun t =>
          inferAccessors env scope head.name.value t accessors).2.2 with
      | error d => simp [hp, Except.map] at hr
      | ok u =>
        simp only [hp, Except.map] at hr
        cases hr
        refine .addressOf (refers_of_placeAlong hD htidy.1.name
          (fun base binding hdecl hcall hbase => ?_) (Prod.ext rfl (Prod.ext rfl hp))) ?_
        · exact inferAccessors_sound hD accessors htidy.2 (.inr ⟨binding, hdecl⟩) hcall hbase
        · rw [containsCall_congr (isCall_placeAlong hD htidy.1.name
            (Prod.ext rfl (Prod.ext rfl hp)))]
          simpa using hcalls
  | .unary node op operand, hint, e', t, hhint, htidy, h => by
    simp only [infer, Prod.mk.injEq] at h
    obtain ⟨rfl, hr⟩ := h
    simp only [hr, recorded]
    cases hi : infer env scope hint operand with
    | mk operand' inner =>
      simp only [hi] at hr ⊢
      cases inner with
      | error d => cases hr
      | ok u =>
        obtain ⟨rfl, hdefined⟩ := unaryResult_ok hr
        exact .unary (infer_sound hD operand hhint htidy hi) hdefined
  | .binary node op lhs rhs, hint, e', t, hhint, htidy, h => by
    simp only [infer, Prod.mk.injEq] at h
    obtain ⟨rfl, hr⟩ := h
    simp only [hr, recorded]
    have hh : Hint D (if hint.isPlain "bool" then .invalid else hint) := by
      split
      · exact .inl rfl
      · exact hhint
    cases hl : infer env scope (if hint.isPlain "bool" then .invalid else hint) lhs with
    | mk lhs' leftTy =>
      simp only [hl] at hr ⊢
      cases leftTy with
      | error d => cases hr
      | ok u =>
        have hleft := infer_sound hD lhs hh htidy.1 hl
        dsimp only at hr ⊢
        cases hi : infer env scope u rhs with
        | mk rhs' rightTy =>
          simp only [hi] at hr ⊢
          cases rightTy with
          | error d => cases hr
          | ok v =>
            obtain ⟨hagree, hdefined, rfl⟩ := binaryResult_ok hr
            have hright := infer_sound hD rhs (.inr (hleft.known hD.sound)) htidy.2 hi
            exact .binary hleft hright hagree hdefined
  | .conversion node inner target, hint, e', t, hhint, htidy, h => by
    unfold infer at h
    split at h
    · cases h
    · rename_i hexists
      simp only [Prod.mk.injEq] at h
      obtain ⟨rfl, hr⟩ := h
      simp only [hr, recorded]
      cases hi : infer env scope .invalid inner with
      | mk inner' source =>
        simp only [hi] at hr ⊢
        cases source with
        | error d => cases hr
        | ok u =>
          simp only [Except.bind] at hr
          split at hr
          · cases hr
          · rename_i hconv
            cases hr
            refine .conversion (infer_sound hD inner (.inl rfl) htidy.1 hi) ?_
              (checkTypeExists_known hD.types htidy.2 hexists)
            by_cases ha : u.agrees target.value
            · exact .inl ha
            · exact .inr (by simpa [ha] using hconv)
  | .construct node record arguments, hint, e', t, hhint, htidy, h => by
    simp only [infer, Prod.mk.injEq] at h
    obtain ⟨rfl, hr⟩ := h
    simp only [hr, recorded]
    cases hl : env.layouts.get? record.value with
    | none => simp [hl, reject] at hr
    | some l =>
      simp only [hl] at hr ⊢
      cases hc : checkArguments node.span (.base record.value) l arguments with
      | error d => simp [hc] at hr
      | ok _ =>
        simp only [hc] at hr ⊢
        cases hs : settleArguments ((inferArguments env scope l.members 0 arguments).mergeSort
            fun a b => a.position ≤ b.position) with
        | mk settled outcome =>
          simp only [hs] at hr ⊢
          cases outcome with
          | error d => cases hr
          | ok _ =>
            cases hr
            rw [← hD.layouts] at hl
            have hpositions := @map_position_mergeSort env scope _ _ _ _ hc
            have hlength := congrArg List.length hpositions
            simp only [List.length_map, List.length_range] at hlength
            refine .construct hl (settleArguments_initializes (k := 0) ?_ ?_ ?_ hs)
            · rw [hpositions, hlength, List.range_eq_range']
            · omega
            · intro c hcm
              exact inferArguments_sound hD arguments
                (fun m hm => hD.sound.members hl m hm) htidy c (List.mem_mergeSort.1 hcm)
termination_by structural e => e

theorem inferAccessors_sound (hD : Fits env scope D) : ∀ (accessors : List Accessor)
    {name : String} {running : Ty} {accessors' : List Accessor} {t : Ty},
    Accessor.AllTidy accessors → (running.Known D.layouts ∨ ∃ b, D.declares b running) →
    (running.isFunction → (accessors.head?.map Accessor.isCall).getD false) →
    inferAccessors env scope name running accessors = (accessors', .ok t) →
    Follows D running accessors' t
  | [], name, running, accessors', t, htidy, hbase, hcall, h => by
    simp only [inferAccessors, Prod.mk.injEq, Except.ok.injEq] at h
    obtain ⟨rfl, rfl⟩ := h
    refine .value ?_ .nil
    by_contra hf
    simpa using hcall (by simpa using hf)
  | .call node arguments :: rest, name, running, accessors', t, htidy, hbase, hcall, h => by
    unfold inferAccessors at h
    split at h
    · rename_i result parameters variadic foreign
      split at h
      · simp at h
      · rename_i hcount
        obtain ⟨hle, hexact⟩ := checkCount_ok hcount
        dsimp only at h
        cases ha : inferCall env scope parameters 1 arguments with
        | mk arguments' outcome =>
          simp only [ha] at h
          cases outcome with
          | error d => simp at h
          | ok _ =>
            simp only [Prod.mk.injEq] at h
            obtain ⟨rfl, hr⟩ := h
            rcases hbase with hk | ⟨b, hdecl⟩
            · exact hk.elim
            · refine .call (inferCall_sound hD arguments (hD.sound.parameters hdecl) htidy.1
                hle hexact ha) ?_
              have hresult := hD.sound.result hdecl
              exact (inferAccessors_sound hD rest htidy.2 (.inl hresult)
                (fun hf => by simp [hresult.not_isFunction] at hf) (Prod.ext rfl hr)).leads
                hresult.not_isFunction
    · simp [reject] at h
  | .index node position :: rest, name, running, accessors', t, htidy, hbase, hcall, h => by
    unfold inferAccessors at h
    split at h
    · rename_i element length
      have hk : element.Known D.layouts := by
        rcases hbase with hk | ⟨b, hdecl⟩
        · exact hk
        · have hv := hD.sound.value hdecl rfl
          exact hv
      dsimp only at h
      cases hi : infer env scope Ty.int position with
      | mk position' actual =>
        simp only [hi] at h
        split at h
        · simp at h
        · rename_i hexpect
          have hint' := expectTy_int hexpect
          subst hint'
          simp only [Prod.mk.injEq] at h
          obtain ⟨rfl, hr⟩ := h
          refine .value rfl (.index ?_ ?_)
          · exact infer_sound hD position (.inr (Ty.known_int hD.sound.builtin)) htidy.1 hi
          · exact (inferAccessors_sound hD rest htidy.2 (.inl hk)
              (fun hf => by simp [hk.not_isFunction] at hf) (Prod.ext rfl hr)).leads
              hk.not_isFunction
    · simp [reject] at h
  | .dereference node :: rest, name, running, accessors', t, htidy, hbase, hcall, h => by
    unfold inferAccessors at h
    split at h
    · rename_i target
      have hk : target.Known D.layouts := by
        rcases hbase with hk | ⟨b, hdecl⟩
        · exact hk
        · have hv := hD.sound.value hdecl rfl
          exact hv
      simp only [Prod.mk.injEq] at h
      obtain ⟨rfl, hr⟩ := h
      refine .value rfl (.dereference ?_)
      exact (inferAccessors_sound hD rest htidy.2 (.inl hk)
        (fun hf => by simp [hk.not_isFunction] at hf) (Prod.ext rfl hr)).leads hk.not_isFunction
    · simp [reject] at h
  | .member node member :: rest, name, running, accessors', t, htidy, hbase, hcall, h => by
    unfold inferAccessors at h
    split at h
    · rename_i u hu
      obtain ⟨record, l, m, rfl, hl, hm, rfl⟩ := memberType_some hu
      rw [← hD.layouts] at hl
      have hk := hD.sound.members hl m (List.mem_of_find?_eq_some hm)
      simp only [Prod.mk.injEq] at h
      obtain ⟨rfl, hr⟩ := h
      refine .value rfl (.member hl hm ?_)
      exact (inferAccessors_sound hD rest htidy.2 (.inl hk)
        (fun hf => by simp [hk.not_isFunction] at hf) (Prod.ext rfl hr)).leads hk.not_isFunction
    · simp [reject] at h
termination_by structural accessors => accessors

theorem inferCall_sound (hD : Fits env scope D) : ∀ (arguments : List Expr)
    {parameters : List Ty} {position : Nat} {variadic : Bool} {arguments' : List Expr},
    (∀ p ∈ parameters, p.Known D.layouts) → Expr.AllTidy arguments →
    parameters.length ≤ arguments.length →
    (variadic = false → arguments.length = parameters.length) →
    inferCall env scope parameters position arguments = (arguments', .ok ()) →
    Takes D parameters variadic arguments'
  | [], parameters, position, variadic, arguments', hknown, htidy, hle, hexact, h => by
    cases parameters with
    | nil =>
      cases h
      exact .nil
    | cons _ _ => simp at hle
  | argument :: rest, parameters, position, variadic, arguments', hknown, htidy, hle, hexact,
      h => by
    unfold inferCall at h
    cases parameters with
    | nil =>
      have hv : variadic = true := by
        cases variadic
        · simpa using hexact rfl
        · rfl
      subst hv
      simp only [List.headD_nil, List.tail_nil] at h
      cases hi : infer env scope .invalid argument with
      | mk argument' result =>
        simp only [hi] at h
        cases result with
        | error d => simp [Except.bind] at h
        | ok u =>
          simp only [Except.bind, Prod.mk.injEq] at h
          obtain ⟨rfl, hr⟩ := h
          refine .more (infer_sound hD argument (.inl rfl) htidy.1 hi) ?_
          exact inferCall_sound hD rest (by simp) htidy.2 (by simp) (by simp)
            (Prod.ext rfl hr)
    | cons expected others =>
      simp only [List.headD_cons, List.tail_cons] at h
      have hk := hknown expected (by simp)
      cases hi : infer env scope expected argument with
      | mk argument' result =>
        simp only [hi] at h
        cases result with
        | error d => simp [Except.bind] at h
        | ok u =>
          simp only [Except.bind] at h
          by_cases hagree : u.agrees expected
          · simp only [hagree, if_true, Prod.mk.injEq] at h
            obtain ⟨rfl, hr⟩ := h
            refine .cons (infer_sound hD argument (.inr hk) htidy.1 hi) hagree ?_
            exact inferCall_sound hD rest (fun p hp => hknown p (by simp [hp])) htidy.2
              (by simpa using hle) (fun hv => by simpa using hexact hv) (Prod.ext rfl hr)
          · simp [hagree, reject] at h
termination_by structural arguments => arguments

theorem inferElements_sound (hD : Fits env scope D) : ∀ (elements : List Expr) {expected : Ty}
    {elements' : List Expr}, Hint D expected → Expr.AllTidy elements →
    inferElements env scope expected elements = (elements', .ok ()) →
    Elements D expected elements'
  | [], expected, elements', hhint, htidy, h => by
    cases h
    exact .nil
  | element :: rest, expected, elements', hhint, htidy, h => by
    unfold inferElements at h
    cases hi : infer env scope expected element with
    | mk element' result =>
      simp only [hi] at h
      cases result with
      | error d => simp [Except.bind] at h
      | ok u =>
        simp only [Except.bind] at h
        by_cases hagree : u.agrees expected
        · simp only [hagree, if_true, Prod.mk.injEq] at h
          obtain ⟨rfl, hr⟩ := h
          refine .cons (infer_sound hD element hhint htidy.1 hi) hagree ?_
          exact inferElements_sound hD rest hhint htidy.2 (Prod.ext rfl hr)
        · simp [hagree, reject] at h
termination_by structural elements => elements

theorem inferArguments_sound (hD : Fits env scope D) : ∀ (arguments : List Argument)
    {members : List LayoutMember} {position : Nat}, (∀ m ∈ members, m.ty.Known D.layouts) →
    Argument.AllTidy arguments → ∀ c ∈ inferArguments env scope members position arguments,
    c.outcome = .ok () → Initialized D members c
  | [], members, position, hknown, htidy, c, hc, hok => by
    simp [inferArguments] at hc
  | .mk name value :: rest, members, position, hknown, htidy, c, hc, hok => by
    unfold inferArguments at hc
    rcases List.mem_cons.1 hc with rfl | hc
    · dsimp only at hok
      obtain ⟨t, ht, hagree⟩ := expectTy_agrees hok
      cases hm : memberFor members position name with
      | none => cases t <;> simp [hm, Ty.agrees] at hagree
      | some m =>
        simp only [hm, Option.map_some, Option.getD_some] at ht hagree ⊢
        rw [memberFor_eq_getElem?] at hm
        have hk := hknown m (List.mem_of_getElem? hm)
        refine ⟨m, name, _, t, hm, rfl, ?_, hagree⟩
        exact infer_sound hD value (.inr hk) htidy.1 (Prod.ext rfl ht)
    · exact inferArguments_sound hD rest hknown htidy.2 c hc hok
termination_by structural arguments => arguments
end

theorem inferPlace_sound (hD : Fits env scope D) {place place' : Place} {t : Ty}
    (htidy : place.Tidy) (h : inferPlace env scope place = (place', .ok t)) :
    Refers D place'.head place'.accessors t ∧
      place'.accessors.map Accessor.isCall = place.accessors.map Accessor.isCall := by
  simp only [inferPlace, Prod.mk.injEq] at h
  obtain ⟨rfl, hr⟩ := h
  constructor
  · refine refers_of_placeAlong hD htidy.1.name (fun base binding hdecl hcall hbase => ?_)
      (Prod.ext rfl (Prod.ext rfl hr))
    exact inferAccessors_sound hD place.accessors htidy.2 (.inr ⟨binding, hdecl⟩) hcall hbase
  · exact isCall_placeAlong hD htidy.1.name (Prod.ext rfl (Prod.ext rfl hr))

theorem isCall_infer (hD : Fits env scope D) : ∀ (e : Expr) {hint : Ty} {e' : Expr} {t : Ty},
    e.Tidy → infer env scope hint e = (e', .ok t) → e.isCall → e'.isCall
  | .variable node head accessors, hint, e', t, htidy, h, hcall => by
    simp only [infer, Prod.mk.injEq] at h
    obtain ⟨rfl, hr⟩ := h
    simp only [Expr.isCall] at hcall ⊢
    rwa [endsInCall_congr (isCall_placeAlong hD htidy.1.name (Prod.ext rfl (Prod.ext rfl hr)))]
  | .parenthesized node inner, hint, e', t, htidy, h, hcall => by
    simp only [infer, Prod.mk.injEq] at h
    obtain ⟨rfl, hr⟩ := h
    simp only [Expr.isCall] at hcall ⊢
    exact isCall_infer hD inner htidy (Prod.ext rfl hr) hcall

end Typing

end RegionCompiler

