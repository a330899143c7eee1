import RegionCompiler.Proofs.Codegen.Operator

/-! Code generation succeeds on every expression that obeys the rules of typing, and the code
pushes one slot of the size of its type. -/
namespace RegionCompiler.Codegen

open Machine Machine.Instr Typing

theorem sizeIn_builtin {r : Registry} (hr : Registry.initial.Le r) {name : String} {l : Layout}
    (h : Registry.initial.get? name = some l) : sizeIn r (.base name) = l.size := by
  simp [sizeIn, Registry.sizeOf?, Registry.layoutOf, hr name l h]

theorem slot_of_isPlain {r : Registry} (hr : Registry.initial.Le r) {t : Ty} {name : String}
    (ht : t.isPlain name)
    (h : (Registry.initial.get? name).map (fun l => slot l.size) = some 16) :
    slot (sizeIn r t) = 16 := by
  obtain ⟨l, hl, hslot⟩ := Option.map_eq_some_iff.1 h
  cases t <;> simp [Ty.isPlain] at ht
  rw [ht, sizeIn_builtin hr hl, hslot]

theorem slot_int {r : Registry} (hr : Registry.initial.Le r) : slot (sizeIn r Ty.int) = 16 :=
  slot_of_isPlain hr (show Ty.int.isPlain "int" from rfl) rfl

theorem slot_bool {r : Registry} (hr : Registry.initial.Le r) : slot (sizeIn r Ty.bool) = 16 :=
  slot_of_isPlain hr (show Ty.bool.isPlain "bool" from rfl) rfl

theorem slot_numeric {r : Registry} (hr : Registry.initial.Le r) {t : Ty} (h : t.isNumeric) :
    slot (sizeIn r t) = 16 := by
  simp only [Ty.isNumeric, Ty.isInteger, Ty.isFloating, Bool.or_eq_true] at h
  rcases h with ((h | h) | h) | h | h <;> exact slot_of_isPlain hr h rfl

theorem slot_address {r : Registry} {t : Ty} (h : t.isPointer ∨ t.isArray) :
    slot (sizeIn r t) = 16 := by
  cases t <;> simp [Ty.isPointer, Ty.isArray] at h <;>
    simp [sizeIn, Registry.sizeOf?, Registry.layoutOf] <;> decide

theorem slot_operand {r : Registry} (hr : Registry.initial.Le r) {op : BinaryOp} {t : Ty}
    (h : operatorDefined op t) : slot (sizeIn r t) = 16 := by
  unfold operatorDefined at h
  split at h
  · exact slot_of_isPlain hr h rfl
  · split at h
    · rcases Bool.or_eq_true _ _ ▸ h with h | h
      · exact slot_numeric hr h
      · exact slot_of_isPlain hr h rfl
    · split at h
      · exact slot_numeric hr (by simp_all [Ty.isNumeric])
      · exact slot_numeric hr (by simp_all [Ty.isNumeric])

theorem slot_binaryType {r : Registry} (hr : Registry.initial.Le r) {op : BinaryOp} {t : Ty}
    (h : operatorDefined op t) : slot (sizeIn r (binaryType op t)) = 16 := by
  unfold binaryType
  split
  · exact slot_bool hr
  · exact slot_operand hr h

theorem isFloating_of_precision {t : Ty} {p : Precision} (h : t.precision? = some p) :
    t.isFloating := by
  unfold Ty.precision? at h
  split at h
  · simp_all [Ty.isFloating]
  · split at h
    · simp_all [Ty.isFloating]
    · cases h

theorem floating_operator {op : BinaryOp} {t : Ty} {p : Precision} (h : operatorDefined op t)
    (hp : t.precision? = some p) : op.isFloatingArithmetic ∨ op.isComparison := by
  have hf := isFloating_of_precision hp
  unfold operatorDefined at h
  split at h
  · cases t <;> simp_all [Ty.isPlain, Ty.isFloating]
  · split at h
    · exact .inr ‹_›
    · exact .inl (by simpa [hf] using h)

theorem slot_conversion {r : Registry} (hr : Registry.initial.Le r) {t u : Ty} (ht : t.Known r)
    (h : t.agrees u ∨ isValidConversion t u) : slot (sizeIn r u) = slot (sizeIn r t) := by
  rcases h with h | h
  · rw [sizeIn_of_agrees h ht]
  · unfold isValidConversion at h
    split at h
    · rw [slot_numeric hr h, slot_numeric hr (by simp_all [Ty.isNumeric])]
    · split at h
      · rename_i hf
        rw [slot_numeric hr (t := t) (by simp [Ty.isNumeric, hf])]
        refine slot_numeric hr ?_
        simp only [Ty.isNumeric, Ty.isInteger, Bool.or_eq_true] at h ⊢
        rcases h with (h | h) | h <;> simp [h]
      · cases h

section Calls

variable {env : Env} {D : Decls} {s : Supply}

theorem functionSymbol_ne (name : String) :
    functionSymbol name ≠ Collector.enterSymbol ∧ functionSymbol name ≠ Collector.exitSymbol := by
  have hf : (functionSymbol name).toList.head? = some 'f' := by
    simp [functionSymbol, String.toList_append]
  constructor
  · intro h
    rw [h] at hf
    exact absurd hf (by decide)
  · intro h
    rw [h] at hf
    exact absurd hf (by decide)

theorem callWith_delivers (hE : env.Fits D) {binding : Binding} {result : Ty} {parameters : List Ty}
    {variadic foreign : Bool}
    (hdecl : D.declares binding (.function result parameters variadic foreign))
    {stores : List StackVariable → Gen Code} {values : Nat → Gen (Code × List Passed)}
    (hstores : ∀ vs, variadic = false →
      List.Forall₂ (fun v t => v.ty = t ∧ ∃ offset, placedAt v = .ok offset) vs parameters →
      Delivers (stores vs) s fun code s' => Keeps s.labels s'.labels code)
    (hvalues : ∀ fixed, Delivers (values fixed) s fun r s' =>
      16 ∣ slotsSize r.2 ∧ Pushes s.labels s'.labels r.1 (slotsSize r.2)) :
    Delivers (callWith env binding result stores values) s fun code s' =>
      Pushes s.labels s'.labels code (slot (sizeIn env.layouts result)) := by
  obtain ⟨mangled, kind⟩ := binding
  have hresult := hE.known (hE.sound.result hdecl)
  unfold callWith
  cases kind with
  | function =>
    obtain ⟨r, result', parameters', hroutine, heq, hfits⟩ := hE.functions hdecl
    cases heq
    refine .lift hroutine (.bind (hstores _ rfl hfits.parameters) fun stored s' hstored =>
      .pure fun C a ha => ?_)
    have hslot : r.frame.resultSlot = slot (sizeIn env.layouts result) := by
      rw [Frame.resultSlot, hfits.result, slot]
    have hbelow := ha.lower (dvd_slot (sizeIn env.layouts result))
    rw [hslot]
    refine .append (.append (.append (.append (.append (.lower _ _) (.lower _ _))
      (hstored C _ (hbelow.lower hfits.arguments))) (.call (hbelow.lower hfits.arguments) ?_ ?_))
      (.raise _ _)) ?_
    · exact (functionSymbol_ne mangled).1
    · exact (functionSymbol_ne mangled).2
    · split
      · exact .call hbelow (by decide) (by decide)
      · exact .nil
  | foreignFunction =>
    obtain ⟨f, _, _, _, hforeign, -, hlink⟩ := hE.foreign hdecl
    obtain ⟨l, hl, hl', hsize⟩ := layoutOf_of_known hresult
    have hclasses : ∀ shape, (if result.isVoid then none
        else some (Convention.Shape.of result l)) = some shape → shape.classes.length ≤ 2 := by
      intro shape hshape
      split at hshape
      · cases hshape
      · cases hshape
        change l.classes.length ≤ 2
        cases result with
        | pointer _ => cases hl'; decide
        | array _ _ => cases hl'; decide
        | base name =>
          simp only [Registry.layoutOf] at hl'
          split at hl'
          · rename_i l' hget
            cases hl'
            rw [hE.layouts] at hget
            exact hE.classes hget
          · cases hl'
        | invalid => cases hl'
        | function _ _ _ _ => cases hl'
    refine .lift hforeign (.lift hl (.bind (hvalues _) fun r s' hr => ?_))
    obtain ⟨pushed, passed⟩ := r
    obtain ⟨plan, hplan, hfair⟩ :=
      Convention.plan_fair env.platform.convention (passed.map Passed.argument) hclasses
    dsimp only
    rw [hplan, Convention.Plan.checked]
    cases plan.fits with
    | false => exact .overflow
    | true =>
      refine .pure fun C a ha => ?_
      have hbelow := ha.lower (dvd_slot l.size)
      rw [← hsize]
      exact .append (.append (.lower _ _) (hr.2 C _ hbelow))
        (callForeign_piece _ hfair hr.1 hlink _ hbelow)
  | parameter => exact absurd (hE.onStack rfl hdecl).1 (by simp [Ty.isFunction])
  | local_ => exact absurd (hE.onStack rfl hdecl).1 (by simp [Ty.isFunction])
  | iterator => exact absurd (hE.onStack rfl hdecl).1 (by simp [Ty.isFunction])
  | embed => exact absurd (hE.embeds hdecl) (by simp [Ty.isFunction])

theorem placeWith_value (hE : env.Fits D) {name : Located String} {base : Ty} {binding : Binding}
    (hdecl : D.declares binding base) (hbase : base.isFunction = false)
    {along : Ty → Gen Code} {called : Binding → Gen (Code × Nat)}
    (halong : Delivers (along base) s fun code s' => Keeps s.labels s'.labels code) :
    Delivers (placeWith env ⟨name, some base, some binding⟩ along called) s fun r s' =>
      r.2 = 0 ∧ Pushes s.labels s'.labels r.1 16 := by
  obtain ⟨mangled, kind⟩ := binding
  have haddress : ∀ address : Address,
      Delivers (do return (pushAddress address ++ (← along base), 0)) s fun r s' =>
        r.2 = 0 ∧ Pushes s.labels s'.labels r.1 16 := by
    intro address
    refine .bind halong fun code s' hcode => .pure ⟨rfl, fun C a ha => ?_⟩
    exact .append (pushAddress_piece address a) (hcode C _ (ha.lower (by decide)))
  cases kind with
  | parameter =>
    obtain ⟨-, address, hlook⟩ := hE.onStack rfl hdecl
    exact .lift rfl (.lift rfl (.lift hlook (haddress address)))
  | local_ =>
    obtain ⟨-, address, hlook⟩ := hE.onStack rfl hdecl
    exact .lift rfl (.lift rfl (.lift hlook (haddress address)))
  | iterator =>
    obtain ⟨-, address, hlook⟩ := hE.onStack rfl hdecl
    exact .lift rfl (.lift rfl (.lift hlook (haddress address)))
  | embed => exact .lift rfl (.lift rfl (haddress _))
  | function =>
    obtain ⟨_, _, _, -, rfl, -⟩ := hE.functions hdecl
    cases hbase
  | foreignFunction =>
    obtain ⟨_, _, _, _, -, rfl, -⟩ := hE.foreign hdecl
    cases hbase

theorem placeWith_called (hE : env.Fits D) {name : Located String} {result : Ty}
    {parameters : List Ty} {variadic foreign : Bool} {binding : Binding}
    (hdecl : D.declares binding (.function result parameters variadic foreign))
    (along : Ty → Gen Code) (called : Binding → Gen (Code × Nat)) :
    placeWith env ⟨name, some (.function result parameters variadic foreign), some binding⟩ along
      called = called binding := by
  obtain ⟨mangled, kind⟩ := binding
  cases kind with
  | function => rfl
  | foreignFunction => rfl
  | parameter => exact absurd (hE.onStack rfl hdecl).1 (by simp [Ty.isFunction])
  | local_ => exact absurd (hE.onStack rfl hdecl).1 (by simp [Ty.isFunction])
  | iterator => exact absurd (hE.onStack rfl hdecl).1 (by simp [Ty.isFunction])
  | embed => exact absurd (hE.embeds hdecl) (by simp [Ty.isFunction])

end Calls

section Expressions

variable {env : Env} {D : Decls}

theorem Leads.call_notMem {base t : Ty} {accessors : List Accessor} (h : Leads D base accessors t)
    (node : Node) (arguments : List Expr) : Accessor.call node arguments ∉ accessors := by
  induction accessors generalizing base with
  | nil => exact List.not_mem_nil
  | cons a rest ih =>
    cases h with
    | index _ h => simpa using ih h
    | dereference h => simpa using ih h
    | member _ _ h => simpa using ih h

theorem Leads.not_call {base t : Ty} {accessors : List Accessor} (h : Leads D base accessors t)
    (node : Node) (arguments : List Expr) : accessors ≠ [.call node arguments] := by
  rintro rfl
  exact Leads.call_notMem h node arguments List.mem_cons_self

theorem exprCode_reference {node : Node} {head : Head} {accessors : List Accessor}
    (h : ∀ n arguments, accessors ≠ [.call n arguments]) :
    exprCode env (.variable node head accessors) = do
      let _ ← resolved node.ty
      let size ← env.sizeOf (← placeTy head accessors)
      let (place, kept) ← placeWith env head
        (fun t => accessorsCode env head.name.value t accessors)
        (fun binding => calledCode env head.name.value binding accessors)
      return valueAt size place kept := by
  rw [exprCode]
  cases accessors with
  | nil => rfl
  | cons a rest =>
    cases a with
    | call n arguments =>
      cases rest with
      | nil => exact absurd rfl (h n arguments)
      | cons b others => rfl
    | index n position => rfl
    | dereference n => rfl
    | member n name => rfl

theorem Leads.getLast_ty : ∀ {base t : Ty} {accessors : List Accessor},
    Leads D base accessors t → ∀ first : Accessor, first.ty = some base →
    ∃ last, (first :: accessors).getLast? = some last ∧ last.ty = some t
  | _, _, _, .nil, first, hfirst => ⟨first, rfl, hfirst⟩
  | _, _, _, .index _ h, first, _ => by
    rw [List.getLast?_cons_cons]
    exact Leads.getLast_ty h _ rfl
  | _, _, _, .dereference h, first, _ => by
    rw [List.getLast?_cons_cons]
    exact Leads.getLast_ty h _ rfl
  | _, _, _, .member _ _ h, first, _ => by
    rw [List.getLast?_cons_cons]
    exact Leads.getLast_ty h _ rfl

theorem placeTy_leads {base t : Ty} {accessors : List Accessor} (h : Leads D base accessors t)
    (name : Located String) (binding : Option Binding) :
    placeTy ⟨name, some base, binding⟩ accessors = .ok t := by
  unfold placeTy
  cases h with
  | nil => rfl
  | index _ h =>
    obtain ⟨last, hlast, hty⟩ := Leads.getLast_ty h (.index ⟨_, some _⟩ _) rfl
    rw [hlast]
    simp [hty, resolved]
  | dereference h =>
    obtain ⟨last, hlast, hty⟩ := Leads.getLast_ty h (.dereference ⟨_, some _⟩) rfl
    rw [hlast]
    simp [hty, resolved]
  | member _ _ h =>
    obtain ⟨last, hlast, hty⟩ := Leads.getLast_ty h (.member ⟨_, some _⟩ _) rfl
    rw [hlast]
    simp [hty, resolved]

theorem placeTy_called {result t : Ty} {rest : List Accessor} (h : Leads D result rest t)
    (head : Head) (span : Span) (arguments : List Expr) :
    placeTy head (.call ⟨span, some result⟩ arguments :: rest) = .ok t := by
  obtain ⟨last, hlast, hty⟩ := Leads.getLast_ty h (.call ⟨span, some result⟩ arguments) rfl
  unfold placeTy
  rw [hlast]
  simp [hty, resolved]

theorem keeps_store {n m k size offset : Nat} {value stores : Code}
    (hvalue : Pushes n m value (slot size)) (hstores : Keeps m k stores) :
    Keeps n k (value ++ storeBelow offset size ++ stores) := fun C a ha =>
  .append (.append (hvalue C a ha) (storeBelow_piece offset size a)) (hstores C a ha)

theorem keeps_element {n m k size index : Nat} {value stores : Code}
    (hvalue : Pushes n m value (slot size)) (hstores : Keeps m k stores) :
    Keeps n k (value ++ [mov Register.r10 (Address.stack (slot size))]
      ++ copy (Address.at_ .r10 (index * size : Nat)) top size ++ raise (slot size) ++ stores) := by
  intro C a ha
  refine .append (.append (.append (.append (hvalue C a ha) (.plain fun i hi => ?_))
    (.plain (copy_plain _ _ _))) (.raise _ _)) (hstores C a ha)
  rw [List.mem_singleton.1 hi]
  rfl

/-- An argument of a C function, promoted or not, takes its own slot above the others. -/
theorem pushes_passed {n m k size : Nat} {value : Code} (hvalue : Pushes n m value (slot size))
    {promoted : Bool} {argument : Convention.ForeignArgument} {r : Code × List Passed}
    (hr : 16 ∣ slotsSize r.2 ∧ Pushes m k r.1 (slotsSize r.2)) :
    16 ∣ slotsSize (⟨argument, slot size⟩ :: r.2) ∧
      Pushes n k (value ++ (if promoted then promote else []) ++ r.1)
        (slotsSize (⟨argument, slot size⟩ :: r.2)) := by
  refine ⟨Nat.dvd_add (dvd_slot size) hr.1, fun C a ha => ?_⟩
  rw [slotsSize, ← Spot.lower_lower]
  refine .append (.append (hvalue C a ha) ?_) (hr.2 C _ (ha.lower (dvd_slot size)))
  split
  · exact .plain promote_plain
  · exact .nil

theorem calledCode_delivers {binding : Binding} {result : Ty} (hk : result.Known env.layouts)
    {arguments : List Expr} {rest : List Accessor} {name : String} {span : Span} {s : Supply}
    (hcall : Delivers (callWith env binding result
      (fun parameters => argumentsCode env parameters arguments)
      (fun fixed => foreignArgumentsCode env fixed arguments)) s fun code s' =>
      Pushes s.labels s'.labels code (slot (sizeIn env.layouts result)))
    (hsteps : ∀ s, Delivers (accessorsCode env name result rest) s fun code s' =>
      Keeps s.labels s'.labels code) :
    Delivers (calledCode env name binding (.call ⟨span, some result⟩ arguments :: rest)) s
      fun r s' => 16 ∣ r.2 ∧ Pushes s.labels s'.labels r.1 (16 + r.2) := by
  rw [calledCode]
  refine .lift rfl (.bind hcall fun call s' hcall => .lift (sizeOf_of_known hk)
    (.bind (hsteps s') fun steps s'' hsteps => .pure ⟨dvd_slot _, fun C a ha => ?_⟩))
  have hbelow := ha.lower (dvd_slot (sizeIn env.layouts result))
  dsimp only
  rw [Nat.add_comm, ← Spot.lower_lower]
  exact .append (.append (hcall C a ha) (pushAddress_piece _ _))
    (hsteps C _ (hbelow.lower (by decide)))

theorem valueCode_delivers (hE : env.Fits D) {name : Located String} {base t : Ty}
    {binding : Binding} {accessors : List Accessor}
    (hdecl : D.declares binding base) (hbase : base.isFunction = false)
    (hleads : Leads D base accessors t) {s : Supply}
    (halong : Delivers (accessorsCode env name.value base accessors) s fun code s' =>
      Keeps s.labels s'.labels code) (span : Span) :
    Delivers (exprCode env (.variable ⟨span, some t⟩ ⟨name, some base, some binding⟩ accessors)) s
      fun code s' => Pushes s.labels s'.labels code (slot (sizeIn env.layouts t)) := by
  have hk := hE.known (hleads.known hE.sound (hE.sound.value hdecl hbase))
  rw [exprCode_reference (Leads.not_call hleads)]
  refine .lift rfl (.lift (placeTy_leads hleads _ _) (.lift (sizeOf_of_known hk)
    (.bind (placeWith_value hE hdecl hbase halong) ?_)))
  rintro ⟨place, kept⟩ s' ⟨rfl, hplace⟩
  exact .pure fun C a ha => valueAt_piece (hplace C a ha)

theorem callCode_delivers (hE : env.Fits D) {name : Located String} {result t : Ty}
    {parameters : List Ty} {variadic foreign : Bool} {binding : Binding} {arguments : List Expr}
    {rest : List Accessor}
    (hdecl : D.declares binding (.function result parameters variadic foreign))
    (hleads : Leads D result rest t) {s : Supply}
    (hcall : Delivers (callWith env binding result
      (fun parameters => argumentsCode env parameters arguments)
      (fun fixed => foreignArgumentsCode env fixed arguments)) s fun code s' =>
      Pushes s.labels s'.labels code (slot (sizeIn env.layouts result)))
    (hsteps : ∀ s, Delivers (accessorsCode env name.value result rest) s fun code s' =>
      Keeps s.labels s'.labels code) (span span' : Span) :
    Delivers (exprCode env (.variable ⟨span, some t⟩
      ⟨name, some (.function result parameters variadic foreign), some binding⟩
      (.call ⟨span', some result⟩ arguments :: rest))) s
      fun code s' => Pushes s.labels s'.labels code (slot (sizeIn env.layouts t)) := by
  by_cases hrest : rest = []
  · subst hrest
    cases hleads
    rw [exprCode]
    exact .lift rfl (.lift rfl (.lift rfl hcall))
  · have ht := hE.known (hleads.known hE.sound (hE.sound.result hdecl))
    rw [exprCode_reference (by simp [hrest])]
    refine .lift rfl (.lift (placeTy_called hleads _ _ _) (.lift (sizeOf_of_known ht) ?_))
    rw [placeWith_called hE hdecl]
    refine .bind (calledCode_delivers (hE.known (hE.sound.result hdecl)) hcall hsteps) ?_
    rintro ⟨place, kept⟩ s' ⟨-, hplace⟩
    exact .pure fun C a ha => valueAt_piece (hplace C a ha)

mutual
theorem exprCode_delivers (hE : env.Fits D) : ∀ (e : Expr) {t : Ty}, HasType D e t → ∀ s : Supply,
    Delivers (exprCode env e) s fun code s' =>
      Pushes s.labels s'.labels code (slot (sizeIn env.layouts t))
  | .integer node literal, t, h, s => by
    cases h with | integer ht
    rw [exprCode]
    refine .lift rfl (.pure fun C a _ => ?_)
    rw [slot_numeric hE.initial ht]
    exact pushImmediate_piece _ a
  | .float node bits, t, h, s => by
    cases h with | float ht
    rw [exprCode]
    refine .lift rfl (.pure fun C a _ => ?_)
    rw [slot_numeric hE.initial (by simp [Ty.isNumeric, ht])]
    exact pushImmediate_piece _ a
  | .boolean node value, t, h, s => by
    cases h
    rw [exprCode]
    refine .lift rfl (.pure fun C a _ => ?_)
    rw [slot_bool hE.initial]
    exact pushImmediate_piece _ a
  | .string node value, t, h, s => by
    cases h
    rw [exprCode]
    refine .lift rfl (.bind (Gives.keepString _).delivers fun symbol s' hs => .pure
      fun C a ha => ?_)
    rw [slot_address (.inr rfl), hs]
    exact stringCode_piece _ _ _ ha
  | .null node, t, h, s => by
    cases h with | null ht hk
    rw [exprCode]
    refine .lift rfl (.pure fun C a _ => ?_)
    rw [slot_address ht]
    exact pushNull_piece a
  | .variable node head [], t, h, s => by
    cases h with | reference h
    cases h with | value hdecl hf hleads
    exact valueCode_delivers hE hdecl hf hleads
      (accessorsCode_delivers hE [] hleads (hE.known (hE.sound.value hdecl hf)) _ s) _
  | .variable node head (.index node' position :: rest), t, h, s => by
    cases h with | reference h
    cases h with | value hdecl hf hleads
    exact valueCode_delivers hE hdecl hf hleads
      (accessorsCode_delivers hE (.index node' position :: rest)
      hleads (hE.known (hE.sound.value hdecl hf)) _ s) _
  | .variable node head (.dereference node' :: rest), t, h, s => by
    cases h with | reference h
    cases h with | value hdecl hf hleads
    exact valueCode_delivers hE hdecl hf hleads
      (accessorsCode_delivers hE (.dereference node' :: rest)
      hleads (hE.known (hE.sound.value hdecl hf)) _ s) _
  | .variable node head (.member node' name :: rest), t, h, s => by
    cases h with | reference h
    cases h with | value hdecl hf hleads
    exact valueCode_delivers hE hdecl hf hleads
      (accessorsCode_delivers hE (.member node' name :: rest)
      hleads (hE.known (hE.sound.value hdecl hf)) _ s) _
  | .variable node head (.call node' arguments :: rest), t, h, s => by
    cases h with | reference h
    cases h with
    | value _ _ hleads => cases hleads
    | call hdecl htakes hleads =>
      refine callCode_delivers hE hdecl hleads (callWith_delivers hE hdecl ?_ fun fixed => ?_)
        (fun s' => accessorsCode_delivers hE rest hleads
          (hE.known (hE.sound.result hdecl)) _ s') _ _
      · intro vs hvariadic hvs
        exact argumentsCode_delivers hE arguments htakes hvariadic hvs s
      · exact foreignArgumentsCode_delivers hE arguments htakes fixed s
  | .parenthesized node inner, t, h, s => by
    cases h with | parenthesized h
    rw [exprCode]
    exact .lift rfl (exprCode_delivers hE inner h s)
  | .array node [], t, h, s => by
    cases h
    rw [exprCode]
    refine .lift rfl (.pure fun C a _ => ?_)
    rw [slot_address (.inr rfl)]
    exact pushNull_piece a
  | .array node (first :: rest), t, h, s => by
    cases h with | array hfirst hrest
    have hk := hE.known (hfirst.known hE.sound)
    rw [exprCode]
    refine .lift rfl (.lift (sizeOf_of_known hk) (.bind
      (P := fun stores s' => Keeps s.labels s'.labels stores) ?_ fun stores s' hstores =>
      .pure fun C a ha => ?_))
    · rw [elementsCode]
      exact .bind (exprCode_delivers hE first hfirst s) fun value s' hvalue =>
        .bind (elementsCode_delivers hE rest hk hrest 1 s') fun stores s'' hstores =>
        .pure (keeps_element hvalue hstores)
    · rw [slot_address (.inr rfl)]
      refine .append (.append (.append (allocate_piece _ _ _ ha) (pushRax_piece a))
        (.plain fun i hi => ?_)) (hstores C _ (ha.lower (by decide)))
      rw [List.mem_singleton.1 hi]
      rfl
  | .allocation node count, t, h, s => by
    cases h with | allocation hsize hk
    rw [exprCode]
    refine .lift rfl (.lift (sizeOf_of_known (hE.known hk))
      (.bind (exprCode_delivers hE count hsize s)
      fun count s' hcount => .pure fun C a ha => ?_))
    rw [slot_int hE.initial] at hcount
    rw [slot_address (.inr rfl)]
    exact .append (hcount C a ha) (allocationCode_piece _ _ (ha.lower (by decide)))
  | .addressOf node span head accessors, t, h, s => by
    cases h with | addressOf h hcalls
    rw [exprCode]
    refine .lift rfl ?_
    cases h with
    | value hdecl hf hleads =>
      refine .bind (placeWith_value hE hdecl hf
        (accessorsCode_delivers hE accessors hleads (hE.known (hE.sound.value hdecl hf)) _ s)) ?_
      rintro ⟨place, kept⟩ s' ⟨hkept, hplace⟩
      dsimp only at hkept ⊢
      rw [if_pos hkept]
      refine .pure fun C a ha => ?_
      rw [slot_address (.inl rfl)]
      exact hplace C a ha
    | call _ _ _ => simp [Place.containsCall, Accessor.isCall] at hcalls
  | .unary node op operand, t, h, s => by
    cases h with | unary h hop
    rw [exprCode]
    refine .lift rfl (.lift (by rw [h.ty_eq]; rfl) (.bind (exprCode_delivers hE operand h s)
      fun value s' hvalue => .pure fun C a ha => ?_))
    exact .append (hvalue C a ha) (unaryCode_piece _ _ (ha.lower (dvd_slot _)))
  | .binary node op lhs rhs, t, h, s => by
    cases h with | @binary _ _ _ _ t _ hl hr hagrees hop
    have hkl := hE.known (hl.known hE.sound)
    have hkr := hE.known (hr.known hE.sound)
    rw [exprCode]
    refine .lift rfl (.lift (by rw [hl.ty_eq]; rfl) (.lift (by rw [hr.ty_eq]; rfl)
      (.bind (exprCode_delivers hE lhs hl s) fun left s' hleft =>
        .bind (exprCode_delivers hE rhs hr s') fun right s'' hright => ?_)))
    rw [sizeIn_of_agrees hagrees hkl] at hright
    rw [slot_operand hE.initial hop] at hleft hright
    -- Both operands and the result take one slot each.
    have hall : ∀ {operation : Code} {m : Nat}, (∀ C a, a.Aligned →
        Piece C s''.labels m (a.lower 16) operation a) →
        Pushes s.labels m (left ++ right ++ operation)
          (slot (sizeIn env.layouts (binaryType op.value t))) := by
      intro operation m hoperation C a ha
      rw [slot_binaryType hE.initial hop]
      have hbelow : (a.lower 16).Aligned := ha.lower (by decide)
      exact .append (.append (hleft C a ha) (hright C _ hbelow)) (hoperation C _ hbelow)
    split
    · rename_i hprecision
      exact .bind (floatBinary_gives _ (floating_operator hop hprecision)).delivers
        fun operation m hoperation => .pure (hall hoperation)
    · exact .lift (sizeOf_of_known hkl) (.lift (sizeOf_of_known hkr)
        (.bind (integerBinary_gives _ _ _ _ _).delivers fun operation m hoperation =>
          .pure (hall hoperation)))
  | .conversion node inner target, t, h, s => by
    cases h with | conversion h hconv _
    have hk := hE.known (h.known hE.sound)
    rw [exprCode]
    refine .lift rfl (.bind (exprCode_delivers hE inner h s) fun value s' hvalue =>
      .lift (by rw [h.ty_eq]; rfl) (.lift (sizeOf_of_known hk) (.pure fun C a ha => ?_)))
    rw [slot_conversion hE.initial hk hconv]
    exact .append (hvalue C a ha) (.plain (conversionCode_plain _ _ _))
  | .construct node record arguments, t, h, s => by
    cases h with | @construct _ _ _ l hl hinit
    have hlayout : env.layoutOf (.base record.value) = .ok l := by
      simp [Env.layoutOf, Registry.layoutOf, hE.layouts, hl]
    have hsize : sizeIn env.layouts (.base record.value) = l.size := by
      simp [sizeIn, Registry.sizeOf?, Registry.layoutOf, hE.layouts, hl]
    have hmembers : ∀ m ∈ l.members, m.ty.Known env.layouts := fun m hm =>
      hE.known (hE.sound.members hl m hm)
    rw [exprCode]
    refine .lift rfl (.lift hlayout (.bind (membersCode_delivers hE arguments hinit hmembers s)
      fun stores s' hstores => .pure fun C a ha => ?_))
    rw [hsize]
    exact .append (.append (.lower _ _) (.plain (zero_plain _ _)))
      (hstores C _ (ha.lower (dvd_slot _)))

theorem accessorsCode_delivers (hE : env.Fits D) : ∀ (accessors : List Accessor) {base t : Ty},
    Leads D base accessors t → base.Known env.layouts → ∀ (name : String) (s : Supply),
    Delivers (accessorsCode env name base accessors) s fun code s' => Keeps s.labels s'.labels code
  | [], base, t, h, hbase, name, s => by
    rw [accessorsCode]
    exact .pure fun C a _ => .nil
  | .index node position :: rest, base, t, h, hbase, name, s => by
    cases h with | @index element _ _ _ _ _ hp h
    have hk : element.Known env.layouts := hbase
    rw [accessorsCode]
    refine .lift (sizeOf_of_known hk) (.bind (exprCode_delivers hE position hp s)
      fun index s' hindex => .lift rfl (.bind (accessorsCode_delivers hE rest h hk name s')
      fun steps s'' hsteps => .pure fun C a ha => ?_))
    rw [slot_int hE.initial] at hindex
    exact .append (.append (hindex C a ha) (indexCode_piece _ a)) (hsteps C a ha)
  | .dereference node :: rest, base, t, h, hbase, name, s => by
    cases h with | @dereference target _ _ _ h
    have hk : target.Known env.layouts := hbase
    rw [accessorsCode]
    exact .lift rfl (.bind (accessorsCode_delivers hE rest h hk name s) fun steps s' hsteps =>
      .pure fun C a ha => .append (.plain dereferenceCode_plain) (hsteps C a ha))
  | .member node member :: rest, base, t, h, hbase, name, s => by
    cases h with | @member record l m _ _ _ _ hl hm h
    have hlayout : env.layoutOf (.base record) = .ok l := by
      simp [Env.layoutOf, Registry.layoutOf, hE.layouts, hl]
    have hmember := hE.known (hE.sound.members hl m (List.mem_of_find?_eq_some hm))
    rw [accessorsCode]
    refine .lift hlayout ?_
    simp only [hm]
    exact .lift rfl (.bind (accessorsCode_delivers hE rest h hmember name s) fun steps s' hsteps =>
      .pure fun C a ha => .append (.plain (memberCode_plain _)) (hsteps C a ha))
  | .call node arguments :: rest, base, t, h, hbase, name, s => by cases h

theorem argumentsCode_delivers (hE : env.Fits D) : ∀ (arguments : List Expr) {parameters : List Ty}
    {variadic : Bool}, Takes D parameters variadic arguments → variadic = false →
    ∀ {vs : List StackVariable},
    List.Forall₂ (fun v t => v.ty = t ∧ ∃ offset, placedAt v = .ok offset) vs parameters →
    ∀ s : Supply,
    Delivers (argumentsCode env vs arguments) s fun code s' => Keeps s.labels s'.labels code
  | [], parameters, variadic, h, hv, vs, hvs, s => by
    rw [argumentsCode]
    exact .pure fun C a _ => .nil
  | argument :: rest, parameters, variadic, h, hv, vs, hvs, s => by
    cases h with
    | more _ _ => cases hv
    | cons h hagrees hrest =>
      cases hvs with | @cons v _ vs _ hfirst hvs
      obtain ⟨rfl, offset, hoffset⟩ := hfirst
      have hk := hE.known (h.known hE.sound)
      rw [argumentsCode]
      exact .lift (sizeOf_of_agrees hagrees hk) (.bind (exprCode_delivers hE argument h s)
        fun value s' hvalue => .lift hoffset (.bind (argumentsCode_delivers hE rest hrest hv hvs s')
        fun stores s'' hstores => .pure (keeps_store hvalue hstores)))

theorem foreignArgumentsCode_delivers (hE : env.Fits D) : ∀ (arguments : List Expr)
    {parameters : List Ty} {variadic : Bool}, Takes D parameters variadic arguments →
    ∀ (fixed : Nat) (s : Supply),
    Delivers (foreignArgumentsCode env fixed arguments) s fun r s' =>
      16 ∣ slotsSize r.2 ∧ Pushes s.labels s'.labels r.1 (slotsSize r.2)
  | [], parameters, variadic, h, fixed, s => by
    rw [foreignArgumentsCode]
    refine .pure ⟨Nat.dvd_zero 16, fun C a _ => ?_⟩
    rw [slotsSize, Spot.lower_zero]
    exact .nil
  | argument :: rest, parameters, variadic, h, fixed, s => by
    obtain ⟨t, parameters', h, hrest⟩ := h.uncons
    rw [foreignArgumentsCode]
    obtain ⟨l, hl, -, hsize⟩ := layoutOf_of_known (hE.known (h.known hE.sound))
    refine .lift (by rw [h.ty_eq]; rfl) (.bind (exprCode_delivers hE argument h s)
      fun value s' hvalue => .lift hl (.bind
      (foreignArgumentsCode_delivers hE rest hrest (fixed - 1) s') fun r s'' hr => ?_))
    rw [← hsize] at hvalue
    exact .pure (pushes_passed hvalue hr)

theorem elementsCode_delivers (hE : env.Fits D) : ∀ (elements : List Expr) {t : Ty},
    t.Known env.layouts → Elements D t elements → ∀ (index : Nat) (s : Supply),
    Delivers (elementsCode env (sizeIn env.layouts t) index elements) s fun code s' =>
      Keeps s.labels s'.labels code
  | [], t, hk, h, index, s => by
    rw [elementsCode]
    exact .pure fun C a _ => .nil
  | element :: rest, t, hk, h, index, s => by
    cases h with | cons h hagrees hrest
    rw [elementsCode]
    refine .bind (exprCode_delivers hE element h s) fun value s' hvalue =>
      .bind (elementsCode_delivers hE rest hk hrest (index + 1) s')
        fun stores s'' hstores => .pure ?_
    rw [← sizeIn_of_agrees hagrees (hE.known (h.known hE.sound))] at hvalue
    exact keeps_element hvalue hstores

theorem membersCode_delivers (hE : env.Fits D) : ∀ (arguments : List Argument)
    {members : List LayoutMember}, Initializes D members arguments →
    (∀ m ∈ members, m.ty.Known env.layouts) → ∀ s : Supply,
    Delivers (membersCode env members arguments) s fun code s' => Keeps s.labels s'.labels code
  | [], members, h, hk, s => by
    rw [membersCode]
    exact .pure fun C a _ => .nil
  | .mk name value :: rest, members, h, hk, s => by
    cases h with | cons h hagrees hrest
    rw [membersCode]
    refine .lift (sizeOf_of_known (hk _ (by simp))) (.bind (exprCode_delivers hE value h s)
      fun value s' hvalue => .bind
      (membersCode_delivers hE rest hrest (fun m hm => hk m (by simp [hm])) s')
      fun stores s'' hstores => .pure ?_)
    rw [← sizeIn_of_agrees hagrees (hE.known (h.known hE.sound))] at hvalue
    exact keeps_store hvalue hstores
end

theorem placeTy_refers {head : Head} {accessors : List Accessor} {t : Ty}
    (h : Refers D head accessors t) : placeTy head accessors = .ok t := by
  cases h with
  | value _ _ hleads => exact placeTy_leads hleads _ _
  | call _ _ hleads => exact placeTy_called hleads _ _ _

theorem placeCode_delivers (hE : env.Fits D) {p : Place} {t : Ty}
    (h : Refers D p.head p.accessors t)
    (s : Supply) :
    Delivers (placeCode env p) s fun r s' =>
      16 ∣ r.2 ∧ Pushes s.labels s'.labels r.1 (16 + r.2) := by
  obtain ⟨head, accessors⟩ := p
  dsimp only at h
  unfold placeCode
  cases h with
  | value hdecl hf hleads =>
    refine (placeWith_value hE hdecl hf (accessorsCode_delivers hE accessors hleads
      (hE.known (hE.sound.value hdecl hf)) _ s)).mono ?_
    rintro ⟨place, kept⟩ s' ⟨rfl, hplace⟩
    exact ⟨Nat.dvd_zero 16, hplace⟩
  | @call _ result _ _ _ _ _ arguments rest _ hdecl htakes hleads =>
    have hk := hE.known (hE.sound.result hdecl)
    rw [placeWith_called hE hdecl]
    refine calledCode_delivers hk (callWith_delivers hE hdecl ?_ fun fixed => ?_)
      fun s' => accessorsCode_delivers hE rest hleads hk _ s'
    · intro vs hvariadic hvs
      exact argumentsCode_delivers hE arguments htakes hvariadic hvs s
    · exact foreignArgumentsCode_delivers hE arguments htakes fixed s

end Expressions

end RegionCompiler.Codegen
