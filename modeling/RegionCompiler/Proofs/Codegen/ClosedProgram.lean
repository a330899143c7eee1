import RegionCompiler.Proofs.Codegen.Names

/-! A whole unit: the names that it defines, one by one, and that it has no loose ends. -/
namespace RegionCompiler.Codegen

open Machine Machine.Instr Typing

section Definitions

theorem defines_perm (code : Code) : (code.filterMap defines?).Perm
    ((labelsIn code).map Label.text ++ code.filterMap symbol?) := by
  induction code with
  | nil => exact .refl _
  | cons i rest ih =>
    cases i with
    | label l => exact ih.cons l.text
    | symbol name => exact (ih.cons name).trans List.perm_middle.symm
    | _ => exact ih

theorem labels_count (n : Nat) (l : Label) :
    ((List.range n).map fun k => (⟨k + 1⟩ : Label)).count l =
      if 0 < l.number ∧ l.number ≤ n then 1 else 0 := by
  have hnodup : ((List.range n).map fun k => (⟨k + 1⟩ : Label)).Nodup :=
    List.nodup_range.map fun a b hab => Nat.succ.inj (congrArg Label.number hab)
  rw [hnodup.count]
  refine if_congr ?_ rfl rfl
  simp only [List.mem_map, List.mem_range]
  constructor
  · rintro ⟨k, hk, rfl⟩
    exact ⟨Nat.succ_pos k, hk⟩
  · rintro ⟨hpos, hle⟩
    exact ⟨l.number - 1, by omega, congrArg Label.mk (Nat.sub_add_cancel hpos)⟩

theorem stringsData_labels (index : Nat) (literals : List String) :
    (stringsData index literals).flatMap DataItem.labels =
      (List.range literals.length).map fun k => stringSymbol (index + k) := by
  induction literals generalizing index with
  | nil => rfl
  | cons s rest ih =>
    rw [stringsData, List.flatMap_cons, ih, List.length_cons, List.range_succ_eq_map]
    simp [DataItem.labels, Function.comp_def, Nat.add_assoc, Nat.add_comm 1]

theorem mem_stringsData {index : Nat} {literals : List String} {item : DataItem} :
    item ∈ stringsData index literals ↔ ∃ k, ∃ h : k < literals.length,
      item = .bytes (stringSymbol (index + k)) (utf8Bytes literals[k]) := by
  induction literals generalizing index with
  | nil => simp [stringsData]
  | cons s rest ih =>
    rw [stringsData, List.mem_cons, ih]
    constructor
    · rintro (rfl | ⟨k, hk, rfl⟩)
      · exact ⟨0, by simp, rfl⟩
      · exact ⟨k + 1, by simpa using hk, by simp [Nat.add_assoc, Nat.add_comm 1]⟩
    · rintro ⟨k, hk, rfl⟩
      cases k with
      | zero => exact .inl rfl
      | succ k => exact .inr ⟨k, by simpa using hk, by simp [Nat.add_assoc, Nat.add_comm 1]⟩

variable {embeds : List Embed} {files arrays : List DataItem}

theorem embedsData_cons {e : Embed} (h : embedsData (e :: embeds) = .ok (files, arrays)) :
    ∃ path files' arrays', embedsData embeds = .ok (files', arrays') ∧
      files = .file (embedSymbol e.name.value ++ "$bytes") path
        (embedSymbol e.name.value ++ "$end") :: files' ∧
      arrays = .quads (embedSymbol e.name.value) [embedSymbol e.name.value ++ "$bytes",
        (embedSymbol e.name.value ++ "$end") ++ " - " ++ (embedSymbol e.name.value ++ "$bytes")]
        :: arrays' := by
  rw [embedsData, embedData] at h
  cases hpath : e.resolved with
  | none =>
    rw [hpath] at h
    cases h
  | some path =>
    cases hrest : embedsData embeds with
    | error fault =>
      rw [hpath, hrest] at h
      cases h
    | ok data =>
      rw [hpath, hrest] at h
      cases h
      exact ⟨path, data.1, data.2, rfl, rfl, rfl⟩

theorem embedsData_labels (h : embedsData embeds = .ok (files, arrays)) :
    (files.flatMap DataItem.labels ++ arrays.flatMap DataItem.labels).Perm
      (embeds.flatMap fun e => embedLabels e.name.value) := by
  induction embeds generalizing files arrays with
  | nil =>
    cases h
    exact .refl _
  | cons e rest ih =>
    obtain ⟨path, files', arrays', hrest, rfl, rfl⟩ := embedsData_cons h
    have hembed : embedLabels e.name.value = [embedSymbol e.name.value] ++
        [embedSymbol e.name.value ++ "$bytes", embedSymbol e.name.value ++ "$end"] := by
      simp [embedLabels]
    have hmiddle : (files'.flatMap DataItem.labels ++
        embedSymbol e.name.value :: arrays'.flatMap DataItem.labels).Perm
        (embedSymbol e.name.value :: rest.flatMap fun e => embedLabels e.name.value) :=
      List.perm_middle.trans ((ih hrest).cons _)
    simp only [List.flatMap_cons, DataItem.labels, hembed, List.cons_append, List.nil_append]
    exact ((hmiddle.cons _).cons _).trans (List.perm_append_comm_assoc [_, _] [_] _)

theorem embedsData_arrays (h : embedsData embeds = .ok (files, arrays)) {item : DataItem}
    (hitem : item ∈ arrays) : ∃ e ∈ embeds, item = .quads (embedSymbol e.name.value)
      [embedSymbol e.name.value ++ "$bytes",
        (embedSymbol e.name.value ++ "$end") ++ " - " ++
          (embedSymbol e.name.value ++ "$bytes")] := by
  induction embeds generalizing files arrays with
  | nil =>
    cases h
    cases hitem
  | cons e rest ih =>
    obtain ⟨path, files', arrays', hrest, rfl, rfl⟩ := embedsData_cons h
    rcases List.mem_cons.1 hitem with rfl | hitem
    · exact ⟨e, by simp, rfl⟩
    · obtain ⟨e', he', hitem⟩ := ih hrest hitem
      exact ⟨e', by simp [he'], hitem⟩

theorem embedsData_files (h : embedsData embeds = .ok (files, arrays)) {item : DataItem}
    (hitem : item ∈ files) : ∃ label path stop, item = .file label path stop := by
  induction embeds generalizing files arrays with
  | nil =>
    cases h
    cases hitem
  | cons e rest ih =>
    obtain ⟨path, files', arrays', hrest, rfl, rfl⟩ := embedsData_cons h
    rcases List.mem_cons.1 hitem with rfl | hitem
    · exact ⟨_, _, _, rfl⟩
    · exact ih hrest hitem

theorem mem_externs {names : List String} {a : Assembly} {name : String} :
    name ∈ (names.foldl Assembly.addExtern a).externs ↔ name ∈ a.externs ∨ name ∈ names := by
  induction names generalizing a with
  | nil => simp
  | cons first rest ih =>
    rw [List.foldl_cons, ih, Assembly.mem_externs_addExtern, List.mem_cons, or_assoc]

theorem foldl_addExtern_platform (names : List String) (a : Assembly) :
    (names.foldl Assembly.addExtern a).platform = a.platform := by
  induction names generalizing a with
  | nil => rfl
  | cons first rest ih =>
    rw [List.foldl_cons, ih, Assembly.addExtern]
    split <;> rfl

theorem foreignFunction_mem {env : Env} {mangled : String} {f : ForeignFunction}
    (h : env.foreignFunction mangled = .ok f) : f ∈ env.foreign := by
  unfold Env.foreignFunction at h
  split at h
  case h_1 g hfind =>
    cases h
    exact List.mem_of_find?_eq_some hfind
  case h_2 => cases h

end Definitions

section Bytes

theorem byteArray_loop (bytes : ByteArray) (i : Nat) (front : List UInt8) :
    ByteArray.toList.loop bytes i front = front.reverse ++ bytes.data.toList.drop i := by
  induction i, front using ByteArray.toList.loop.induct bytes with
  | case1 i front hlt ih =>
    have hlength : i < bytes.data.toList.length := by simpa using hlt
    have hget : bytes.get! i = bytes.data.toList.get ⟨i, hlength⟩ := by
      cases bytes
      exact getElem!_pos _ i hlt
    rw [ByteArray.toList.loop, if_pos hlt, ih, hget, List.drop_eq_getElem_cons hlength]
    simp
  | case2 i front hle =>
    rw [ByteArray.toList.loop, if_neg hle, List.drop_of_length_le (by simpa using hle),
      List.append_nil]

theorem utf8Bytes_length (s : String) : (utf8Bytes s).length = s.utf8ByteSize := by
  rw [utf8Bytes, List.length_map, ByteArray.toList, byteArray_loop]
  simp

end Bytes

section Program

/-- The code of functions one behind the other, whose names are all accounted for. -/
structure ClosedProgram (platform : Platform) (layouts : Registry) (p : Program)
    (routines rs : List Routine) (s : Supply) (code : Code) (s' : Supply) : Prop where
  labels : s.labels ≤ s'.labels
  strings : s.strings <+: s'.strings
  placed : ∀ l, (labelsIn code).count l =
    if s.labels < l.number ∧ l.number ≤ s'.labels then 1 else 0
  enclosed : Enclosed code
  symbols : code.filterMap symbol? = rs.map fun r => functionSymbol r.name
  names : ∀ i ∈ code, ∀ name ∈ i.symbols, ∃ (f : Function) (r : Routine),
    (envOf platform layouts p routines r).Mentions (declsOf layouts p f.stack) s.strings.length
      s'.strings.length name
  literals : ∀ k (h : k < s'.strings.length), s.strings.length ≤ k →
    stringCode platform (stringSymbol k) s'.strings[k].utf8ByteSize <:+: code

variable {platform : Platform} {layouts : Registry} {p : Program} {routines rs : List Routine}
  {Q : Expr → Prop} {s s' : Supply} {code : Code}

theorem closed_of_listed (h : Listed (p.Makes platform layouts routines Q) rs s code s') :
    ClosedProgram platform layouts p routines rs s code s' := by
  induction h with
  | nil =>
    exact {
      labels := Nat.le_refl _
      strings := List.prefix_refl _
      placed := fun l => by rw [if_neg (by omega)]; rfl
      enclosed := .nil
      symbols := rfl
      names := by simp
      literals := fun k h h' => absurd h (by omega) }
  | @cons r rs s s₁ s₂ code others comment hcode _ ih =>
    obtain ⟨f, -, -, hmakes⟩ := hcode
    have hclosed := hmakes.assembled.closed
    have hle := hclosed.labels
    have hle' := ih.labels
    have hlength := hclosed.strings.length_le
    have hlength' := ih.strings.length_le
    have hbare : code.filterMap symbol? = [] := List.filterMap_eq_nil_iff.2 hclosed.bare
    refine ⟨by omega, hclosed.strings.trans ih.strings, fun l => ?_, ?_, ?_, ?_, ?_⟩
    · have hcount := hclosed.placed l
      have hcount' := ih.placed l
      have hsplit : labelsIn (.comment comment :: .symbol (functionSymbol r.name) ::
          (code ++ others)) = labelsIn code ++ labelsIn others := List.filterMap_append
      rw [hsplit, List.count_append, hcount, hcount', List.count_nil]
      split_ifs <;> omega
    · have hone : ∀ i ∈ [Instr.comment comment], ∃ text, i = .comment text := by simp
      refine Enclosed.cons hone hclosed.bare (fun i hi l hl => ?_) ih.enclosed
      have hown := (hclosed.jumps i hi l hl).resolve_left id
      have hcount := hclosed.placed l
      rw [if_pos hown, List.count_nil] at hcount
      have hmem : l ∈ labelsIn code := List.one_le_count_iff.1 (by omega)
      obtain ⟨instr, hinstr, hlabel⟩ := List.mem_filterMap.1 hmem
      cases instr <;> cases hlabel
      exact hinstr
    · have hsplit : (Instr.comment comment :: .symbol (functionSymbol r.name) ::
          (code ++ others)).filterMap symbol? =
          functionSymbol r.name :: (code ++ others).filterMap symbol? := rfl
      rw [hsplit, List.filterMap_append, hbare, ih.symbols]
      rfl
    · intro i hi name hname
      simp only [List.mem_cons, List.mem_append] at hi
      rcases hi with rfl | rfl | hi | hi
      · cases hname
      · cases hname
      · exact ⟨f, r, (hclosed.names i hi name hname).mono (Nat.le_refl _) hlength'⟩
      · obtain ⟨f', r', hmentions⟩ := ih.names i hi name hname
        exact ⟨f', r', hmentions.mono hlength (Nat.le_refl _)⟩
    · intro k hk hfirst
      have hbehind : ∀ {part : Code}, part <:+: code ++ others →
          part <:+: .comment comment :: .symbol (functionSymbol r.name) :: (code ++ others) :=
        fun h => h.trans (List.suffix_append [_, _] _).isInfix
      by_cases hmid : k < s₁.strings.length
      · have hsame : s₂.strings[k] = s₁.strings[k] := (ih.strings.getElem hmid).symm
        rw [hsame]
        exact hbehind ((hclosed.literals k hmid hfirst).trans (List.prefix_append _ _).isInfix)
      · exact hbehind ((ih.literals k hk (by omega)).trans (List.suffix_append _ _).isInfix)

end Program

end RegionCompiler.Codegen

namespace RegionCompiler

open Machine Codegen Typing

section Unit

variable {isFile : String → Bool} {platform : Platform} {path text : String} {layouts : Registry}
  {p : Program} {out : Codegen.Output}

/-- The names of the collector: its routines, the entry point and its state. -/
def fixedNames : List String := routineSymbols ++ Collector.state.flatMap DataItem.labels

/-- The names that a unit with so many labels defines for a program. -/
def Program.definitions (p : Program) (labels : Nat) : List String :=
  [(List.range labels).map fun k => Label.text ⟨k + 1⟩,
    p.functions.map fun f => functionSymbol f.name.value,
    p.embeds.flatMap fun e => embedLabels e.name.value,
    (List.range p.literals.length).map stringSymbol, fixedNames].flatten

theorem Program.definitions_nodup {labels : Nat}
    (hfunctions : (p.functions.map (·.name.value)).Nodup)
    (hembeds : (p.embeds.map (·.name.value)).Nodup) (hnames : ∀ e ∈ p.embeds, IsName e.name.value) :
    (p.definitions labels).Nodup := by
  have hlabels : ((List.range labels).map fun k => Label.text ⟨k + 1⟩).Nodup :=
    List.nodup_range.map fun a b h => Nat.succ.inj (congrArg Label.number (label_text_inj h))
  have hfns : (p.functions.map fun f => functionSymbol f.name.value).Nodup := by
    have hmap := hfunctions.map fun _ _ h => functionSymbol_inj h
    rwa [List.map_map] at hmap
  have hfiles : (p.embeds.flatMap fun e => embedLabels e.name.value).Nodup := by
    refine List.nodup_flatMap.2 ⟨fun e _ => embedLabels_nodup _, ?_⟩
    refine (List.pairwise_map.1 hembeds).imp_of_mem fun {a b} ha hb hne x hx hx' => ?_
    exact hne (embedLabels_disjoint (hnames a ha) (hnames b hb) hx hx')
  have hstrings : ((List.range p.literals.length).map stringSymbol).Nodup :=
    List.nodup_range.map fun a b h => number_inj h
  have hkinds : [['_', 'L'], ['f', 'n'], ['e', 'm'], ['s', 't'], []].Nodup := by decide
  refine nodup_flatten_of_kind hkinds (.cons ⟨hlabels, ?_⟩ (.cons ⟨hfns, ?_⟩ (.cons ⟨hfiles, ?_⟩
    (.cons ⟨hstrings, ?_⟩ (.cons ⟨by decide, by decide⟩ .nil)))))
  · simp [kind_label]
  · simp [kind_function]
  · intro name h
    obtain ⟨e, -, he⟩ := List.mem_flatMap.1 h
    exact kind_embedLabels he
  · simp [kind_string]

/-- Literals lie in a unit as read-only bytes, each under a symbol of its own, and are copied from
there in full. No bytes at all would be written as a zero. -/
structure Keeps (a : Assembly) (literals : List String) : Prop where
  items : ∀ k (h : k < literals.length),
    .bytes (stringSymbol k) (utf8Bytes literals[k]) ∈ a.readOnly
  lines : ∀ k (h : k < literals.length), literals[k] ≠ "" →
    (DataItem.bytes (stringSymbol k) (utf8Bytes literals[k])).lines =
      [stringSymbol k ++ ": db " ++ ", ".intercalate ((utf8Bytes literals[k]).map toString)]
  copied : ∀ k (h : k < literals.length),
    stringCode a.platform (stringSymbol k) (utf8Bytes literals[k]).length <:+: a.code

theorem Accepted.definitions (h : Accepted isFile platform path text layouts p out) :
    ∃ n, Collector.labelCount ≤ n ∧
      (labelsIn out.assembly.code).Perm ((List.range n).map fun k => ⟨k + 1⟩) ∧
      out.assembly.definitions.Perm (p.definitions n) ∧
      ∀ name, name ∈ out.assembly.externs ↔
        name ∈ p.foreign.map (·.linkName) ∨ name ∈ Collector.cFunctions := by
  obtain ⟨files, arrays, code, supply, hdata, hlisted, hstrings, hout⟩ :=
    h.assembled (Q := fun _ => True) fun f _ _ _ _ _ _ _ _ _ => trivial
  have hclosed := closed_of_listed hlisted
  have hle : Collector.labelCount ≤ supply.labels := hclosed.labels
  have hlabels : (labelsIn (Collector.code platform (mainResultSize out.routines) ++ code)).Perm
      ((List.range supply.labels).map fun k => ⟨k + 1⟩) := by
    refine List.perm_iff_count.2 fun l => ?_
    have hcollector : (labelsIn (Collector.code platform (mainResultSize out.routines))).count l =
        if 0 < l.number ∧ l.number ≤ Collector.labelCount then 1 else 0 := by
      rw [collector_labels, labels_count]
    have hcode := hclosed.placed l
    rw [labels_count, labelsIn, List.filterMap_append, List.count_append, ← labelsIn, ← labelsIn,
      hcollector, hcode]
    dsimp only
    split_ifs <;> omega
  have hsymbols : (Collector.code platform (mainResultSize out.routines) ++ code).filterMap
      Instr.symbol? = routineSymbols ++ p.functions.map fun f => functionSymbol f.name.value := by
    have hnames := congrArg (List.map functionSymbol) (map_name_of_frames h.generates.frames)
    rw [List.map_map, List.map_map] at hnames
    rw [List.filterMap_append, collector_symbols, hclosed.symbols]
    exact congrArg _ hnames
  refine ⟨supply.labels, hle, by rw [hout]; exact hlabels, ?_, fun name => ?_⟩
  · have hitems := embedsData_labels hdata
    have hliterals : (stringsData 0 p.literals).flatMap DataItem.labels =
        (List.range p.literals.length).map stringSymbol := by simp [stringsData_labels]
    rw [hout, Assembly.definitions, Assembly.items]
    refine ((defines_perm _).append_right _).trans (List.perm_iff_count.2 fun name => ?_)
    have hcount := (hlabels.map Label.text).count_eq name
    have hcount' := hitems.count_eq name
    have hmap : ((List.range supply.labels).map fun k => (⟨k + 1⟩ : Label)).map Label.text =
        (List.range supply.labels).map fun k => Label.text ⟨k + 1⟩ := List.map_map
    rw [hmap] at hcount
    rw [List.count_append] at hcount'
    simp only [hsymbols, hliterals, Program.definitions, fixedNames, List.flatMap_append,
      List.flatten_cons, List.flatten_nil, List.count_append, List.count_nil, ← hcount, ← hcount']
    omega
  · rw [hout]
    simp [mem_externs, Assembly.empty]

theorem Accepted.distinct (h : Accepted isFile platform path text layouts p out) :
    (p.functions.map (·.name.value)).Nodup ∧ (p.embeds.map (·.name.value)).Nodup ∧
      ∀ e ∈ p.embeds, IsName e.name.value := by
  obtain ⟨hglobals, hnames⟩ := analyze_distinct (Parse.source_program_tidy path text) h.clean
  have hprogram : (analyze isFile (Compilation.baseDirectory path) .initial
      (Parse.source path text).program).1 = p := h.program
  rw [hprogram] at hglobals hnames
  refine ⟨h.programOk.distinct, ?_, hnames⟩
  rw [globals, List.map_append, List.map_map] at hglobals
  exact (List.nodup_append.1 hglobals).2.1

theorem Accepted.mention_known (h : Accepted isFile platform path text layouts p out) {n : Nat}
    {name : String} (hname : name ∈ Collector.names ∨ name = "fn_main" ∨
      ∃ (f : Function) (r : Routine), (envOf platform layouts p out.routines r).Mentions
        (declsOf layouts p f.stack) 0 p.literals.length name) :
    name ∈ p.definitions n ∨ name ∈ p.foreign.map (·.linkName) ∨ name ∈ Collector.cFunctions := by
  have hcollector : ∀ name ∈ Collector.names, name ∈ p.definitions n ∨
      name ∈ p.foreign.map (·.linkName) ∨ name ∈ Collector.cFunctions := by
    intro name hname
    have hall : ∀ name ∈ Collector.names, name ∈ fixedNames ∨ name ∈ Collector.cFunctions := by
      decide
    exact (hall name hname).imp (fun hfixed => by simp [Program.definitions, hfixed]) .inr
  rcases hname with hname | rfl | ⟨f, r, hname⟩
  · exact hcollector name hname
  · left
    obtain ⟨f, hf, hmain, -⟩ := h.programOk.main
    have hsymbol : functionSymbol f.name.value = "fn_main" := by rw [hmain]; rfl
    simp only [Program.definitions, List.mem_flatten, List.mem_cons]
    exact ⟨_, .inr (.inl rfl), List.mem_map.2 ⟨f, hf, hsymbol⟩⟩
  · cases hname with
    | collector hname => exact hcollector name hname
    | @function r hr =>
      left
      have hmem : r.name ∈ p.functions.map (·.name.value) := by
        rw [← map_name_of_frames h.generates.frames]
        exact List.mem_map_of_mem hr
      obtain ⟨f, hf, hfname⟩ := List.mem_map.1 hmem
      simp only [Program.definitions, List.mem_flatten, List.mem_cons]
      exact ⟨_, .inr (.inl rfl), List.mem_map.2 ⟨f, hf, congrArg functionSymbol hfname⟩⟩
    | foreign hforeign => exact .inr (.inl (List.mem_map_of_mem (foreignFunction_mem hforeign)))
    | embed hdeclared =>
      left
      obtain ⟨⟨e, he, rfl⟩, -⟩ := hdeclared
      simp only [Program.definitions, List.mem_flatten, List.mem_cons]
      exact ⟨_, .inr (.inr (.inl rfl)), List.mem_flatMap.2 ⟨e, he, by simp [embedLabels]⟩⟩
    | @literal k _ hk =>
      left
      simp only [Program.definitions, List.mem_flatten, List.mem_cons]
      exact ⟨_, .inr (.inr (.inr (.inl rfl))), List.mem_map.2 ⟨k, List.mem_range.2 hk, rfl⟩⟩

/-- The arrays of embedded files are the only data that refers to other data. -/
theorem embedsData_quads {files arrays : List DataItem}
    (h : embedsData p.embeds = .ok (files, arrays))
    {label : String} {values : List String} (hitem : .quads label values ∈
      files ++ stringsData 0 p.literals ++ arrays ++ Collector.state) :
    ∃ e ∈ p.embeds, values = [embedSymbol e.name.value ++ "$bytes",
      (embedSymbol e.name.value ++ "$end") ++ " - " ++ (embedSymbol e.name.value ++ "$bytes")] := by
  simp only [List.mem_append] at hitem
  rcases hitem with ((hitem | hitem) | hitem) | hitem
  · obtain ⟨_, _, _, hfile⟩ := embedsData_files h hitem
    cases hfile
  · obtain ⟨_, _, hbytes⟩ := mem_stringsData.1 hitem
    cases hbytes
  · obtain ⟨e, he, hquads⟩ := embedsData_arrays h hitem
    cases hquads
    exact ⟨e, he, rfl⟩
  · simp [Collector.state] at hitem

theorem lines_bytes {label : String} {values : List Nat} (h : values ≠ []) :
    (DataItem.bytes label values).lines =
      [label ++ ": db " ++ ", ".intercalate (values.map toString)] := by
  cases values with
  | nil => exact absurd rfl h
  | cons value rest => rfl

/-- The unit of an accepted program has no loose ends, and keeps the literals of the program. -/
theorem Accepted.unit_closed (h : Accepted isFile platform path text layouts p out) :
    out.assembly.IsClosed ∧ Keeps out.assembly p.literals := by
  obtain ⟨files, arrays, code, supply, hdata, hlisted, hstrings, hout⟩ :=
    h.assembled (Q := fun _ => True) fun f _ _ _ _ _ _ _ _ _ => trivial
  obtain ⟨n, -, hlabels, hdefinitions, hexterns⟩ := h.definitions
  obtain ⟨hfunctions, hembeds, hnames⟩ := h.distinct
  have hclosed := closed_of_listed hlisted
  have hcode : out.assembly.code =
      Collector.code platform (mainResultSize out.routines) ++ code := by rw [hout]
  have henclosed : Enclosed out.assembly.code := by
    rw [hcode]
    exact (collector_enclosed _ _).append hclosed.enclosed
  have hdistinct := hdefinitions.nodup_iff.2 (Program.definitions_nodup hfunctions hembeds hnames)
  refine ⟨⟨hdistinct, fun i instr l hi hl => ?_, fun i hi name hname => ?_,
    fun label values hitem => ?_⟩, fun k hk => ?_, fun k hk hne => lines_bytes ?_, fun k hk => ?_⟩
  · obtain ⟨j, name, hj, howner, howner'⟩ := henclosed.jump hi hl
    refine ⟨j, name, hj, fun k hk => label_place_unique ?_ hk hj, howner, howner'⟩
    rw [hlabels.count_eq, labels_count]
    split_ifs <;> omega
  · rw [hdefinitions.mem_iff, hexterns]
    refine h.mention_known ?_
    rw [hcode] at hi
    rcases List.mem_append.1 hi with hi | hi
    · exact (collector_mentions hi hname).imp_right .inl
    · obtain ⟨f, r, hmentions⟩ := hclosed.names i hi name hname
      rw [hstrings] at hmentions
      exact .inr (.inr ⟨f, r, hmentions⟩)
  · rw [hout] at hitem
    obtain ⟨e, he, rfl⟩ := embedsData_quads hdata hitem
    have hlabel : ∀ s ∈ ["$bytes", "$end"],
        embedSymbol e.name.value ++ s ∈ out.assembly.definitions := by
      intro s hs
      rw [hdefinitions.mem_iff]
      simp only [Program.definitions, List.mem_flatten, List.mem_cons]
      exact ⟨_, .inr (.inr (.inl rfl)), List.mem_flatMap.2 ⟨e, he,
        List.mem_map.2 ⟨s, List.mem_cons_of_mem _ hs, rfl⟩⟩⟩
    exact ⟨_, hlabel "$bytes" (by simp), _, hlabel "$end" (by simp), rfl⟩
  · rw [hout]
    exact List.mem_append_right _ (mem_stringsData.2 ⟨k, hk, by simp⟩)
  · intro hnil
    have hlength := utf8Bytes_length p.literals[k]
    rw [hnil] at hlength
    exact hne (String.utf8ByteSize_eq_zero_iff.1 hlength.symm)
  · have hplatform : out.assembly.platform = platform := by
      rw [hout]
      exact foldl_addExtern_platform _ _
    have hliteral := hclosed.literals k (by rw [hstrings]; exact hk) (Nat.zero_le _)
    rw [hplatform, hcode, utf8Bytes_length]
    simp only [hstrings] at hliteral
    exact hliteral.trans (List.suffix_append _ _).isInfix

def greeting : String := "fn main() \x7b let byte[] s = \"hi\" \x7d"

theorem greeting_passes :
    passes (fun _ => false) (Compilation.baseDirectory "main.bz") "main.bz"
      greeting (fun p _ => p.literals == ["hi"]) = true := by
  have htext : greeting.toList = _ := String.toList_ofList
  rw [passes, Parse.source, Token.lex, htext]
  decide +kernel

theorem unit_closed_greeting : ∃ layouts p out,
    Accepted (fun _ => false) .linux "main.bz" greeting layouts p out ∧ p.literals = ["hi"] ∧
      out.assembly.IsClosed ∧ Keeps out.assembly p.literals := by
  obtain ⟨layouts, p, out, hout, hliterals⟩ := accepted_of_passes greeting_passes (.inl rfl)
  exact ⟨layouts, p, out, hout, by simpa using hliterals, Accepted.unit_closed hout⟩

theorem isName_kind {name : String} (h : IsName name) {n : Nat} (hdef : name ∈ p.definitions n) :
    (∃ k < n, name = Label.text ⟨k + 1⟩) ∨ (∃ f ∈ p.functions, name = functionSymbol f.name.value) ∨
      name = "main" := by
  simp only [Program.definitions, List.mem_flatten, List.mem_cons, List.not_mem_nil, or_false]
    at hdef
  obtain ⟨group, rfl | rfl | rfl | rfl | rfl, hname⟩ := hdef
  · obtain ⟨k, hk, rfl⟩ := List.mem_map.1 hname
    exact .inl ⟨k, List.mem_range.1 hk, rfl⟩
  · obtain ⟨f, hf, rfl⟩ := List.mem_map.1 hname
    exact .inr (.inl ⟨f, hf, rfl⟩)
  · obtain ⟨e, -, he⟩ := List.mem_flatMap.1 hname
    obtain ⟨s, -, rfl⟩ := List.mem_map.1 he
    exact absurd (by simp [embedSymbol]) h
  · obtain ⟨k, -, rfl⟩ := List.mem_map.1 hname
    exact absurd (by simp [stringSymbol]) h
  · have hall : ∀ name ∈ fixedNames, '$' ∈ name.toList ∨ name = "main" := by decide
    exact .inr (.inr ((hall name hname).resolve_left h))

/-- The functions of C that every unit uses have names that no unit defines. -/
theorem cFunction_not_defined {name : String} (h : name ∈ Collector.cFunctions) {n : Nat} :
    name ∉ p.definitions n := by
  have hall : ∀ name ∈ Collector.cFunctions,
      '$' ∉ name.toList ∧ name ≠ "main" ∧ kind name = [] := by
    decide
  obtain ⟨hname, hmain, hkind⟩ := hall name h
  intro hdef
  rcases isName_kind hname hdef with ⟨k, -, rfl⟩ | ⟨f, -, rfl⟩ | rfl
  · rw [kind_label] at hkind
    cases hkind
  · rw [kind_function] at hkind
    cases hkind
  · exact hmain rfl

/-- A name is external and defined as well exactly if the program gives it to a foreign function and
it is that of the entry point, of a function or of a numbered label. -/
theorem Accepted.clash_iff (h : Accepted isFile platform path text layouts p out) (name : String) :
    name ∈ out.assembly.externs ∧ name ∈ out.assembly.definitions ↔
      (∃ f ∈ p.foreign, f.linkName = name) ∧ (name = "main" ∨
        (∃ f ∈ p.functions, name = functionSymbol f.name.value) ∨
        ∃ l, Instr.label l ∈ out.assembly.code ∧ name = l.text) := by
  obtain ⟨n, -, hlabels, hdefinitions, hexterns⟩ := h.definitions
  have hplaced : ∀ l, l ∈ (List.range n).map (fun k => (⟨k + 1⟩ : Label)) ↔
      Instr.label l ∈ out.assembly.code := by
    intro l
    rw [← hlabels.mem_iff, labelsIn, List.mem_filterMap]
    constructor
    · rintro ⟨i, hi, hl⟩
      cases i <;> cases hl
      exact hi
    · exact fun hl => ⟨_, hl, rfl⟩
  rw [hexterns, hdefinitions.mem_iff]
  constructor
  · rintro ⟨hexternal, hdef⟩
    have hforeign := hexternal.resolve_right fun hc => cFunction_not_defined hc hdef
    obtain ⟨f, hf, rfl⟩ := List.mem_map.1 hforeign
    refine ⟨⟨f, hf, rfl⟩, ?_⟩
    rcases isName_kind (h.programOk.foreign f hf).link hdef with ⟨k, hk, hname⟩ | hfunction | hmain
    · refine .inr (.inr ⟨_, (hplaced _).1 ?_, hname⟩)
      exact List.mem_map.2 ⟨k, List.mem_range.2 hk, rfl⟩
    · exact .inr (.inl hfunction)
    · exact .inl hmain
  · rintro ⟨⟨f, hf, rfl⟩, hdef⟩
    refine ⟨.inl (List.mem_map_of_mem hf), ?_⟩
    simp only [Program.definitions, List.mem_flatten, List.mem_cons]
    rcases hdef with hmain | ⟨g, hg, hname⟩ | ⟨l, hl, hname⟩
    · rw [hmain]
      exact ⟨fixedNames, by simp, by decide⟩
    · exact ⟨_, .inr (.inl rfl), List.mem_map.2 ⟨g, hg, hname.symm⟩⟩
    · obtain ⟨k, hk, rfl⟩ := List.mem_map.1 ((hplaced l).2 hl)
      exact ⟨_, .inl rfl, List.mem_map.2 ⟨k, hk, hname.symm⟩⟩

/-- A program that calls a function of C which is named like its entry point. -/
def foreignMain : String := "cfn f from main() fn main() { call f() }"

theorem foreignMain_passes :
    passes (fun _ => false) (Compilation.baseDirectory "main.bz") "main.bz"
      foreignMain (fun p _ => p.foreign.map (·.linkName) == ["main"]) = true := by
  have htext : foreignMain.toList = _ := String.toList_ofList
  rw [passes, Parse.source, Token.lex, htext]
  decide +kernel

theorem clash_iff_foreignMain : ∃ layouts p out,
    Accepted (fun _ => false) .linux "main.bz" foreignMain layouts p out ∧
      "main" ∈ out.assembly.externs ∧ "main" ∈ out.assembly.definitions := by
  obtain ⟨layouts, p, out, hout, hforeign⟩ := accepted_of_passes foreignMain_passes (.inl rfl)
  have hmem : "main" ∈ p.foreign.map (·.linkName) := by
    rw [eq_of_beq hforeign]
    exact List.mem_singleton_self _
  obtain ⟨f, hf, hname⟩ := List.mem_map.1 hmem
  exact ⟨layouts, p, out, hout, (Accepted.clash_iff hout "main").2 ⟨⟨f, hf, hname⟩, .inl rfl⟩⟩

/-- A program that calls a function of C which is named like a label of the collector. -/
def foreignLabel : String := "cfn f from _L1() fn main() { call f() }"

theorem foreignLabel_passes :
    passes (fun _ => false) (Compilation.baseDirectory "main.bz") "main.bz"
      foreignLabel (fun p _ => p.foreign.map (·.linkName) == ["_L1"]) = true := by
  have htext : foreignLabel.toList = _ := String.toList_ofList
  rw [passes, Parse.source, Token.lex, htext]
  decide +kernel

theorem foreignLabel_clashes : ∃ layouts p out,
    Accepted (fun _ => false) .linux "main.bz" foreignLabel layouts p out ∧
      "_L1" ∈ out.assembly.externs ∧ "_L1" ∈ out.assembly.definitions := by
  obtain ⟨layouts, p, out, hout, hforeign⟩ := accepted_of_passes foreignLabel_passes (.inl rfl)
  obtain ⟨n, hle, -, hdefinitions, hexterns⟩ := hout.definitions
  refine ⟨layouts, p, out, hout, ?_, ?_⟩
  · rw [hexterns, eq_of_beq hforeign]
    exact .inl (List.mem_singleton_self _)
  · rw [hdefinitions.mem_iff]
    simp only [Program.definitions, List.mem_flatten, List.mem_cons]
    exact ⟨_, .inl rfl, List.mem_map.2 ⟨0, List.mem_range.2 (Nat.lt_of_lt_of_le (by decide) hle),
      rfl⟩⟩

end Unit

end RegionCompiler
