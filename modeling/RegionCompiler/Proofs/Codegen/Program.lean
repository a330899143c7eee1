import RegionCompiler.Codegen
import RegionCompiler.Proofs.Codegen.Stmt
import RegionCompiler.Proofs.Frame
import RegionCompiler.Proofs.Typing.Analysis

/-! Code generation succeeds on every checked program whose sizes can be counted. -/
namespace RegionCompiler.Codegen

open Machine Machine.Instr Typing

theorem exists_routines {layouts : Registry} {fs : List Function}
    (h : ∀ f ∈ fs, (∀ v ∈ f.stack.parameters ++ f.stack.locals, v.ty.Known layouts) ∧
      f.result.value.Known layouts) :
    ∃ routines, List.Forall₂ (Routine.Frames layouts) fs routines := by
  induction fs with
  | nil => exact ⟨[], .nil⟩
  | cons f rest ih =>
    obtain ⟨hstack, hresult⟩ := h f List.mem_cons_self
    obtain ⟨r, hr⟩ := Routine.exists_frames hstack hresult
    obtain ⟨routines, hall⟩ := ih fun g hg => h g (List.mem_cons_of_mem _ hg)
    exact ⟨r :: routines, .cons hr hall⟩

/-- Functions are laid out unless one of their frames is more than can be counted. -/
theorem layOutFrames_frames {layouts : Registry} {fs : List Function} {routines : List Routine}
    (h : List.Forall₂ (Routine.Frames layouts) fs routines) : layOutFrames layouts fs =
      if ∀ r ∈ routines, r.IsFramed then .ok routines else .error (.frame .overflow) := by
  induction h with
  | nil => rfl
  | @cons f r rest routines hframes _ ih =>
    simp only [layOutFrames, hframes.ofFunction, ih, List.forall_mem_cons, bind, Except.bind]
    by_cases hfirst : r.IsFramed <;> by_cases hrest : ∀ r ∈ routines, r.IsFramed
    · simp only [if_pos hfirst, if_pos hrest, if_pos (And.intro hfirst hrest)]
      rfl
    · simp only [if_pos hfirst, if_neg hrest, if_neg fun h : _ ∧ _ => hrest h.2]
    all_goals simp only [if_neg hfirst, if_neg fun h : _ ∧ _ => hfirst h.1]

theorem embedsData_isOk {embeds : List Embed} (h : ∀ e ∈ embeds, e.resolved.isSome) :
    ∃ data, embedsData embeds = .ok data := by
  induction embeds with
  | nil => exact ⟨_, rfl⟩
  | cons e rest ih =>
    obtain ⟨path, hpath⟩ := Option.isSome_iff_exists.1 (h e (by simp))
    obtain ⟨⟨files, arrays⟩, hrest⟩ := ih fun x hx => h x (by simp [hx])
    simp [embedsData, embedData, hpath, hrest, bind, Except.bind, pure, Except.pure]

theorem find?_eq_of_nodup {α : Type} {key : α → String} {xs : List α} (hxs : (xs.map key).Nodup)
    {x : α} (hx : x ∈ xs) : xs.find? (key · == key x) = some x := by
  induction xs with
  | nil => cases hx
  | cons y ys ih =>
    rw [List.map_cons, List.nodup_cons] at hxs
    rcases List.mem_cons.1 hx with rfl | hx
    · simp
    · have hne : key y ≠ key x := fun heq => hxs.1 (heq ▸ List.mem_map_of_mem hx)
      rw [List.find?_cons_of_neg (by simpa using hne)]
      exact ih hxs.2 hx

section Environment

variable {layouts : Registry} {p : Program} {routines : List Routine}

theorem map_name_of_frames {fs : List Function}
    (h : List.Forall₂ (Routine.Frames layouts) fs routines) :
    routines.map Routine.name = fs.map (·.name.value) := by
  induction h with
  | nil => rfl
  | cons hfirst _ ih => rw [List.map_cons, List.map_cons, hfirst.name, ih]

theorem result_of_frames {f : Function} {r : Routine} (h : Routine.Frames layouts f r) :
    r.frame.result = sizeIn layouts f.result.value := by
  rw [sizeIn, h.result, Option.getD_some]

theorem routineFits_of_frames {f : Function} {r : Routine} (h : Routine.Frames layouts f r)
    (hf : FunctionOk layouts p f) :
    RoutineFits layouts r f.result.value (f.parameters.map (·.ty.value)) := by
  obtain ⟨stop, hplaced, harguments⟩ := h.parameters
  refine ⟨result_of_frames h, ?_, ?_⟩
  · rw [harguments]
    exact dvd_alignUp (by omega)
  · rw [← hf.parameters, ← hplaced.map_ty, List.forall₂_map_right_iff, List.forall₂_same]
    intro v hv
    obtain ⟨here, hhere⟩ := hplaced.offset_isSome v hv
    exact ⟨rfl, here, by simp [placedAt, hhere]⟩

theorem variableAddress_of_mem {f : Function} {env : Env}
    (h : Routine.Frames layouts f env.current) {v : StackVariable}
    (hv : v ∈ f.stack.parameters ++ f.stack.locals) :
    ∃ address, env.variableAddress v.mangled = .ok address := by
  obtain ⟨_, hparameters, -⟩ := h.parameters
  obtain ⟨_, hlocals, -⟩ := h.locals
  have hplaced : ∀ {w : StackVariable}, (∃ here, w.offset = some here) →
      ∃ offset, placedAt w = .ok offset := by
    rintro w ⟨here, hhere⟩
    exact ⟨here, by simp [placedAt, hhere]⟩
  unfold Env.variableAddress
  dsimp only
  split
  · rename_i w hw
    obtain ⟨offset, hoffset⟩ := hplaced (hparameters.offset_isSome w (List.mem_of_find?_eq_some hw))
    exact ⟨_, by rw [hoffset]; rfl⟩
  · rename_i hnone
    split
    · rename_i w hw
      obtain ⟨offset, hoffset⟩ := hplaced (hlocals.offset_isSome w (List.mem_of_find?_eq_some hw))
      exact ⟨_, by rw [hoffset]; rfl⟩
    · rename_i hnone'
      -- The placed variables have the names that were declared.
      have hmem : v.mangled ∈ env.current.function.stack.parameters.map (·.mangled) ++
          env.current.function.stack.locals.map (·.mangled) := by
        rw [hparameters.map_mangled, hlocals.map_mangled, ← List.map_append]
        exact List.mem_map_of_mem hv
      rcases List.mem_append.1 hmem with hmem | hmem
      · obtain ⟨w, hw, hname⟩ := List.mem_map.1 hmem
        exact absurd hname (by simpa using List.find?_eq_none.1 hnone w hw)
      · obtain ⟨w, hw, hname⟩ := List.mem_map.1 hmem
        exact absurd hname (by simpa using List.find?_eq_none.1 hnone' w hw)

theorem env_fits (hp : ProgramOk layouts p)
    (hroutines : List.Forall₂ (Routine.Frames layouts) p.functions routines) {f : Function}
    (hf : f ∈ p.functions) {r : Routine} (hr : Routine.Frames layouts f r) (platform : Platform) :
    Env.Fits ⟨platform, layouts, routines, p.foreign, r⟩ (declsOf layouts p f.stack) := by
  have hfunction := hp.functions f hf
  refine ⟨rfl, declsOf_sound hp.globals hfunction.known, hp.classes, ?_, ?_, ?_, ?_⟩
  · intro mangled kind t hkind hdecl
    obtain ⟨v, hv, rfl, rfl⟩ : ∃ v ∈ f.stack.parameters ++ f.stack.locals,
        v.mangled = mangled ∧ v.ty = t := by
      cases kind <;> first | exact hdecl | cases hkind
    exact ⟨(hfunction.known v hv).not_isFunction, variableAddress_of_mem hr hv⟩
  · intro mangled t hdecl
    rw [hdecl.2]
    rfl
  · rintro mangled t ⟨g, hg, rfl, rfl⟩
    have hgok := hp.functions g hg
    obtain ⟨r', hr', hframes⟩ := exists_of_forall₂ hroutines hg
    refine ⟨r', _, _, ?_, withModifier_function hgok.result _ _ _,
      routineFits_of_frames hframes hgok⟩
    have hnames : (routines.map Routine.name).Nodup := by
      rw [map_name_of_frames hroutines]
      exact hp.distinct
    have hfind := find?_eq_of_nodup hnames hr'
    rw [hframes.name] at hfind
    simp [Env.routine, hfind]
  · rintro mangled t ⟨g, hg, rfl, rfl⟩
    have hgok := hp.foreign g hg
    refine ⟨g, _, _, _, ?_, withModifier_function hgok.result _ _ _, hgok.link⟩
    simp [Env.foreignFunction, find?_eq_of_nodup hp.distinctForeign hg]

end Environment

/-- The code of functions, one behind the other, is one piece: between functions nothing is on the
stack. -/
theorem routinesCode_delivers {env : Routine → Env} {rs : List Routine}
    (h : ∀ r ∈ rs, ∀ s, Delivers (functionCode (env r)) s fun code s' =>
      .symbol (functionSymbol r.name) ∈ code ∧
      Piece (fun _ => True) s.labels s'.labels .entry code .entry) (s : Supply) :
    Delivers (routinesCode env rs) s fun code s' =>
      (∀ r ∈ rs, .symbol (functionSymbol r.name) ∈ code) ∧
      Piece (fun _ => True) s.labels s'.labels .entry code .entry := by
  induction rs generalizing s with
  | nil => exact .pure ⟨by simp, .nil⟩
  | cons r rest ih =>
    refine .bind (h r (by simp) s) fun first s₁ hfirst =>
      .bind (ih (fun r' hr' => h r' (by simp [hr'])) s₁) fun others s₂ hothers =>
      .pure ⟨fun r' hr' => ?_, .append hfirst.2 hothers.2⟩
    rcases List.mem_cons.1 hr' with rfl | hr'
    · exact List.mem_append_left _ hfirst.1
    · exact List.mem_append_right _ (hothers.1 r' hr')

/-- What the code of a function of a program refers to. -/
def envOf (platform : Platform) (layouts : Registry) (p : Program) (routines : List Routine)
    (r : Routine) : Env :=
  ⟨platform, layouts, routines, p.foreign, r⟩

/-- A generated program. -/
structure Generated (platform : Platform) (layouts : Registry) (p : Program) (out : Output) :
    Prop where
  frames : List.Forall₂ (Routine.Frames layouts) p.functions out.routines
  code : ∃ code n,
    out.assembly.code = Collector.code platform (mainResultSize out.routines) ++ code ∧
    (∀ r ∈ out.routines, .symbol (functionSymbol r.name) ∈ code) ∧
    Piece (fun _ => True) Collector.labelCount n .entry code .entry

section Generation

variable {platform : Platform} {layouts : Registry} {p : Program} {routines : List Routine}
  {out : Output}

/-- The code of the functions of a checked program is made, unless a call overflows. -/
theorem routinesCode_ok (platform : Platform) (hp : ProgramOk layouts p)
    (hframes : List.Forall₂ (Routine.Frames layouts) p.functions routines) :
    Delivers (routinesCode (envOf platform layouts p routines) routines) ⟨Collector.labelCount, []⟩
      fun code s' => (∀ r ∈ routines, .symbol (functionSymbol r.name) ∈ code) ∧
        Piece (fun _ => True) Collector.labelCount s'.labels .entry code .entry := by
  refine routinesCode_delivers (fun r hr s => ?_) _
  obtain ⟨f, hf, hfr⟩ := exists_of_forall₂ hframes.flip hr
  have hbody : BlockOk (declsOf layouts p f.stack) f.result.value false r.function.body := by
    rw [hfr.function]
    exact (hp.functions f hf).body
  obtain ⟨stop, -, hlocals⟩ := hfr.locals
  refine functionCode_delivers (env_fits hp hframes hf hfr platform) hbody ?_ s
  dsimp only
  rw [hlocals]
  exact dvd_alignUp (by omega)

theorem assemble_ok {data : List DataItem × List DataItem} {made : Code × Supply}
    (hrun : layOutFrames layouts p.functions = .ok routines)
    (hdata : embedsData p.embeds = .ok data)
    (hmade : routinesCode (envOf platform layouts p routines) routines
      ⟨Collector.labelCount, []⟩ = .ok made) :
    assemble platform layouts p = .ok (join platform p routines data made) := by
  have hcode : (routinesCode (fun r => ⟨platform, layouts, routines, p.foreign, r⟩) routines).run
      ⟨Collector.labelCount, []⟩ = .ok made := hmade
  simp only [assemble, hrun, hdata, hcode, bind, Except.bind]
  rfl

/-- Generation succeeds on checked programs, or else a sum of sizes cannot be counted. -/
theorem generate_gives (hp : ProgramOk layouts p) (platform : Platform) :
    (∃ out, generate platform layouts p = .ok out ∧ Generated platform layouts p out) ∨
      ∃ e, e.isOverflow ∧ generate platform layouts p = .error e := by
  obtain ⟨routines, hframes⟩ := exists_routines fun f hf =>
    ⟨(hp.functions f hf).known, (hp.functions f hf).result⟩
  have hrun := layOutFrames_frames hframes
  obtain ⟨data, hdata⟩ := embedsData_isOk hp.embeds
  split at hrun
  case isFalse =>
    refine .inr ⟨.frame .overflow, rfl, ?_⟩
    simp only [generate, assemble, hrun, bind, Except.bind]
  case isTrue =>
    rcases routinesCode_ok platform hp hframes with
      ⟨code, supply, hcode, hsymbols, hpiece⟩ | hover
    · have hmade := assemble_ok hrun hdata hcode
      by_cases hcounted : (join platform p routines data (code, supply)).assembly.code.all
          Instr.isCounted
      · refine .inl ⟨join platform p routines data (code, supply), ?_, hframes, code,
          supply.labels, rfl, hsymbols, hpiece⟩
        simp only [generate, hmade, bind, Except.bind, hcounted, if_true, pure, Except.pure]
      · refine .inr ⟨.overflow, rfl, ?_⟩
        simp only [generate, hmade, bind, Except.bind, hcounted]
        rfl
    · refine .inr ⟨.overflow, rfl, ?_⟩
      have hcode : (routinesCode (fun r => ⟨platform, layouts, routines, p.foreign, r⟩)
          routines).run ⟨Collector.labelCount, []⟩ = .error .overflow := hover
      simp only [generate, assemble, hrun, hdata, hcode, bind, Except.bind]

theorem generate_assemble (h : generate platform layouts p = .ok out) :
    assemble platform layouts p = .ok out ∧ out.assembly.code.all Instr.isCounted := by
  unfold generate at h
  cases hout : assemble platform layouts p with
  | error e =>
    rw [hout] at h
    cases h
  | ok made =>
    rw [hout] at h
    simp only [bind, Except.bind] at h
    split at h
    · cases h
      exact ⟨rfl, ‹_›⟩
    · cases h

theorem generate_eq (h : generate platform layouts p = .ok out) : ∃ files arrays code supply,
    layOutFrames layouts p.functions = .ok out.routines ∧
    embedsData p.embeds = .ok (files, arrays) ∧
    routinesCode (envOf platform layouts p out.routines) out.routines
      ⟨Collector.labelCount, []⟩ = .ok (code, supply) ∧
    out.assembly =
      { (p.foreign.map (·.linkName) ++ Collector.cFunctions).foldl Assembly.addExtern
          (.empty platform) with
        code := Collector.code platform (mainResultSize out.routines) ++ code
        readOnly := files ++ stringsData 0 supply.strings
        data := arrays
        zeroed := Collector.state } := by
  replace h := (generate_assemble h).1
  unfold assemble at h
  cases hframes : layOutFrames layouts p.functions with
  | error e =>
    rw [hframes] at h
    cases h
  | ok routines =>
    cases hembeds : embedsData p.embeds with
    | error e =>
      rw [hframes, hembeds] at h
      cases h
    | ok data =>
      cases hcode : routinesCode (envOf platform layouts p routines) routines
          ⟨Collector.labelCount, []⟩ with
      | error e =>
        have hrun : (routinesCode (fun r => ⟨platform, layouts, routines, p.foreign, r⟩)
            routines).run ⟨Collector.labelCount, []⟩ = .error e := hcode
        rw [hframes, hembeds] at h
        simp only [hrun, bind, Except.bind] at h
        cases h
      | ok made =>
        have hout := assemble_ok hframes hembeds hcode
        simp only [assemble] at hout
        rw [hout] at h
        cases h
        exact ⟨data.1, data.2, made.1, made.2, rfl, rfl, hcode, rfl⟩

end Generation

end RegionCompiler.Codegen
