import RegionCompiler.Build
import RegionCompiler.Proofs.Compilation

/-! What a build leaves of the files. Paths lead to names, and neither writing nor removing a file
changes where a path leads. So all that matters is which of the paths of a build lead to the same
file. -/
namespace RegionCompiler

/-- The file that is there or would be made. -/
def PathTarget.name? : PathTarget → Option (List String)
  | file name _ | absent name => some name
  | directory _ | misnamed _ | fault _ => none

namespace FileSystem

variable {fs fs' : FileSystem} {name : List String} {path : String} {f : File}

/-- The file that a path leads to, whether it exists or not. -/
def name? (fs : FileSystem) (path : String) : Option (List String) := (fs.find path).name?

theorem name?_blocked (rest : List String) (error : FileError) :
    (blocked rest error).name? = none := by
  unfold blocked
  split <;> rfl

theorem name?_entry (fs : FileSystem) (name : List String) (part : String) (rest : List String) :
    (fs.entry name part rest).name? =
      if maxComponentSize < part.utf8ByteSize ∨ rest ≠ [] then none else some name := by
  unfold entry
  split
  case isTrue hlong => simp [name?_blocked, hlong]
  case isFalse hlong =>
    cases rest with
    | nil => cases fs.get? name <;> simp [hlong, PathTarget.name?]
    | cons next others => cases fs.get? name <;> simp [name?_blocked]

theorem name?_walk_congr (h : fs.directories = fs'.directories) (here parts : List String) :
    (fs.walk here parts).name? = (fs'.walk here parts).name? := by
  induction parts generalizing here with
  | nil => rfl
  | cons part rest ih =>
    unfold walk
    rw [h]
    split
    · exact ih here
    · split
      · exact ih (above here)
      · split
        · exact ih (here ++ [part])
        · rw [name?_entry, name?_entry]

theorem name?_congr (h : fs.directories = fs'.directories) (path : String) :
    fs.name? path = fs'.name? path := by
  unfold name? find
  split
  · rfl
  · split
    · rfl
    · split
      · rfl
      · exact name?_walk_congr h _ _

/-- What is found at a path is the file of its name. -/
def Shows (fs : FileSystem) : PathTarget → Prop
  | .file name f => fs.get? name = some f
  | .absent name => fs.get? name = none
  | .directory _ | .misnamed _ | .fault _ => True

theorem shows_entry (fs : FileSystem) (name : List String) (part : String) (rest : List String) :
    fs.Shows (fs.entry name part rest) := by
  have hblocked (error : FileError) : fs.Shows (blocked rest error) := by
    unfold blocked
    split <;> trivial
  unfold entry
  split
  · exact hblocked _
  · split
    case h_1 f hf =>
      split
      · exact hf
      · exact hblocked _
    case h_2 hnone =>
      split
      · exact hnone
      · exact hblocked _

theorem shows_walk (fs : FileSystem) (here parts : List String) :
    fs.Shows (fs.walk here parts) := by
  induction parts generalizing here with
  | nil => trivial
  | cons part rest ih =>
    unfold walk
    split
    · exact ih here
    · split
      · exact ih (above here)
      · split
        · exact ih (here ++ [part])
        · exact shows_entry fs _ part rest

theorem shows_find (fs : FileSystem) (path : String) : fs.Shows (fs.find path) := by
  unfold find
  split
  · trivial
  · split
    · trivial
    · split
      · trivial
      · exact shows_walk fs _ _

theorem find_eq_of_name (h : fs.name? path = some name) :
    fs.find path = match fs.get? name with
      | some f => .file name f
      | none => .absent name := by
  have hshows := shows_find fs path
  unfold name? at h
  cases hfind : fs.find path with
  | file _ f =>
    rw [hfind] at h hshows
    cases h
    rw [show fs.get? name = some f from hshows]
  | absent _ =>
    rw [hfind] at h hshows
    cases h
    rw [show fs.get? name = none from hshows]
  | directory _ | misnamed _ | fault _ =>
    rw [hfind] at h
    cases h

theorem read_eq_of_name (h : fs.name? path = some name) :
    fs.read path = match fs.get? name with
      | some f => .ok f.contents
      | none => .error .notFound := by
  rw [read, find_eq_of_name h]
  cases fs.get? name <;> rfl

theorem name_of_read {text : String} (h : fs.read path = .ok text) :
    ∃ name, fs.name? path = some name := by
  unfold read at h
  unfold name?
  split at h
  case h_1 name f hfind => exact ⟨name, by rw [hfind]; rfl⟩
  all_goals cases h

theorem write_eq_of_name (h : fs.name? path = some name) :
    fs.write path f = .ok (fs.put name f) := by
  rw [write, find_eq_of_name h]
  cases fs.get? name <;> rfl

theorem name_of_write (h : fs.write path f = .ok fs') : ∃ name, fs.name? path = some name := by
  unfold write at h
  unfold name?
  split at h
  case h_1 name _ hfind => exact ⟨name, by rw [hfind]; rfl⟩
  case h_2 name hfind => exact ⟨name, by rw [hfind]; rfl⟩
  all_goals cases h

theorem lookup_filter (files : List (List String × File)) (name other : List String) :
    (files.filter (·.1 ≠ name)).lookup other =
      if other = name then none else files.lookup other := by
  induction files with
  | nil => simp
  | cons first rest ih =>
    obtain ⟨here, f⟩ := first
    by_cases hhere : here = name
    · rw [List.filter_cons_of_neg (by simpa using hhere), ih]
      split
      case isTrue => rfl
      case isFalse hother =>
        rw [List.lookup_cons, beq_false_of_ne (hhere ▸ hother)]
    · rw [List.filter_cons_of_pos (by simpa using hhere), List.lookup_cons, List.lookup_cons, ih]
      cases hother : other == here with
      | true => exact (if_neg fun heq => hhere ((eq_of_beq hother).symm.trans heq)).symm
      | false => rfl

theorem get?_put (fs : FileSystem) (name : List String) (f : File) (other : List String) :
    (fs.put name f).get? other = if other = name then some f else fs.get? other := by
  unfold put get?
  rw [List.lookup_cons, lookup_filter]
  by_cases h : other = name
  · rw [h, beq_self_eq_true]
    exact (if_pos rfl).symm
  · rw [beq_false_of_ne h, if_neg h, if_neg h]

theorem get?_remove (h : fs.name? path = some name) (other : List String) :
    (fs.remove path).get? other = if other = name then none else fs.get? other := by
  rw [remove, find_eq_of_name h]
  cases hname : fs.get? name with
  | some f => exact lookup_filter fs.files name other
  | none =>
    dsimp only
    split
    case isTrue heq => rw [heq, hname]
    case isFalse => rfl

@[simp] theorem directories_put (fs : FileSystem) (name : List String) (f : File) :
    (fs.put name f).directories = fs.directories := rfl

@[simp] theorem directories_remove (fs : FileSystem) (path : String) :
    (fs.remove path).directories = fs.directories := by
  unfold remove
  split <;> rfl

@[simp] theorem name?_put (fs : FileSystem) (name : List String) (f : File) (path : String) :
    (fs.put name f).name? path = fs.name? path := name?_congr (directories_put fs name f) path

@[simp] theorem name?_remove (fs : FileSystem) (removed path : String) :
    (fs.remove removed).name? path = fs.name? path :=
  name?_congr (directories_remove fs removed) path

end FileSystem

namespace Workspace

/-- Tools that succeed and write the file behind `-o`. They never write any other. -/
def IsEquipped (w : Workspace) : Prop :=
  ∀ tool, ∃ t, w.installed tool = some t ∧ t.exitCode % 256 = 0 ∧ t.silent = false

theorem runTool_files {w w' : Workspace} {tool : ToolName} {arguments : List String}
    {output : String} {name : List String} (he : w.IsEquipped)
    (hname : w.files.name? output = some name)
    (h : w.runTool tool arguments output = (.ok (), w')) :
    w'.files = w.files.put name (product tool) ∧ w'.installed = w.installed := by
  obtain ⟨t, ht, hexit, hsilent⟩ := he tool
  unfold runTool at h
  dsimp only at h
  split at h
  · cases h
  · rw [ht] at h
    obtain ⟨-, rfl⟩ := Prod.mk.inj h
    refine ⟨?_, rfl⟩
    simp only [afterTool, hexit, hsilent, FileSystem.write_eq_of_name hname]
    rfl

end Workspace

namespace Build

variable {α β : Type} {m : Build α} {f : α → Build β} {a : α} {b : β} {w w' : Workspace}

/-- Whether steps succeed. -/
def Ends (m : Build α) (w : Workspace) (a : α) (w' : Workspace) : Prop :=
  (ExceptT.run m).run w = (.ok a, w')

theorem ends_bind : Ends (m >>= f) w b w' ↔ ∃ a v, Ends m w a v ∧ Ends (f a) v b w' := by
  unfold Ends
  rw [ExceptT.run_bind, StateT.run_bind]
  rcases hm : (ExceptT.run m).run w with ⟨_ | a, v⟩
  · constructor
    · rintro ⟨⟩
    · rintro ⟨_, _, ⟨⟩, -⟩
  · constructor
    · exact fun h => ⟨a, v, rfl, h⟩
    · rintro ⟨_, _, ⟨⟩, h⟩
      exact h

theorem ends_pure {c : α} : Ends (pure c) w a w' ↔ c = a ∧ w = w' := by
  constructor
  · rintro ⟨⟩
    exact ⟨rfl, rfl⟩
  · rintro ⟨rfl, rfl⟩
    rfl

theorem not_ends_fail {e : BuildError} : ¬ Ends (fail e : Build α) w a w' := by
  rintro ⟨⟩

theorem ends_get {g : Workspace → Build β} : Ends (get >>= g) w b w' ↔ Ends (g w) w b w' := by
  rw [ends_bind]
  constructor
  · rintro ⟨_, _, ⟨⟩, h⟩
    exact h
  · exact fun h => ⟨w, w, rfl, h⟩

theorem ends_set {v : Workspace} {u : Unit} : Ends (set v : Build Unit) w u w' ↔ v = w' := by
  constructor
  · rintro ⟨⟩
    rfl
  · rintro rfl
    rfl

theorem ends_readSource {path text : String} :
    Ends (readSource path) w text w' ↔ w.files.read path = .ok text ∧ w = w' := by
  rw [readSource, ends_get]
  cases w.files.read path with
  | ok read => simp [ends_pure]
  | error e => simp [not_ends_fail]

theorem ends_compile {platform : Platform} {path text : String} {c : Compilation} :
    Ends (compile platform path text) w c w' ↔
      Compilation.run w.files.isFile platform path text = .ok c ∧ w = w' := by
  rw [compile, ends_get]
  cases Compilation.run w.files.isFile platform path text with
  | ok compiled => simp [ends_pure]
  | error e => simp [not_ends_fail]

theorem ends_writeFile {path text : String} {u : Unit} : Ends (writeFile path text) w u w' ↔
    ∃ files, w.files.write path ⟨text, false⟩ = .ok files ∧ { w with files } = w' := by
  rw [writeFile, ends_get]
  cases w.files.write path ⟨text, false⟩ with
  | ok files => simp [ends_set]
  | error e => simp [not_ends_fail]

theorem ends_removeFile {path : String} {u : Unit} : Ends (removeFile path) w u w' ↔
    { w with files := w.files.remove path } = w' := by
  constructor
  · rintro ⟨⟩
    rfl
  · rintro rfl
    rfl

theorem ends_runTool {tool : ToolName} {arguments : List String} {output : String} {u : Unit} :
    Ends (runTool tool arguments output) w u w' ↔
      w.runTool tool arguments output = (.ok (), w') := by
  rw [runTool, ends_get]
  rcases w.runTool tool arguments output with ⟨outcome | ⟨⟩, v⟩
  · rw [ends_bind]
    simp [not_ends_fail]
  · simp [ends_set]

theorem ends_executable {path : String} {o : BuildOptions} {c : Compilation}
    (h : Ends (executable path o) w c w') : ∃ text compiled assembly,
      w.files.read path = .ok text ∧
      Compilation.run w.files.isFile o.platform path text = .ok compiled ∧
      compiled.assembly = some assembly ∧
      Ends (link o assembly (compiled.program.links.map (·.value))) w () w' := by
  obtain ⟨text, _, htext, h⟩ := ends_bind.1 h
  obtain ⟨hread, rfl⟩ := ends_readSource.1 htext
  obtain ⟨compiled, _, hcompiled, h⟩ := ends_bind.1 h
  obtain ⟨hrun, rfl⟩ := ends_compile.1 hcompiled
  unfold finish at h
  cases hassembly : compiled.assembly with
  | none =>
    rw [hassembly] at h
    exact absurd h not_ends_fail
  | some assembly =>
    rw [hassembly] at h
    obtain ⟨_, v, hlink, hpure⟩ := ends_bind.1 h
    obtain ⟨-, rfl⟩ := ends_pure.1 hpure
    exact ⟨text, compiled, assembly, hread, hrun, hassembly, hlink⟩

/-- The files that the tools made, without those that were not asked for. -/
theorem link_get? {o : BuildOptions} (hkeep : o.keepFiles = false) (hassembly : o.assembly = none)
    (hobject : o.object = none) (he : w.IsEquipped) {object output : List String}
    (hobjectName : w.files.name? o.objectPath = some object)
    (houtputName : w.files.name? o.output = some output)
    {assembly : Machine.Assembly} {links : List String} (h : Ends (link o assembly links) w () w') :
    (∀ path, w'.files.name? path = w.files.name? path) ∧
    ∃ text, w.files.name? o.assemblyPath = some text ∧
      ∀ name, w'.files.get? name =
        if name = text ∨ name = object then none
        else if name = output then some (Workspace.product .linker)
        else w.files.get? name := by
  unfold link at h
  obtain ⟨_, w1, hwritten, h⟩ := ends_bind.1 h
  obtain ⟨_, w2, hassembled, h⟩ := ends_bind.1 h
  obtain ⟨_, w3, hlinked, h⟩ := ends_bind.1 h
  simp only [hkeep, hassembly, hobject, Bool.not_false, Option.isNone_none, if_true] at h
  obtain ⟨_, w4, hremoved, h⟩ := ends_bind.1 h
  obtain rfl := ends_removeFile.1 hremoved
  obtain rfl := ends_removeFile.1 h
  obtain ⟨files, hfiles, hw1⟩ := ends_writeFile.1 hwritten
  obtain ⟨text, htext⟩ := FileSystem.name_of_write hfiles
  rw [FileSystem.write_eq_of_name htext] at hfiles
  have hfiles1 : w1.files = w.files.put text ⟨assembly.text, false⟩ := by
    rw [← hw1, ← Except.ok.inj hfiles]
  have he1 : w1.IsEquipped := hw1 ▸ he
  obtain ⟨hfiles2, hinstalled⟩ := Workspace.runTool_files he1
    (by rw [hfiles1, FileSystem.name?_put, hobjectName]) (ends_runTool.1 hassembled)
  have he2 : w2.IsEquipped := fun tool => hinstalled ▸ he1 tool
  obtain ⟨hfiles3, -⟩ := Workspace.runTool_files he2
    (by rw [hfiles2, hfiles1, FileSystem.name?_put, FileSystem.name?_put, houtputName])
    (ends_runTool.1 hlinked)
  have hname (path : String) : w3.files.name? path = w.files.name? path := by
    rw [hfiles3, hfiles2, hfiles1]
    simp
  have hremovedText := FileSystem.get?_remove ((hname _).trans htext)
  have hremovedObject := FileSystem.get?_remove
    (((w3.files).name?_remove o.assemblyPath _).trans ((hname _).trans hobjectName))
  refine ⟨fun path => by simpa using hname path, text, htext, fun name => ?_⟩
  dsimp only
  rw [hremovedObject, hremovedText, hfiles3, hfiles2, hfiles1, FileSystem.get?_put,
    FileSystem.get?_put, FileSystem.get?_put]
  split_ifs <;> simp_all

theorem executable_get? {path output : String} {platform : Platform} {c : Compilation}
    (he : w.IsEquipped) {object executable : List String}
    (hobject : w.files.name? (BuildOptions.objectPath
      { BuildOptions.ofSource path platform with output }) = some object)
    (hexecutable : w.files.name? output = some executable)
    (h : Ends (Build.executable path { BuildOptions.ofSource path platform with output }) w c w') :
    (∀ path, w'.files.name? path = w.files.name? path) ∧
    ∃ text, w.files.name? (BuildOptions.assemblyPath
        { BuildOptions.ofSource path platform with output }) = some text ∧
      ∀ name, w'.files.get? name =
        if name = text ∨ name = object then none
        else if name = executable then some (Workspace.product .linker)
        else w.files.get? name := by
  obtain ⟨_, _, _, -, -, -, hlink⟩ := ends_executable h
  exact link_get? rfl rfl rfl he hobject hexecutable hlink

theorem empty_analyzed (isFile : String → Bool) (base path : String) :
    (analyzed isFile base path "").2.diagnostics.isEmpty = false := by cbv

/-- There is no program in an empty file. -/
theorem text_ne_empty {isFile : String → Bool} {platform : Platform} {path text : String}
    {c : Compilation} {assembly : Machine.Assembly}
    (hrun : Compilation.run isFile platform path text = .ok c)
    (hassembly : c.assembly = some assembly) : text ≠ "" := by
  rintro rfl
  obtain ⟨_, _, _, haccepted, -⟩ := Compilation.run_assembly_iff.1 ⟨c, hrun, hassembly⟩
  have hempty := empty_analyzed isFile (Compilation.baseDirectory path) path
  rw [haccepted.clean] at hempty
  cases hempty

theorem runTool_succeeds {tool : ToolName} {arguments : List String} {output : String}
    (he : w.IsEquipped) (h : (arguments ++ ["-o", output]).any (·.contains '\x00') = false) :
    ∃ v, Ends (runTool tool arguments output) w () v ∧ v.IsEquipped := by
  obtain ⟨t, ht, hexit, -⟩ := he tool
  refine ⟨w.afterTool tool (arguments ++ ["-o", output]) output t, ?_, he⟩
  rw [ends_runTool]
  unfold Workspace.runTool
  dsimp only
  rw [if_neg (by rw [h]; exact Bool.false_ne_true), ht]
  simp [hexit]

/-- A text that compiles is built, if there is a place for the assembly and no argument of the tools
has a zero in it. -/
theorem executable_succeeds {path text : String} {o : BuildOptions} {c : Compilation}
    {assembly : Machine.Assembly} (he : w.IsEquipped) (hread : w.files.read path = .ok text)
    (hrun : Compilation.run w.files.isFile o.platform path text = .ok c)
    (hassembly : c.assembly = some assembly) {name : List String}
    (hname : w.files.name? o.assemblyPath = some name)
    (harguments : ((assemblerArguments o ++ ["-o", o.objectPath]) ++
      (linkerArguments o (c.program.links.map (·.value)) ++ ["-o", o.output])).any
        (·.contains '\x00') = false) :
    ∃ built w', Ends (executable path o) w built w' := by
  rw [List.any_append, Bool.or_eq_false_iff] at harguments
  obtain ⟨v, hassembled, hv⟩ := runTool_succeeds
    (w := { w with files := w.files.put name ⟨assembly.text, false⟩ }) he harguments.1
  obtain ⟨v', hlinked, -⟩ := runTool_succeeds hv harguments.2
  have hremoved : ∃ w', Ends (if !o.keepFiles then do
      if o.assembly.isNone then removeFile o.assemblyPath
      if o.object.isNone then removeFile o.objectPath
    else pure () : Build Unit) v' () w' := by
    split
    · split
      · split
        · exact ⟨_, ends_bind.2 ⟨(), _, ends_removeFile.2 rfl, ends_removeFile.2 rfl⟩⟩
        · exact ⟨_, ends_bind.2 ⟨(), _, ends_removeFile.2 rfl, ends_pure.2 ⟨rfl, rfl⟩⟩⟩
      · split
        · exact ⟨_, ends_removeFile.2 rfl⟩
        · exact ⟨_, ends_pure.2 ⟨rfl, rfl⟩⟩
    · exact ⟨_, ends_pure.2 ⟨rfl, rfl⟩⟩
  obtain ⟨w', hremoved⟩ := hremoved
  have hlink : Ends (link o assembly (c.program.links.map (·.value))) w () w' :=
    ends_bind.2 ⟨(), _, ends_writeFile.2 ⟨_, FileSystem.write_eq_of_name hname, rfl⟩,
      ends_bind.2 ⟨_, _, hassembled, ends_bind.2 ⟨_, _, hlinked, hremoved⟩⟩⟩
  have hfinish : Ends (finish o c) w
      { c with stages := c.stages ++ [.assembling, .linking] } w' := by
    unfold finish
    rw [hassembly]
    exact ends_bind.2 ⟨(), _, hlink, ends_pure.2 ⟨rfl, rfl⟩⟩
  exact ⟨_, w', ends_bind.2 ⟨text, w, ends_readSource.2 ⟨hread, rfl⟩,
    ends_bind.2 ⟨c, w, ends_compile.2 ⟨hrun, rfl⟩, hfinish⟩⟩⟩

/-- The shortest program. -/
def nothingText : String := "fn main() { }"

theorem nothingText_parsed (path : String) : (Parse.source path nothingText).hasErrors = false := by
  cbv

theorem nothingText_clean (isFile : String → Bool) (base path : String) :
    (analyzed isFile base path nothingText).2.diagnostics.isEmpty = true := by cbv

theorem nothingText_links (isFile : String → Bool) (base path : String) :
    (analyzed isFile base path nothingText).1.links = [] := by cbv

theorem nothingText_generates (isFile : String → Bool) (base path : String)
    (platform : Platform) :
    (Codegen.generate platform (analyzed isFile base path nothingText).2.layouts
      (analyzed isFile base path nothingText).1).isOk = true := by
  obtain ⟨system, convention⟩ := platform
  cases system <;> cases convention <;> cbv

theorem nothingText_compiles (isFile : String → Bool) (platform : Platform) (path : String) :
    ∃ c assembly, Compilation.run isFile platform path nothingText = .ok c ∧
      c.assembly = some assembly ∧ c.program.links = [] := by
  have hclean := List.isEmpty_iff.1
    (nothingText_clean isFile (Compilation.baseDirectory path) path)
  have hlinks := nothingText_links isFile (Compilation.baseDirectory path) path
  have hmade := nothingText_generates isFile (Compilation.baseDirectory path) path platform
  rw [Compilation.run_clean (nothingText_parsed path) hclean]
  cases hout : Codegen.generate platform
      (analyzed isFile (Compilation.baseDirectory path) path nothingText).2.layouts
      (analyzed isFile (Compilation.baseDirectory path) path nothingText).1 with
  | error e =>
    rw [hout] at hmade
    cases hmade
  | ok out => exact ⟨_, _, rfl, rfl, hlinks⟩

/-- A directory with one program in it, and tools that succeed. -/
def bench (path : String) : Workspace where
  files := .ofFiles [(path, nothingText)]
  installed _ := some ⟨0, "", "", false⟩
  program := .exited 0
  commands := []

theorem bench_isEquipped (path : String) : (bench path).IsEquipped :=
  fun _ => ⟨_, rfl, rfl, rfl⟩

/-- The paths of a build on the bench, by the names of the files that they lead to. -/
structure Leads (path : String) (o : BuildOptions) (source text object executable : List String) :
    Prop where
  source : (bench path).files.name? path = some source
  text : (bench path).files.name? o.assemblyPath = some text
  object : (bench path).files.name? o.objectPath = some object
  executable : (bench path).files.name? o.output = some executable
  read : (bench path).files.read path = .ok nothingText
  arguments : ((assemblerArguments o ++ ["-o", o.objectPath]) ++
    (linkerArguments o [] ++ ["-o", o.output])).any (·.contains '\x00') = false

theorem Leads.ends {path : String} {o : BuildOptions} {source text object executable : List String}
    (h : Leads path o source text object executable) :
    ∃ c w', Ends (Build.executable path o) (bench path) c w' := by
  obtain ⟨c, assembly, hrun, hassembly, hlinks⟩ :=
    nothingText_compiles (bench path).files.isFile o.platform path
  exact executable_succeeds (bench_isEquipped path) h.read hrun hassembly h.text
    (by rw [hlinks]; exact h.arguments)

/-- What is left of a successful build. The assembly and the object file are gone, whatever else
their paths led to, the executable is there unless it was one of them, and every other file is as it
was. So the source is lost exactly if one of the three paths leads to it, and the executable exactly
if it was taken for one of the other two. -/
theorem executable_keeps_iff {path output : String} {platform : Platform} {c : Compilation}
    (he : w.IsEquipped) {o : BuildOptions}
    (ho : o = { BuildOptions.ofSource path platform with output })
    {object executable : List String} (hobject : w.files.name? o.objectPath = some object)
    (hexecutable : w.files.name? output = some executable)
    (h : Ends (Build.executable path o) w c w') :
    ∃ source text, w.files.name? path = some source ∧ w.files.name? o.assemblyPath = some text ∧
      (∀ name, w'.files.get? name =
        if name = text ∨ name = object then none
        else if name = executable then some (Workspace.product .linker)
        else w.files.get? name) ∧
      (w'.files.read path = w.files.read path ↔
        source ≠ text ∧ source ≠ object ∧ source ≠ executable) ∧
      (w'.files.get? executable = some (Workspace.product .linker) ↔
        executable ≠ text ∧ executable ≠ object) := by
  subst ho
  obtain ⟨contents, compiled, assembly, hread, hrun, hassembly, -⟩ := ends_executable h
  obtain ⟨hname, text, htext, hget⟩ := executable_get? he hobject hexecutable h
  obtain ⟨source, hsource⟩ := FileSystem.name_of_read hread
  refine ⟨source, text, hsource, htext, hget, ?_, ?_⟩
  · rw [hread, FileSystem.read_eq_of_name ((hname path).trans hsource), hget]
    rw [FileSystem.read_eq_of_name hsource] at hread
    by_cases hremoved : source = text ∨ source = object
    · rw [if_pos hremoved]
      rcases hremoved with rfl | rfl <;> simp
    · obtain ⟨hntext, hnobject⟩ := not_or.1 hremoved
      rw [if_neg hremoved]
      by_cases houtput : source = executable
      · have hne := text_ne_empty hrun hassembly
        simp [houtput, Workspace.product, hne.symm]
      · rw [if_neg houtput]
        exact iff_of_true hread ⟨hntext, hnobject, houtput⟩
  · rw [hget, if_pos rfl]
    by_cases hremoved : executable = text ∨ executable = object
    · rw [if_pos hremoved]
      rcases hremoved with rfl | rfl <;> simp
    · rw [if_neg hremoved]
      exact iff_of_true rfl (not_or.1 hremoved)

theorem leads_plain : Leads "main.bz" (.ofSource "main.bz" .linux)
    ["main.bz"] ["main.S"] ["main.o"] ["main"] := by
  constructor <;> cbv

/-- Nothing is lost of a source whose name ends otherwise. -/
theorem executable_keeps_iff_plain :
    (bench "main.bz").IsEquipped ∧
    (bench "main.bz").files.name? (BuildOptions.ofSource "main.bz" .linux).objectPath =
      some ["main.o"] ∧
    (bench "main.bz").files.name? (BuildOptions.ofSource "main.bz" .linux).output =
      some ["main"] ∧
    ∃ c w', Ends (executable "main.bz" (.ofSource "main.bz" .linux)) (bench "main.bz") c w' ∧
      w'.files.read "main.bz" = .ok nothingText ∧
      w'.files.get? ["main"] = some (Workspace.product .linker) := by
  obtain ⟨c, w', h⟩ := leads_plain.ends
  obtain ⟨source, text, hsource, htext, -, hread, hget⟩ := executable_keeps_iff
    (bench_isEquipped "main.bz") rfl leads_plain.object leads_plain.executable h
  obtain rfl := Option.some.inj (leads_plain.source.symm.trans hsource)
  obtain rfl := Option.some.inj (leads_plain.text.symm.trans htext)
  exact ⟨bench_isEquipped _, leads_plain.object, leads_plain.executable, c, w', h,
    (hread.2 (by decide)).trans leads_plain.read, hget.2 (by decide)⟩

theorem leads_object : Leads "main.bz" { BuildOptions.ofSource "main.bz" .linux with
    output := "main.o" } ["main.bz"] ["main.S"] ["main.o"] ["main.o"] := by
  constructor <;> cbv

theorem leads_assembly : Leads "main.S" (.ofSource "main.S" .linux)
    ["main.S"] ["main.S"] ["main.o"] ["main"] := by
  constructor <;> cbv

/-- An executable that is named as an object file is removed as one, and a source that is named as
assembly as well. -/
theorem executable_removed :
    (∃ c w', Ends (executable "main.bz" { BuildOptions.ofSource "main.bz" .linux with
        output := "main.o" }) (bench "main.bz") c w' ∧ w'.files.get? ["main.o"] = none) ∧
    ∃ c w', Ends (executable "main.S" (.ofSource "main.S" .linux)) (bench "main.S") c w' ∧
      (bench "main.S").files.read "main.S" = .ok nothingText ∧
      w'.files.read "main.S" = .error .notFound := by
  constructor
  · obtain ⟨c, w', h⟩ := leads_object.ends
    obtain ⟨-, text, -, hget⟩ := executable_get? (bench_isEquipped "main.bz") leads_object.object
      leads_object.executable h
    exact ⟨c, w', h, by simp [hget]⟩
  · obtain ⟨c, w', h⟩ := leads_assembly.ends
    obtain ⟨hname, text, htext, hget⟩ := executable_get? (bench_isEquipped "main.S")
      leads_assembly.object leads_assembly.executable h
    obtain rfl := Option.some.inj (leads_assembly.text.symm.trans htext)
    refine ⟨c, w', h, leads_assembly.read, ?_⟩
    rw [FileSystem.read_eq_of_name ((hname _).trans leads_assembly.source), hget]
    simp

end Build

end RegionCompiler
