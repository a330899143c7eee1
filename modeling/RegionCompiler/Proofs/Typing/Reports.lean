import RegionCompiler.Proofs.Typing.Marking
import RegionCompiler.Proofs.Typing.Session

/-! What inference reports. In every state of the analysis, an expression that was just read gets
its types once, no declaration changes, and there is one problem more if the expression has no valid
type and none if it has one. -/
namespace RegionCompiler.Typing

open Marking

/-! ### States of the analysis -/

/-- A state in which expressions of the last program can be met, or one after it: the layouts and
the names of types are those of all the programs, and symbols may still be missing. -/
structure Knowledge.During (k : Knowledge) (isFile : String → Bool) (base : String)
    (programs : List Program) : Prop where
  layouts : k.layouts = (analyzeAll isFile base programs).layouts
  types : k.types = (analyzeAll isFile base programs).types
  symbols : k.symbols.symbols <+: (analyzeAll isFile base programs).symbols.symbols

theorem during_analyzeAll (isFile : String → Bool) (base : String) (programs : List Program) :
    (analyzeAll isFile base programs).During isFile base programs :=
  ⟨rfl, rfl, List.prefix_rfl⟩

theorem isNamed_signature {t : Ty} (h : t.IsData) (m : Modifier) : (t.withModifier m).IsNamed := by
  have hnamed := h.isNamed
  cases t with
  | invalid => exact h.elim
  | _ => cases m <;> exact hnamed

theorem Declaration.isNamed {types : List String} {p : Program} {x : Symbol} (hp : p.Tidy)
    (h : Declaration types p x) : x.ty.IsNamed := by
  rcases h with hglobal | ⟨f, hf, hvariable⟩
  · simp only [globals, List.mem_append, List.mem_map] at hglobal
    rcases hglobal with (⟨f, hf, rfl⟩ | ⟨f, hf, rfl⟩) | ⟨e, -, rfl⟩
    · exact isNamed_signature (hp.functions f hf).result _
    · exact isNamed_signature (hp.foreign f hf).result _
    · rfl
  · rcases hvariable.type with ⟨hdata, -⟩ | ⟨parameter, hparameter, hty⟩
    · exact hdata.isNamed
    · rw [hty]
      exact ((hp.functions f hf).parameters parameter hparameter).1.isNamed

theorem Knowledge.During.named {k : Knowledge} {isFile : String → Bool} {base : String}
    {programs : List Program} (hk : k.During isFile base programs)
    (hprograms : ∀ p ∈ programs, p.Tidy) : k.env.Named where
  symbols := by
    intro x hx
    obtain ⟨p, hp, hdeclared⟩ :=
      (after_analyzeAll isFile base hprograms).symbols x (hk.symbols.subset hx)
    exact hdeclared.isNamed (hprograms p hp)
  members := by
    intro name l hl m hm
    have hl : k.layouts.get? name = some l := hl
    rw [hk.layouts] at hl
    obtain ⟨shape, hshape, hmember⟩ :=
      ((after_analyzeAll isFile base hprograms).records name l hl).1 m hm
    obtain ⟨p, hp, hshape⟩ := List.mem_flatMap.1 hshape
    obtain ⟨r, hr, rfl⟩ := List.mem_map.1 hshape
    obtain ⟨y, hy, heq⟩ := List.mem_map.1 hmember
    rw [← (Prod.mk.inj heq).2]
    exact ((hprograms p hp).records r hr y hy).isNamed

theorem infer_node_ty (env : Env) (scope : ScopePath) (hint : Ty) (e : Expr) :
    (infer env scope hint e).1.node.ty = some (recorded (infer env scope hint e).2) := by
  rw [infer.eq_def]
  cases e with
  | array node elements => cases elements <;> rfl
  | addressOf =>
    dsimp only
    split <;> rfl
  | conversion =>
    dsimp only
    split <;> rfl
  | _ => rfl

/-! ### Inference reports once -/

/-- What comes of an expression: a tree and a type, and the state after. -/
structure InfersOnce (k : Knowledge) (scope : ScopePath) (hint : Ty) (e : Expr)
    (k' : Knowledge) (e' : Expr) (t : Ty) : Prop where
  /-- The run ends, so no annotation is set twice. -/
  run : inferType scope hint e k = some ((e', t), k')
  /-- Checking the expression does the same. -/
  checks : ∀ locals, (checkExpr ⟨k.layouts, k.types⟩ scope hint e).run
      ⟨k.symbols, k.diagnostics, locals⟩ =
    ((e', if t.isValid then some t else none), ⟨k'.symbols, k'.diagnostics, locals⟩)
  before : e.node.ty = none
  after : e'.node.ty = some t
  layouts : k'.layouts = k.layouts
  types : k'.types = k.types
  symbols : k'.symbols = k.symbols
  quiet : t.isValid → k'.diagnostics = k.diagnostics
  reports : t = .invalid → ∃ d, k'.diagnostics = k.diagnostics ++ [d]

theorem checkExpr_run (k : Knowledge) (locals : List StackVariable) (scope : ScopePath) (hint : Ty)
    (e : Expr) :
    (checkExpr ⟨k.layouts, k.types⟩ scope hint e).run ⟨k.symbols, k.diagnostics, locals⟩ =
      let settled := (settle (infer k.env scope hint e).2).run ⟨k.symbols, k.diagnostics, locals⟩
      (((infer k.env scope hint e).1, settled.1), settled.2) :=
  rfl

/-- In any state that analysis can be in, inference of an expression that was just read sets its
type once, changes no declarations, and reports one problem if the type is invalid and none if it is
valid. -/
theorem inferType_once (isFile : String → Bool) (base : String) {programs : List Program}
    (hprograms : ∀ p ∈ programs, p.Tidy) {k : Knowledge} (hk : k.During isFile base programs)
    (scope : ScopePath) (hint : Ty) {e : Expr} (he : e.Fresh) :
    ∃ k' e' t, InfersOnce k scope hint e k' e' t := by
  obtain ⟨hends, hvalid⟩ := @inferType_ends k.env scope (hk.named hprograms) e hint he
  have hafter := infer_node_ty k.env scope hint e
  have hrun := hends k rfl
  cases hr : (infer k.env scope hint e).2 with
  | ok t =>
    have ht : t.isValid := hvalid t hr
    rw [hr, problemsOf, List.append_nil] at hrun
    rw [hr] at hafter
    refine ⟨k, (infer k.env scope hint e).1, t, ?_⟩
    exact {
      run := hrun
      checks := fun locals => by
        rw [checkExpr_run, hr, if_pos ht]
        rfl
      before := he.node_ty
      after := hafter
      layouts := rfl
      types := rfl
      symbols := rfl
      quiet := fun _ => rfl
      reports := fun hinvalid => by
        rw [hinvalid] at ht
        cases ht }
  | error d =>
    rw [hr] at hrun hafter
    refine ⟨{ k with diagnostics := k.diagnostics ++ [d] }, (infer k.env scope hint e).1,
      .invalid, ?_⟩
    exact {
      run := hrun
      checks := fun locals => by
        rw [checkExpr_run, hr]
        rfl
      before := he.node_ty
      after := hafter
      layouts := rfl
      types := rfl
      symbols := rfl
      quiet := fun ht => by cases ht
      reports := fun _ => ⟨d, rfl⟩ }

/-- A variable along two members, as it is read. -/
def memberChain : Expr :=
  .variable ⟨.origin, none⟩ ⟨⟨.origin, "c"⟩, none, none⟩
    [.member ⟨.origin, none⟩ ⟨.origin, "a"⟩, .member ⟨.origin, none⟩ ⟨.origin, "x"⟩]

theorem inferType_once_memberChain :
    (∀ p ∈ [read library, read client], p.Tidy) ∧
    (analyzeAll (fun _ => false) "" [read library, read client]).During (fun _ => false) ""
      [read library, read client] ∧
    memberChain.Fresh ∧
    ∃ k' e' t, InfersOnce (analyzeAll (fun _ => false) "" [read library, read client])
      (.ofFunction "f") Ty.int memberChain k' e' t := by
  have htidy : ∀ p ∈ [read library, read client], p.Tidy :=
    List.forall_mem_cons.2 ⟨read_tidy library, List.forall_mem_singleton.2 (read_tidy client)⟩
  have hduring := during_analyzeAll (fun _ => false) "" [read library, read client]
  have hfresh : memberChain.Fresh := ⟨rfl, rfl, rfl, rfl, trivial⟩
  exact ⟨htidy, hduring, hfresh, inferType_once _ _ htidy hduring _ _ hfresh⟩

end RegionCompiler.Typing
