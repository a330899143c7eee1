import RegionCompiler.Proofs.Parse.Grammar

/-! Whatever derives from the grammar in some way also derives with every `else` at the nearest
`if`: an `else` that belongs to an outer `if` moves to the open one inside. -/
namespace RegionCompiler.Grammar

open Token (Kind)

section Attach

variable {no : Block} {other : Bool} {middle after : List Kind}

mutual
theorem Statement.attach (hno : Single true no other middle after) {s : Stmt} {dangling : Bool}
    {before tail : List Kind} : Statement true s dangling before tail → dangling = true →
    tail = .keyword .else_ :: middle → ∃ s' dangling', Statement true s' dangling' before after
  | @Statement.if_ _ _ _ inner _ _ _ he hyes, _, htail => by
    by_cases hinner : inner = true
    · obtain ⟨_, _, hyes'⟩ := Single.attach hno hyes hinner htail
      exact ⟨_, _, .if_ he hyes'⟩
    · rw [htail] at hyes
      exact ⟨_, _, .ifElse he hyes (fun _ => Bool.eq_false_iff.2 hinner) hno⟩
  | .ifElse he hyes hinner hlast, hopen, htail => by
    obtain ⟨_, _, hlast'⟩ := Single.attach hno hlast hopen htail
    exact ⟨_, _, .ifElse he hyes hinner hlast'⟩
  | .while_ he hbody, hopen, htail => by
    obtain ⟨_, _, hbody'⟩ := Single.attach hno hbody hopen htail
    exact ⟨_, _, .while_ he hbody'⟩
  | .for_ hfirst hlast hbody, hopen, htail => by
    obtain ⟨_, _, hbody'⟩ := Single.attach hno hbody hopen htail
    exact ⟨_, _, .for_ hfirst hlast hbody'⟩
  | .body hbody, hopen, htail => by
    obtain ⟨_, _, hbody'⟩ := Body.attach hno hbody hopen htail
    exact ⟨_, _, .body hbody'⟩

theorem Body.attach (hno : Single true no other middle after) {b : Block} {dangling : Bool}
    {before tail : List Kind} : Body true b dangling before tail → dangling = true →
    tail = .keyword .else_ :: middle → ∃ b' dangling', Body true b' dangling' before after
  | .manual h, hopen, htail => by
    obtain ⟨_, _, h'⟩ := Single.attach hno h hopen htail
    exact ⟨_, _, .manual h'⟩

theorem Single.attach (hno : Single true no other middle after) {b : Block} {dangling : Bool}
    {before tail : List Kind} : Single true b dangling before tail → dangling = true →
    tail = .keyword .else_ :: middle → ∃ b' dangling', Single true b' dangling' before after
  | .body h, hopen, htail => by
    obtain ⟨_, _, h'⟩ := Body.attach hno h hopen htail
    exact ⟨_, _, .body h'⟩
  | .statement h, hopen, htail => by
    obtain ⟨_, _, h'⟩ := Statement.attach hno h hopen htail
    exact ⟨_, _, .statement h'⟩
end

end Attach

mutual
theorem Statement.resolve {s : Stmt} {dangling : Bool} {before after : List Kind} :
    Statement false s dangling before after →
      ∃ s' dangling', Statement true s' dangling' before after
  | .let_ ht he => ⟨_, _, .let_ ht he⟩
  | .mut_ hp he => ⟨_, _, .mut_ hp he⟩
  | .call he => ⟨_, _, .call he⟩
  | .collect he => ⟨_, _, .collect he⟩
  | .returnValue he => ⟨_, _, .returnValue he⟩
  | .returnNothing => ⟨_, _, .returnNothing⟩
  | .break_ => ⟨_, _, .break_⟩
  | .continue_ => ⟨_, _, .continue_⟩
  | .if_ he hyes => by
    obtain ⟨_, _, hyes'⟩ := Single.resolve hyes
    exact ⟨_, _, .if_ he hyes'⟩
  | .ifElse he hyes _ hno => by
    obtain ⟨_, inner, hyes'⟩ := Single.resolve hyes
    obtain ⟨_, _, hno'⟩ := Single.resolve hno
    cases inner with
    | true =>
      obtain ⟨_, _, hlast⟩ := Single.attach hno' hyes' rfl rfl
      exact ⟨_, _, .if_ he hlast⟩
    | false => exact ⟨_, _, .ifElse he hyes' (fun _ => rfl) hno'⟩
  | .while_ he hbody => by
    obtain ⟨_, _, hbody'⟩ := Single.resolve hbody
    exact ⟨_, _, .while_ he hbody'⟩
  | .doWhile hbody he => by
    obtain ⟨_, _, hbody'⟩ := Single.resolve hbody
    exact ⟨_, _, .doWhile hbody' he⟩
  | .for_ hfirst hlast hbody => by
    obtain ⟨_, _, hbody'⟩ := Single.resolve hbody
    exact ⟨_, _, .for_ hfirst hlast hbody'⟩
  | .body hbody => by
    obtain ⟨_, _, hbody'⟩ := Body.resolve hbody
    exact ⟨_, _, .body hbody'⟩

theorem Body.resolve {b : Block} {dangling : Bool} {before after : List Kind} :
    Body false b dangling before after → ∃ b' dangling', Body true b' dangling' before after
  | .braces h => by
    obtain ⟨_, h'⟩ := Statements.resolve h
    exact ⟨_, _, .braces h'⟩
  | .manual h => by
    obtain ⟨_, _, h'⟩ := Single.resolve h
    exact ⟨_, _, .manual h'⟩

theorem Single.resolve {b : Block} {dangling : Bool} {before after : List Kind} :
    Single false b dangling before after → ∃ b' dangling', Single true b' dangling' before after
  | .body h => by
    obtain ⟨_, _, h'⟩ := Body.resolve h
    exact ⟨_, _, .body h'⟩
  | .statement h => by
    obtain ⟨_, _, h'⟩ := Statement.resolve h
    exact ⟨_, _, .statement h'⟩

theorem Statements.resolve {statements : List Stmt} {before after : List Kind} :
    Statements false statements before after →
      ∃ statements', Statements true statements' before after
  | .none => ⟨_, .none⟩
  | .more h hrest => by
    obtain ⟨_, _, h'⟩ := Statement.resolve h
    obtain ⟨_, hrest'⟩ := Statements.resolve hrest
    exact ⟨_, .more h' hrest'⟩
end

mutual
theorem Statement.relax {nearest : Bool} {s : Stmt} {dangling : Bool} {before after : List Kind} :
    Statement nearest s dangling before after → Statement false s dangling before after
  | .let_ ht he => .let_ ht he
  | .mut_ hp he => .mut_ hp he
  | .call he => .call he
  | .collect he => .collect he
  | .returnValue he => .returnValue he
  | .returnNothing => .returnNothing
  | .break_ => .break_
  | .continue_ => .continue_
  | .if_ he hyes => .if_ he (Single.relax hyes)
  | .ifElse he hyes _ hno => .ifElse he (Single.relax hyes) nofun (Single.relax hno)
  | .while_ he hbody => .while_ he (Single.relax hbody)
  | .doWhile hbody he => .doWhile (Single.relax hbody) he
  | .for_ hfirst hlast hbody => .for_ hfirst hlast (Single.relax hbody)
  | .body hbody => .body (Body.relax hbody)

theorem Body.relax {nearest : Bool} {b : Block} {dangling : Bool} {before after : List Kind} :
    Body nearest b dangling before after → Body false b dangling before after
  | .braces h => .braces (Statements.relax h)
  | .manual h => .manual (Single.relax h)

theorem Single.relax {nearest : Bool} {b : Block} {dangling : Bool} {before after : List Kind} :
    Single nearest b dangling before after → Single false b dangling before after
  | .body h => .body (Body.relax h)
  | .statement h => .statement (Statement.relax h)

theorem Statements.relax {nearest : Bool} {statements : List Stmt} {before after : List Kind} :
    Statements nearest statements before after → Statements false statements before after
  | .none => .none
  | .more h hrest => .more (Statement.relax h) (Statements.relax hrest)
end

theorem Declared.relax {nearest : Bool} {d : Declaration} {before after : List Kind}
    (h : Declared nearest d before after) : Declared false d before after := by
  cases h with
  | function hparameters hresult hbody => exact .function hparameters hresult hbody.relax
  | foreign hlink hparameters hresult => exact .foreign hlink hparameters hresult
  | record hmembers => exact .record hmembers
  | link => exact .link
  | embed => exact .embed

theorem Declarations.relax {nearest : Bool} {ds : List Declaration} {tokens : List Kind}
    (h : Declarations nearest ds tokens) : Declarations false ds tokens := by
  induction h with
  | none => exact .none
  | more hd _ ih => exact .more hd.relax ih

theorem Declared.resolve {d : Declaration} {before after : List Kind}
    (h : Declared false d before after) : ∃ d', Declared true d' before after := by
  cases h with
  | function hparameters hresult hbody =>
    obtain ⟨_, _, hbody'⟩ := hbody.resolve
    exact ⟨_, .function hparameters hresult hbody'⟩
  | foreign hlink hparameters hresult => exact ⟨_, .foreign hlink hparameters hresult⟩
  | record hmembers => exact ⟨_, .record hmembers⟩
  | link => exact ⟨_, .link⟩
  | embed => exact ⟨_, .embed⟩

theorem Declarations.resolve {ds : List Declaration} {tokens : List Kind}
    (h : Declarations false ds tokens) : ∃ ds', Declarations true ds' tokens := by
  induction h with
  | none => exact ⟨_, .none⟩
  | more hd _ ih =>
    obtain ⟨_, hd'⟩ := hd.resolve
    obtain ⟨_, ih'⟩ := ih
    exact ⟨_, .more hd' ih'⟩

end RegionCompiler.Grammar
