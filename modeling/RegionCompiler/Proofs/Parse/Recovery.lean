import RegionCompiler.Proofs.Parse.Reading

/-! Attempts at declarations. One that is given up ends behind the token that does not fit, so a
keyword is passed over exactly if it is that token itself; a missing body alone leaves it. -/
namespace RegionCompiler.Parse

inductive Ending
  | read (declaration : Declaration)
  | cutShort (position : Location)
  | abandoned (diagnostic : Diagnostic)

def Ending.declaration? : Ending → Option Declaration
  | .read one => some one
  | _ => none

def Ending.diagnostic? : Ending → Option Diagnostic
  | .read _ => none
  | .cutShort position => some (.endOfFile position)
  | .abandoned d => some d

/-- The tokens from `start` on up to `stop` were read. -/
structure Attempt where
  start : Nat
  stop : Nat
  ending : Ending

def attempt (c : Cursor) : Ending × Cursor :=
  match declaration c with
  | .ok one next => (.read one, next)
  | .error .endOfFile stopped => (.cutShort stopped.last.stop, stopped)
  | .error (.reported d) stopped => (.abandoned d, stopped)

/-- Where the attempt after this one starts, if any token is left there. -/
def Ending.resume (e : Ending) (c : Cursor) : Cursor :=
  match e with
  | .read _ => c
  | .cutShort _ => { c with rest := [] }
  | .abandoned _ => c.resume

/-- The attempts from a cursor on, in a text of `total` tokens. -/
def attemptsAt (total : Nat) : Nat → Cursor → List Attempt
  | 0, _ => []
  | n + 1, c =>
    if c.rest.isEmpty then []
    else
      let (ending, stopped) := attempt c
      ⟨total - c.rest.length, total - stopped.rest.length, ending⟩
        :: attemptsAt total n (ending.resume stopped)

def attempts (tokens : List Token) : List Attempt :=
  attemptsAt tokens.length tokens.length (.ofTokens tokens)

theorem attemptsAt_empty {c : Cursor} (h : c.rest = []) (total n : Nat) :
    attemptsAt total n c = [] := by
  cases n with
  | zero => rfl
  | succ n => simp [attemptsAt, h]

theorem declarationsAt_eq (total n : Nat) (c : Cursor) : declarationsAt n c =
    ((attemptsAt total n c).filterMap (·.ending.declaration?),
      (attemptsAt total n c).filterMap (·.ending.diagnostic?)) := by
  induction n generalizing c with
  | zero => rfl
  | succ n ih =>
    unfold declarationsAt attemptsAt attempt
    split
    · rfl
    · cases declaration c with
      | ok one next => simp [ih, Ending.declaration?, Ending.diagnostic?, Ending.resume]
      | error failure stopped =>
        cases failure with
        | endOfFile =>
          simp [Ending.declaration?, Ending.diagnostic?, Ending.resume, attemptsAt_empty]
        | reported d => simp [ih, Ending.declaration?, Ending.diagnostic?, Ending.resume]

section Spec

variable (tokens : List Token)

/-- A keyword that starts a declaration stands at this index. -/
def KeywordAt (j : Nat) : Prop := ∃ t, tokens[j]? = some t ∧ startsDeclaration t = true

/-- A declaration can be read from this index on. -/
def ReadableAt (j : Nat) (one : Declaration) : Prop :=
  ∃ next, declaration (.ofTokens (tokens.drop j)) = .ok one next

/-- The first index from `k` on at which a keyword that starts a declaration stands, or the number
of tokens. -/
def nextDeclaration (k : Nat) : Nat :=
  k + (tokens.drop k).findIdx startsDeclaration

/-- Whether the token that a diagnostic is about stays to be read. -/
def Diagnostic.leavesToken : Diagnostic → Bool
  | .expectedBody _ => true
  | _ => false

namespace Attempt

variable (a : Attempt)

/-- The index from which the next attempt starts. -/
def resume : Nat :=
  match a.ending with
  | .read _ => a.stop
  | .cutShort _ => tokens.length
  | .abandoned _ => nextDeclaration tokens a.stop

/-- The attempt is given up on the token at index `k`. -/
def FailsOn (k : Nat) (d : Diagnostic) : Prop :=
  a.ending = .abandoned d ∧ a.start ≤ k ∧ k < tokens.length ∧ tokens[k]? = d.token? ∧
    a.stop = if d.leavesToken then k else k + 1

/-- The attempt is given up on a keyword, and takes it along. -/
def Swallows (j : Nat) : Prop :=
  ∃ d, a.FailsOn tokens j d ∧ d.leavesToken = false ∧ a.start < j

structure Lawful : Prop where
  advances : a.start < a.stop
  within : a.stop ≤ tokens.length
  read : ∀ one, a.ending = .read one ↔ ReadableAt tokens a.start one
  cutShort : ∀ position, a.ending = .cutShort position → a.stop = tokens.length
  abandoned : ∀ d, a.ending = .abandoned d → ∃ k, a.FailsOn tokens k d
  inside : ∀ j, a.start < j → j < a.stop → KeywordAt tokens j → a.Swallows tokens j

end Attempt

/-- Attempts that follow each other from index `i` to the end. -/
def Unbroken : Nat → List Attempt → Prop
  | i, [] => tokens.length ≤ i
  | i, a :: others => a.start = i ∧ a.Lawful tokens ∧ Unbroken (a.resume tokens) others

end Spec

section Steps

variable {tokens : List Token} {i k : Nat} {c : Cursor}

theorem drop_of_append {before rest : List Token} (h : tokens.drop k = before ++ rest)
    (hk : k ≤ tokens.length) :
    k + before.length + rest.length = tokens.length ∧ rest = tokens.drop (k + before.length) := by
  have hlength : tokens.length - k = before.length + rest.length := by
    rw [← List.length_drop, h, List.length_append]
  refine ⟨by omega, ?_⟩
  rw [← List.drop_drop, h, List.drop_left]

theorem not_keywordAt {before rest : List Token} (h : tokens.drop k = before ++ rest)
    (hbefore : Inner before) {j : Nat} (hlow : k ≤ j) (hhigh : j < k + before.length) :
    ¬ KeywordAt tokens j := by
  rintro ⟨t, ht, hstarts⟩
  have hmem : before[j - k]? = some t := by
    have hleft : (before ++ rest)[j - k]? = before[j - k]? :=
      List.getElem?_append_left (by omega)
    rw [← hleft, ← h, List.getElem?_drop, ← ht]
    congr 1
    omega
  rw [hbefore t (List.mem_of_getElem? hmem)] at hstarts
  cases hstarts

theorem declaration_last (t : Token) (rest : List Token) (last last' : Span) :
    declaration ⟨t :: rest, last⟩ = declaration ⟨t :: rest, last'⟩ := rfl

theorem read_iff {t : Token} {rest : List Token} (hdrop : tokens.drop i = t :: rest) (last : Span)
    (one : Declaration) :
    (attempt ⟨t :: rest, last⟩).1 = .read one ↔ ReadableAt tokens i one := by
  unfold ReadableAt attempt
  rw [hdrop, Cursor.ofTokens, declaration_last t rest Span.origin last]
  cases declaration ⟨t :: rest, last⟩ with
  | ok other next => simp
  | error failure stopped => cases failure <;> simp

/-- The three ways in which an attempt ends. A token that does not fit comes behind tokens of which
only the first one may be a keyword that starts a declaration. -/
theorem attempt_cases (t : Token) (rest : List Token) (last : Span) :
    (∃ one next before, attempt ⟨t :: rest, last⟩ = (.read one, next) ∧
      rest = before ++ next.rest ∧ Inner before) ∨
    (∃ position stopped, attempt ⟨t :: rest, last⟩ = (.cutShort position, stopped) ∧
      Inner rest ∧ stopped.rest = []) ∨
    (∃ d stopped before, attempt ⟨t :: rest, last⟩ = (.abandoned d, stopped) ∧
      t :: rest = before ++ d.offending stopped.rest ∧ Inner before.tail ∧
      (d.leavesToken = true → before ≠ []) ∧ d.token?.isSome ∧
      (d.offending stopped.rest).head? = d.token?) := by
  cases hstarts : startsDeclaration t with
  | false =>
    refine .inr (.inr ⟨.expectedDeclaration t, ⟨rest, t.span⟩, [], ?_, rfl, inner_nil,
      nofun, rfl, rfl⟩)
    rw [attempt, declaration_stray hstarts]
  | true =>
    have houtcome := declaration_outcome hstarts rest last
    unfold attempt
    cases hrun : declaration ⟨t :: rest, last⟩ with
    | ok one next =>
      rw [hrun] at houtcome
      obtain ⟨before, hrest, hbefore, -⟩ := houtcome
      exact .inl ⟨one, next, before, rfl, hrest, hbefore⟩
    | error failure stopped =>
      rw [hrun] at houtcome
      cases failure with
      | endOfFile => exact .inr (.inl ⟨_, stopped, rfl, houtcome⟩)
      | reported d =>
        obtain ⟨before, hrest, hbefore, htoken, hhead⟩ := houtcome
        refine .inr (.inr ⟨d, stopped, t :: before, rfl, ?_, hbefore, nofun, htoken, hhead⟩)
        rw [hrest, List.cons_append]

theorem Diagnostic.offending_leavesToken {d : Diagnostic} (h : d.leavesToken = true)
    (rest : List Token) : d.offending rest = rest := by
  cases d <;> first | rfl | cases h

theorem Diagnostic.offending_token {d : Diagnostic} (h : d.leavesToken = false) {t : Token}
    (ht : d.token? = some t) (rest : List Token) : d.offending rest = t :: rest := by
  cases d <;> simp_all [Diagnostic.offending, Diagnostic.leavesToken]

/-- An attempt that is given up stops at the token that does not fit, or right behind it. -/
theorem stop_of_offending {d : Diagnostic} {before rest : List Token}
    (h : tokens.drop i = before ++ d.offending rest) (hi : i < tokens.length)
    (htoken : d.token?.isSome) (hhead : (d.offending rest).head? = d.token?) :
    tokens[i + before.length]? = d.token? ∧ i + before.length < tokens.length ∧
      tokens.length - rest.length =
        (if d.leavesToken then i + before.length else i + before.length + 1) ∧
      rest = tokens.drop (tokens.length - rest.length) := by
  obtain ⟨hlength, hdrop⟩ := drop_of_append h (Nat.le_of_lt hi)
  obtain ⟨t, ht⟩ := Option.isSome_iff_exists.1 htoken
  have hget : tokens[i + before.length]? = some t := by
    rw [← List.head?_drop, ← hdrop, hhead, ht]
  obtain ⟨hlt, -⟩ := List.getElem?_eq_some_iff.1 hget
  refine ⟨hget.trans ht.symm, hlt, ?_⟩
  cases hleaves : d.leavesToken with
  | true =>
    rw [Diagnostic.offending_leavesToken hleaves] at hlength hdrop
    have hstop : tokens.length - rest.length = i + before.length := by omega
    exact ⟨hstop, hstop ▸ hdrop⟩
  | false =>
    rw [Diagnostic.offending_token hleaves ht] at hlength hdrop
    rw [List.length_cons] at hlength
    have hstop : tokens.length - rest.length = i + before.length + 1 := by omega
    refine ⟨hstop, ?_⟩
    rw [hstop, ← List.drop_drop, ← hdrop, List.drop_one, List.tail_cons]

theorem lawful_read {one : Declaration} {before rest : List Token}
    (hone : ReadableAt tokens i one) (hrest : tokens.drop (i + 1) = before ++ rest)
    (hbefore : Inner before) (hi : i < tokens.length) :
    (Attempt.mk i (i + 1 + before.length) (.read one)).Lawful tokens := by
  obtain ⟨hlength, -⟩ := drop_of_append hrest hi
  constructor
  case advances => show i < i + 1 + before.length; omega
  case within => show i + 1 + before.length ≤ tokens.length; omega
  case read =>
    intro other
    constructor
    · rintro ⟨⟩
      exact hone
    · rintro ⟨next, hnext⟩
      obtain ⟨next', hnext'⟩ := hone
      obtain ⟨rfl, -⟩ := EStateM.Result.ok.inj (hnext.symm.trans hnext')
      rfl
  case cutShort => rintro position ⟨⟩
  case abandoned => rintro d ⟨⟩
  case inside => exact fun j hlow hhigh hkey => absurd hkey (not_keywordAt hrest hbefore hlow hhigh)

theorem lawful_cutShort {position : Location} (hnone : ∀ one, ¬ ReadableAt tokens i one)
    (hrest : Inner (tokens.drop (i + 1))) (hi : i < tokens.length) :
    (Attempt.mk i tokens.length (.cutShort position)).Lawful tokens := by
  constructor
  case advances => exact hi
  case within => exact Nat.le_refl _
  case read => exact fun one => ⟨by rintro ⟨⟩, fun h => absurd h (hnone one)⟩
  case cutShort => exact fun _ _ => rfl
  case abandoned => rintro d ⟨⟩
  case inside =>
    intro j hlow hhigh hkey
    refine absurd hkey (not_keywordAt (List.append_nil _).symm hrest hlow ?_)
    have hbound : j < tokens.length := hhigh
    rw [List.length_drop]
    omega

theorem lawful_abandoned {d : Diagnostic} {before rest : List Token} {stop : Nat}
    (hnone : ∀ one, ¬ ReadableAt tokens i one)
    (hall : tokens.drop i = before ++ rest) (hbefore : Inner before.tail)
    (hleaves : d.leavesToken = true → before ≠ [])
    (hfails : (Attempt.mk i stop (.abandoned d)).FailsOn tokens (i + before.length) d) :
    (Attempt.mk i stop (.abandoned d)).Lawful tokens := by
  obtain ⟨-, -, hlt, -, hstop⟩ := id hfails
  change stop = _ at hstop
  constructor
  case advances =>
    show i < stop
    split at hstop
    case isTrue hleft =>
      have := List.length_pos_iff.2 (hleaves hleft)
      omega
    case isFalse => omega
  case within =>
    show stop ≤ tokens.length
    split at hstop <;> omega
  case read => exact fun one => ⟨by rintro ⟨⟩, fun h => absurd h (hnone one)⟩
  case cutShort => rintro position ⟨⟩
  case abandoned =>
    rintro d' ⟨⟩
    exact ⟨_, hfails⟩
  case inside =>
    intro j hlow hhigh hkey
    change i < j at hlow
    change j < stop at hhigh
    by_cases hbound : j < i + before.length
    · -- Before the token that does not fit there is no keyword but the first one.
      obtain ⟨t, inner, rfl⟩ : ∃ t inner, before = t :: inner :=
        List.exists_cons_of_ne_nil fun h => by simp [h] at hbound; omega
      have htail : tokens.drop (i + 1) = inner ++ rest := by
        rw [← List.drop_drop, hall, List.drop_one, List.cons_append, List.tail_cons]
      rw [List.length_cons] at hbound
      exact absurd hkey (not_keywordAt htail hbefore hlow (by omega))
    · split at hstop
      case isTrue => omega
      case isFalse hleft =>
        obtain rfl : j = i + before.length := by omega
        exact ⟨d, hfails, by simpa using hleft, hlow⟩

theorem attempt_lawful (hi : i < tokens.length) (last : Span) {ending : Ending} {stopped : Cursor}
    (hattempt : attempt ⟨tokens.drop i, last⟩ = (ending, stopped)) :
    (Attempt.mk i (tokens.length - stopped.rest.length) ending).Lawful tokens ∧
      stopped.rest = tokens.drop (tokens.length - stopped.rest.length) := by
  have hdrop : tokens.drop i = tokens[i] :: tokens.drop (i + 1) := List.drop_eq_getElem_cons hi
  have hread := read_iff hdrop last
  rw [hdrop] at hattempt
  rw [hattempt] at hread
  have hcases := attempt_cases tokens[i] (tokens.drop (i + 1)) last
  rw [hattempt] at hcases
  rcases hcases with ⟨one, next, before, heq, hrest, hbefore⟩ |
    ⟨position, next, heq, hrest, hempty⟩ | ⟨d, next, before, heq, hall, hbefore, hleaves, hoffends⟩
  · obtain ⟨rfl, rfl⟩ := Prod.mk.inj heq
    obtain ⟨hlength, hsuffix⟩ := drop_of_append hrest hi
    have hstop : tokens.length - stopped.rest.length = i + 1 + before.length := by omega
    rw [hstop]
    exact ⟨lawful_read ((hread one).1 rfl) hrest hbefore hi, hsuffix⟩
  · obtain ⟨rfl, rfl⟩ := Prod.mk.inj heq
    rw [hempty, List.length_nil, Nat.sub_zero, List.drop_length]
    exact ⟨lawful_cutShort (fun one h => nomatch (hread one).2 h) hrest hi, rfl⟩
  · obtain ⟨rfl, rfl⟩ := Prod.mk.inj heq
    rw [← hdrop] at hall
    obtain ⟨hget, hlt, hstop, hsuffix⟩ := stop_of_offending hall hi hoffends.1 hoffends.2
    refine ⟨lawful_abandoned (fun one h => nomatch (hread one).2 h) hall hbefore hleaves ?_,
      hsuffix⟩
    exact ⟨rfl, Nat.le_add_right _ _, hlt, hget, hstop⟩

theorem resume_rest {stop : Nat} {ending : Ending} {stopped : Cursor}
    (hrest : stopped.rest = tokens.drop stop) :
    (ending.resume stopped).rest = tokens.drop ((Attempt.mk i stop ending).resume tokens) := by
  cases ending with
  | read one => exact hrest
  | cutShort position => exact List.drop_length.symm
  | abandoned d =>
    change stopped.rest.dropWhile _ = tokens.drop (nextDeclaration tokens stop)
    rw [List.dropWhile_eq_drop_findIdx_not, hrest, List.drop_drop, nextDeclaration]
    simp only [Bool.not_not]

theorem attemptsAt_succ (hi : i < tokens.length) (last : Span) (n : Nat) {ending : Ending}
    {stopped : Cursor} (hattempt : attempt ⟨tokens.drop i, last⟩ = (ending, stopped)) :
    attemptsAt tokens.length (n + 1) ⟨tokens.drop i, last⟩ =
      ⟨i, tokens.length - stopped.rest.length, ending⟩
        :: attemptsAt tokens.length n (ending.resume stopped) := by
  have hsome : (tokens.drop i).isEmpty = false := by
    rw [List.drop_eq_getElem_cons hi, List.isEmpty_cons]
  have hindex : tokens.length - (tokens.length - i) = i := by omega
  simp [attemptsAt, hsome, hattempt, hindex]

theorem Attempt.stop_le_resume {a : Attempt} (ha : a.Lawful tokens) : a.stop ≤ a.resume tokens := by
  unfold Attempt.resume
  split
  · exact Nat.le_refl _
  · exact ha.within
  · exact Nat.le_add_right _ _

theorem attemptsAt_unbroken {n : Nat} (last : Span) (hn : tokens.length - i ≤ n) :
    Unbroken tokens i (attemptsAt tokens.length n ⟨tokens.drop i, last⟩) := by
  induction n generalizing i last with
  | zero => exact Nat.le_of_sub_eq_zero (Nat.le_zero.1 hn)
  | succ n ih =>
    by_cases hi : i < tokens.length
    · rcases hattempt : attempt ⟨tokens.drop i, last⟩ with ⟨ending, stopped⟩
      rw [attemptsAt_succ hi last n hattempt]
      obtain ⟨hlawful, hrest⟩ := attempt_lawful hi last hattempt
      generalize ha : Attempt.mk i (tokens.length - stopped.rest.length) ending = a at *
      have hnext : (ending.resume stopped).rest = tokens.drop (a.resume tokens) :=
        ha ▸ resume_rest hrest
      have hstart : a.start = i := ha ▸ rfl
      have hadvances : a.start < a.stop := hlawful.advances
      have hlater := Attempt.stop_le_resume hlawful
      have hothers := ih (ending.resume stopped).last (i := a.resume tokens) (by omega)
      rw [← hnext] at hothers
      exact ⟨hstart, hlawful, hothers⟩
    · have hle : tokens.length ≤ i := Nat.le_of_not_lt hi
      rw [attemptsAt_empty (List.drop_eq_nil_of_le hle)]
      exact hle

theorem attempts_unbroken (tokens : List Token) : Unbroken tokens 0 (attempts tokens) :=
  attemptsAt_unbroken Span.origin (Nat.sub_le _ _)

theorem Unbroken.lawful {i : Nat} {as : List Attempt} (h : Unbroken tokens i as) :
    ∀ a ∈ as, a.Lawful tokens := by
  induction as generalizing i with
  | nil => exact fun a ha => absurd ha List.not_mem_nil
  | cons a others ih =>
    intro b hb
    rcases List.mem_cons.1 hb with rfl | hb
    · exact h.2.1
    · exact ih h.2.2 b hb

/-- From a keyword at `j`, nothing before it but `k` onwards is skipped past `j`. -/
theorem nextDeclaration_le {j : Nat} (hk : k ≤ j) (hj : KeywordAt tokens j) :
    nextDeclaration tokens k ≤ j := by
  obtain ⟨t, ht, hstarts⟩ := hj
  have hget : (tokens.drop k)[j - k]? = some t := by
    rw [List.getElem?_drop, ← ht]
    congr 1
    omega
  obtain ⟨hlt, heq⟩ := List.getElem?_eq_some_iff.1 hget
  have hle : (tokens.drop k).findIdx startsDeclaration ≤ j - k := by
    refine Nat.le_of_not_lt fun hbefore => ?_
    have := List.not_of_lt_findIdx hbefore
    rw [heq, hstarts] at this
    cases this
  unfold nextDeclaration
  omega

theorem Unbroken.keyword {as : List Attempt} (h : Unbroken tokens i as) {j : Nat} (hj : i ≤ j)
    (hkey : KeywordAt tokens j) :
    (∃ a ∈ as, a.start = j) ∨ ∃ a ∈ as, a.Swallows tokens j := by
  induction as generalizing i with
  | nil =>
    obtain ⟨t, ht, -⟩ := hkey
    obtain ⟨hlt, -⟩ := List.getElem?_eq_some_iff.1 ht
    exact absurd (Nat.le_trans h hj) (Nat.not_le_of_lt hlt)
  | cons a others ih =>
    obtain ⟨rfl, hlawful, hothers⟩ := h
    rcases Nat.eq_or_lt_of_le hj with heq | hlow
    · exact .inl ⟨a, List.mem_cons_self, heq⟩
    rcases Nat.lt_or_ge j a.stop with hhigh | hlater
    · exact .inr ⟨a, List.mem_cons_self, hlawful.inside j hlow hhigh hkey⟩
    have hresume : a.resume tokens ≤ j := by
      unfold Attempt.resume
      split
      case h_1 => exact hlater
      case h_2 position heq => exact hlawful.cutShort position heq ▸ hlater
      case h_3 => exact nextDeclaration_le hlater hkey
    rcases ih hothers hresume with ⟨b, hb, hstart⟩ | ⟨b, hb, hswallows⟩
    · exact .inl ⟨b, List.mem_cons_of_mem a hb, hstart⟩
    · exact .inr ⟨b, List.mem_cons_of_mem a hb, hswallows⟩

theorem ReadableAt.keyword {j : Nat} {one : Declaration} (h : ReadableAt tokens j one) :
    KeywordAt tokens j := by
  obtain ⟨next, hnext⟩ := h
  cases hdrop : tokens.drop j with
  | nil =>
    rw [hdrop] at hnext
    cases hnext
  | cons t rest =>
    refine ⟨t, by rw [← List.head?_drop, hdrop, List.head?_cons], ?_⟩
    cases hstarts : startsDeclaration t with
    | true => rfl
    | false =>
      rw [hdrop, Cursor.ofTokens, declaration_stray hstarts] at hnext
      cases hnext

/-- Reading goes on at the first keyword from the token that does not fit on, unless it is one that
was taken along. -/
theorem Attempt.FailsOn.resume {a : Attempt} {d : Diagnostic} (h : a.FailsOn tokens k d)
    (hk : d.leavesToken = true ∨ ¬ KeywordAt tokens k) :
    a.resume tokens = nextDeclaration tokens k := by
  obtain ⟨hending, -, hlt, -, hstop⟩ := h
  rw [Attempt.resume, hending]
  change nextDeclaration tokens a.stop = _
  cases hleaves : d.leavesToken with
  | true => rw [hstop, hleaves, if_pos rfl]
  | false =>
    have hnot : startsDeclaration tokens[k] = false := by
      have hkey : ¬ KeywordAt tokens k := hk.resolve_left (by simp [hleaves])
      exact Bool.eq_false_iff.2 fun hstarts => hkey ⟨_, List.getElem?_eq_getElem hlt, hstarts⟩
    rw [hstop, hleaves, if_neg (by decide), nextDeclaration, nextDeclaration,
      List.drop_eq_getElem_cons hlt, List.findIdx_cons, hnot]
    simp only [cond_false]
    omega

end Steps

/-- How the parser recovers. Its answer is what a chain of attempts gave, which covers the text:
each reads a token at least and gives a declaration or one diagnostic. After an attempt that was
given up, reading goes on at the next keyword from the token that did not fit on, unless that token
is a keyword and was taken along; and only so can a declaration that could be read be lost. -/
theorem program_recovers (path : String) (tokens : List Token) :
    program path tokens =
      (.ofDeclarations path ((attempts tokens).filterMap (·.ending.declaration?)),
        (attempts tokens).filterMap (·.ending.diagnostic?)) ∧
    Unbroken tokens 0 (attempts tokens) ∧
    (∀ a ∈ attempts tokens, ∀ d, a.ending = .abandoned d → ∃ k, a.FailsOn tokens k d ∧
      (d.leavesToken = true ∨ ¬ KeywordAt tokens k →
        a.resume tokens = nextDeclaration tokens k)) ∧
    ∀ j one, ReadableAt tokens j one →
      (∃ a ∈ attempts tokens, a.start = j ∧ a.ending = .read one) ∨
        ∃ a ∈ attempts tokens, a.Swallows tokens j := by
  have hunbroken := attempts_unbroken tokens
  refine ⟨?_, hunbroken, fun a ha d hd => ?_, fun j one hone => ?_⟩
  · rw [program, declarationsAt_eq tokens.length]
    rfl
  · obtain ⟨k, hk⟩ := (hunbroken.lawful a ha).abandoned d hd
    exact ⟨k, hk, hk.resume⟩
  · refine (hunbroken.keyword (Nat.zero_le j) hone.keyword).imp_left ?_
    rintro ⟨a, ha, rfl⟩
    exact ⟨a, ha, rfl, ((hunbroken.lawful a ha).read one).2 hone⟩

section LostDeclaration

def wordAt (first last : Nat) (kind : Token.Kind) : Token :=
  ⟨kind, ⟨first, 0, first⟩, ⟨last, 0, last⟩⟩

/-- The tokens of `fn broken( fn main() {}`. -/
def brokenThenMain : List Token :=
  [wordAt 0 2 (.keyword .fn_), wordAt 3 9 (.identifier "broken"), wordAt 9 10
    (.punctuator .leftParen),
   wordAt 11 13 (.keyword .fn_), wordAt 14 18 (.identifier "main"),
   wordAt 18 19 (.punctuator .leftParen), wordAt 19 20 (.punctuator .rightParen),
   wordAt 21 22 (.punctuator .leftBrace), wordAt 22 23 (.punctuator .rightBrace)]

/-- A declaration that could be read is lost, and with it the keyword to go on at. -/
theorem brokenThenMain_loses :
    (∃ one, ReadableAt brokenThenMain 3 one) ∧ nextDeclaration brokenThenMain 3 = 3 ∧
    (∃ a d, attempts brokenThenMain = [a] ∧ a.FailsOn brokenThenMain 3 d ∧
      a.resume brokenThenMain = 9) ∧
    (program "main.bz" brokenThenMain).1.functions = [] :=
  ⟨⟨_, _, rfl⟩, rfl, ⟨_, _, rfl, ⟨rfl, by decide, by decide, rfl, rfl⟩, rfl⟩, rfl⟩

end LostDeclaration

end RegionCompiler.Parse
