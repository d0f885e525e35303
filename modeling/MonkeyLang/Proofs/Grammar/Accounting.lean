import Mathlib.Algebra.Order.Group.Nat
import MonkeyLang.Proofs.Grammar.Log

/-! The account of the errors. Each statement that is given up has one error of its own, a statement
that is kept has none, and the errors come in the order of the tokens they blame. -/
namespace MonkeyLang

/-- The kind of the place in front of these tokens. -/
def Kind.ahead : List Token → Kind
  | [] => .endOfInput
  | t :: _ => t.kind

/-- What an error says of the place in front of these tokens. -/
def SyntaxError.Describes : SyntaxError → List Token → Prop
  | expected _ found, ts => found = Kind.ahead ts
  | noOperand found, ts => found = Kind.ahead ts
  | tooLarge digits, ts => ts.head? = some (.int digits)

/-- The place of the diagnostic is in front of these tokens, and its error says so. -/
structure Diagnostic.Blames (d : Diagnostic) (ts : List Token) : Prop where
  unread : d.unread = ts.length
  error : d.error.Describes ts

/-- From `ts` on, the diagnostics blame one place after the other, all of them in front of `rest`
or at its beginning. -/
inductive Trail : List Token → List Diagnostic → List Token → Prop
  | stop {ts rest : List Token} (h : rest <:+ ts) : Trail ts [] rest
  | blame {ts us rest : List Token} {d : Diagnostic} {ds : List Diagnostic} (h : us <:+ ts)
      (hd : d.Blames us) (hds : Trail us ds rest) : Trail ts (d :: ds) rest

namespace Trail
variable {ts us mid rest : List Token} {ds es : List Diagnostic}

theorem mono (h : Trail ts ds rest) (hs : ts <:+ us) : Trail us ds rest := by
  cases h with
  | stop h => exact .stop (h.trans hs)
  | blame h hd hds => exact .blame (h.trans hs) hd hds

theorem append (h : Trail ts ds mid) (h' : Trail mid es rest) : Trail ts (ds ++ es) rest := by
  induction h with
  | stop h => exact h'.mono h
  | blame h hd _ ih => exact .blame h hd (ih h')

theorem leave (h : Trail ts ds mid) (hs : rest <:+ mid) : Trail ts ds rest := by
  simpa using h.append (.stop hs)

theorem exists_blames (h : Trail ts ds rest) : ∀ d ∈ ds, ∃ us, us <:+ ts ∧ d.Blames us := by
  induction h with
  | stop => simp
  | @blame ts us rest d ds h hd _ ih =>
    refine List.forall_mem_cons.mpr ⟨⟨us, h, hd⟩, ?_⟩
    intro e he
    obtain ⟨vs, hvs, hb⟩ := ih e he
    exact ⟨vs, hvs.trans h, hb⟩

theorem unread_le (h : Trail ts ds rest) : ∀ d ∈ ds, d.unread ≤ ts.length := by
  intro d hd
  obtain ⟨us, hs, hb⟩ := h.exists_blames d hd
  exact hb.unread.trans_le hs.length_le

theorem pairwise (h : Trail ts ds rest) : ds.Pairwise fun d e => e.unread ≤ d.unread := by
  induction h with
  | stop => exact .nil
  | blame h hd hds ih =>
    refine .cons ?_ ih
    intro e he
    exact (hds.unread_le e he).trans_eq hd.unread.symm

end Trail

/-- The errors of a step, in front of `own`, blame places from `ts` on to what it leaves, and there
are at most as many of them, without `own`, as tokens that were read. -/
structure Step.Accounts {α : Type} {n : Nat} (s : Step α n) (own : List Diagnostic)
    (ts : List Token) : Prop where
  trail : Trail ts (s.report.diagnostics ++ own) s.rest
  few : s.report.diagnostics.length + s.rest.length ≤ n

/-- The error that ended an attempt. -/
def Attempt.own {α : Type} {n : Nat} (s : Attempt α n) : List Diagnostic :=
  match s.value with
  | .ok _ => []
  | .error d => [d]

def Attempt.Accounts {α : Type} {n : Nat} (s : Attempt α n) (ts : List Token) : Prop :=
  Step.Accounts s s.own ts

namespace Attempt
variable {α β : Type} {m n : Nat} {s : Attempt α n} {ts us : List Token}

theorem accounts_done {a : α} : (done a ts).Accounts ts :=
  ⟨.stop (List.suffix_refl ts), by simp⟩

theorem accounts_fail {e : SyntaxError} (hs : ts <:+ us) (he : e.Describes us) :
    (fail e us.length ts : Attempt α ts.length).Accounts us :=
  ⟨.blame (List.suffix_refl us) ⟨rfl, he⟩ (.stop hs), (Nat.zero_add _).le⟩

theorem Accounts.mono (h : s.Accounts ts) (hs : ts <:+ us) : s.Accounts us :=
  ⟨h.trail.mono hs, h.few⟩

theorem Accounts.weaken {hmn : n ≤ m} (h : s.Accounts ts) (hs : ts <:+ us) :
    Accounts (Step.weaken s hmn) us :=
  ⟨h.trail.mono hs, h.few.trans hmn⟩

theorem Accounts.map {f : α → β} (h : s.Accounts ts) : (s.map f).Accounts ts := by
  obtain ⟨_ | a, rest, report, hle⟩ := s
  · exact ⟨h.trail, h.few⟩
  · exact ⟨h.trail, h.few⟩

theorem Accounts.andThen {f : α → (rest : List Token) → rest.length ≤ n → Attempt β rest.length}
    (h : s.Accounts ts) (hf : ∀ a rest hle, (f a rest hle).Accounts rest) :
    (s.andThen f).Accounts ts := by
  obtain ⟨d | a, rest, report, hle⟩ := s
  · exact ⟨h.trail, h.few⟩
  · obtain ⟨htrail, hfew⟩ := h
    obtain ⟨htrail', hfew'⟩ := hf a rest hle
    have hall : Trail ts (report.diagnostics ++ ((f a rest hle).report.diagnostics ++
        (f a rest hle).own)) (f a rest hle).rest := by
      simpa [own] using htrail.append htrail'
    refine ⟨?_, ?_⟩
    · rw [← List.append_assoc] at hall
      exact hall
    · change (report ++ (f a rest hle).report).diagnostics.length + _ ≤ n
      rw [Report.diagnostics_append, List.length_append]
      have hfew : report.diagnostics.length + rest.length ≤ n := hfew
      exact (Nat.add_assoc _ _ _).trans_le ((Nat.add_le_add_left hfew' _).trans hfew)

theorem Accounts.skipping {t : Token} (h : s.Accounts ts) : (skipping t s).Accounts ts := by
  obtain ⟨_ | a, _ | ⟨u, rest⟩, report, hle⟩ := s
  case ok.cons =>
    by_cases hu : u = t
    · rw [Attempt.skipping, if_pos hu]
      have hfew : report.diagnostics.length + (rest.length + 1) ≤ n := h.few
      refine ⟨h.trail.leave (List.suffix_cons u rest), ?_⟩
      exact (Nat.le_succ _).trans hfew
    · rw [Attempt.skipping, if_neg hu]
      exact h
  all_goals exact h

end Attempt

theorem Step.Accounts.kept {α : Type} {n : Nat} {s : Step α n} {ts : List Token}
    (h : s.Accounts [] ts) : s.kept.Accounts ts :=
  ⟨h.trail, h.few⟩

namespace Grammar
open Attempt List

theorem accounts_expect (s : Symbol) (ts : List Token) : (expect s ts).Accounts ts := by
  cases ts with
  | nil => exact accounts_fail (suffix_refl []) rfl
  | cons t ts =>
    by_cases ht : t = .symbol s
    · rw [expect, if_pos ht]
      exact accounts_done.weaken (suffix_cons t ts)
    · rw [expect, if_neg ht]
      exact accounts_fail (suffix_refl (t :: ts)) rfl

theorem accounts_expectName (ts : List Token) : (expectName ts).Accounts ts := by
  unfold expectName
  split
  · exact accounts_fail (suffix_refl []) rfl
  · rename_i x ts
    exact accounts_done.weaken (suffix_cons _ ts)
  · rename_i t ts _
    exact accounts_fail (suffix_refl (t :: ts)) rfl

theorem accounts_moreParameters (ts : List Token) : (moreParameters ts).Accounts ts := by
  unfold moreParameters
  split
  · rename_i ts
    refine Accounts.weaken ?_ (suffix_cons _ ts)
    refine (accounts_expectName ts).andThen ?_
    intro x rest hle
    exact (accounts_moreParameters rest).map
  · refine (accounts_expect .rightParen _).andThen ?_
    intro _ rest _
    exact accounts_done
termination_by ts.length
decreasing_by
  subst_eqs
  simp only [List.length_cons]
  omega

theorem accounts_parameters (ts : List Token) : (parameters ts).Accounts ts := by
  unfold parameters
  split
  · rename_i ts
    exact accounts_done.weaken (suffix_cons _ ts)
  · refine (accounts_expectName _).andThen ?_
    intro x rest _
    exact (accounts_moreParameters rest).map

mutual
theorem accounts_operand (t : Token) (ts : List Token) : (operand t ts).Accounts (t :: ts) := by
  have htail := suffix_cons t ts
  unfold operand
  split
  · exact accounts_done.mono htail
  · split
    · exact accounts_done.mono htail
    · exact accounts_fail htail rfl
  · exact accounts_done.mono htail
  · exact accounts_done.mono htail
  · refine Accounts.mono ?_ htail
    refine (accounts_expect .leftParen ts).andThen ?_
    intro _ us hus
    refine (accounts_expression .lowest us).andThen ?_
    intro c us hus
    refine (accounts_expect .rightParen us).andThen ?_
    intro _ us hus
    refine (accounts_expect .leftBrace us).andThen ?_
    intro _ us hus
    refine (accounts_statements true us).kept.andThen ?_
    intro body us hus
    split
    · rename_i us hus
      refine Accounts.weaken ?_ (suffix_cons _ us)
      refine (accounts_expect .leftBrace us).andThen ?_
      intro _ vs hvs
      exact (accounts_statements true vs).kept.map
    · exact accounts_done
  · refine Accounts.mono ?_ htail
    refine (accounts_expect .leftParen ts).andThen ?_
    intro _ us hus
    refine (accounts_parameters us).andThen ?_
    intro xs us hus
    refine (accounts_expect .leftBrace us).andThen ?_
    intro _ us hus
    exact (accounts_statements true us).kept.map
  · refine Accounts.mono ?_ htail
    refine (accounts_expression .lowest ts).andThen ?_
    intro e us hus
    refine (accounts_expect .rightParen us).andThen ?_
    intro _ us hus
    exact accounts_done
  · split
    · exact (accounts_expression .unary ts).map.mono htail
    · exact accounts_fail htail rfl
  · exact accounts_fail htail rfl
termination_by 4 * ts.length + 1
decreasing_by all_goals first | omega | (subst_eqs; simp only [List.length_cons] at *; omega)

theorem accounts_expression (p : Precedence) (ts : List Token) :
    (expression p ts).Accounts ts := by
  unfold expression
  split
  · exact accounts_fail (suffix_refl []) rfl
  · rename_i t us
    exact (accounts_expressionFrom p t us).weaken (suffix_refl (t :: us))
termination_by 4 * ts.length

theorem accounts_expressionFrom (p : Precedence) (t : Token) (ts : List Token) :
    (expressionFrom p t ts).Accounts (t :: ts) := by
  unfold expressionFrom
  refine (accounts_operand t ts).andThen ?_
  intro left us hus
  exact accounts_operators p left us
termination_by 4 * ts.length + 2

theorem accounts_operators (p : Precedence) (left : Expr) (ts : List Token) :
    (operators p left ts).Accounts ts := by
  unfold operators
  split
  · rename_i s us
    split
    · split
      · refine Accounts.weaken ?_ (suffix_cons _ us)
        refine (accounts_arguments us).andThen ?_
        intro as vs hvs
        exact accounts_operators p (.call left as) vs
      · exact accounts_done
    · split
      · rename_i op _
        split
        · refine Accounts.weaken ?_ (suffix_cons _ us)
          refine (accounts_expression op.precedence us).andThen ?_
          intro right vs hvs
          exact accounts_operators p (.binary left op right) vs
        · exact accounts_done
      · exact accounts_done
  · exact accounts_done
termination_by 4 * ts.length
decreasing_by all_goals first | omega | (subst_eqs; simp only [List.length_cons] at *; omega)

theorem accounts_arguments (ts : List Token) : (arguments ts).Accounts ts := by
  unfold arguments
  split
  · rename_i us
    exact accounts_done.weaken (suffix_cons _ us)
  · refine (accounts_expression .lowest _).andThen ?_
    intro a us hus
    exact (accounts_moreArguments us).map
termination_by 4 * ts.length + 1
decreasing_by all_goals omega

theorem accounts_moreArguments (ts : List Token) : (moreArguments ts).Accounts ts := by
  unfold moreArguments
  split
  · rename_i us
    refine Accounts.weaken ?_ (suffix_cons _ us)
    refine (accounts_expression .lowest us).andThen ?_
    intro a vs hvs
    exact (accounts_moreArguments vs).map
  · refine (accounts_expect .rightParen _).andThen ?_
    intro _ us _
    exact accounts_done
termination_by 4 * ts.length
decreasing_by all_goals first | omega | (subst_eqs; simp only [List.length_cons] at *; omega)

theorem accounts_statement (t : Token) (ts : List Token) :
    (statement t ts).Accounts (t :: ts) := by
  have htail := suffix_cons t ts
  unfold statement
  split
  · refine (Accounts.mono ?_ htail).skipping
    refine (accounts_expectName ts).andThen ?_
    intro x us hus
    refine (accounts_expect .equal us).andThen ?_
    intro _ us hus
    exact (accounts_expression .lowest us).map
  · refine (Accounts.mono ?_ htail).skipping
    split
    · exact accounts_done
    · exact (accounts_expression .lowest ts).map
  · exact (accounts_expressionFrom .lowest t ts).map.skipping
termination_by 4 * ts.length + 3
decreasing_by all_goals omega

/-- A statement that is given up adds its error, and has taken at least its first token. -/
theorem accounts_statements (inBlock : Bool) (ts : List Token) :
    (statements inBlock ts).Accounts [] ts := by
  unfold statements
  split
  · cases inBlock
    · exact ⟨.stop (suffix_refl []), le_rfl⟩
    · exact ⟨.stop (suffix_refl []), le_rfl⟩
  · rename_i t us
    split
    · exact ⟨.stop (suffix_cons t us), by simp⟩
    · have hs := accounts_statement t us
      split
      · rename_i s rest report hle he
        rw [he] at hs
        obtain ⟨htrail, hfew⟩ := hs
        obtain ⟨htrail', hfew'⟩ := accounts_statements inBlock rest
        refine ⟨?_, ?_⟩
        · simpa [own] using htrail.append htrail'
        · simp at hfew hfew' ⊢
          omega
      · rename_i d rest report hle he
        rw [he] at hs
        obtain ⟨htrail, hfew⟩ := hs
        obtain ⟨htrail', hfew'⟩ := accounts_statements inBlock rest
        refine ⟨?_, ?_⟩
        · simpa [own, Report.abandoned] using htrail.append htrail'
        · simp [Report.abandoned] at hfew hfew' ⊢
          omega
termination_by 4 * ts.length
decreasing_by all_goals first | omega | (subst_eqs; simp only [List.length_cons] at *; omega)
end

end Grammar

/-- What a statement adds to the log: an error of its own exactly if it is given up, and otherwise
one for each of the statements given up inside it. -/
def Logged.Accounted {n : Nat} (s : Logged (Option Stmt) n) (log : Log) : Prop :=
  ∃ inner own : List Diagnostic, own.length = (if s.value.isSome then 0 else 1) ∧
    s.log.diagnostics = log.diagnostics ++ inner ++ own ∧
    s.log.abandoned = log.abandoned + inner.length

theorem Logged.accounted_statement (t : Token) (ts : List Token) (log : Log) :
    (statement t ts log).Accounted log := by
  rw [statement_eq]
  obtain ⟨d | s, rest, report, hle⟩ := Grammar.statement t ts
  · exact ⟨report.diagnostics, [d], rfl, rfl, rfl⟩
  · exact ⟨report.diagnostics, [], rfl, (List.append_nil _).symm, rfl⟩

/-- A text read with a log. -/
def Logged.ofText (source : String) : Logged (List Stmt) (Token.scan source).length :=
  statements false (Token.scan source) .empty

/-- Reading a text with a log gives the same program and the same errors. In it each statement,
wherever it stands, writes down one error of its own if it is given up and none if it is kept. So
there are as many errors as statements given up, and not more than tokens. They come in the order
of the places they blame. -/
theorem Reading.errors_accounted (source : String) :
    (Logged.ofText source).value = (ofText source).program ∧
      (Logged.ofText source).log.diagnostics = (ofText source).report.diagnostics ∧
      (∀ t ts log, (Logged.statement t ts log).Accounted log) ∧
      (ofText source).errors.length = (Logged.ofText source).log.abandoned ∧
      ((ofText source).errors = [] ↔ (Logged.ofText source).log.abandoned = 0) ∧
      (ofText source).errors.length ≤ (Token.scan source).length ∧
      (ofText source).report.diagnostics.Pairwise (fun d e => e.unread ≤ d.unread) ∧
      ∀ d ∈ (ofText source).report.diagnostics, ∃ us, us <:+ Token.scan source ∧ d.Blames us := by
  have hlog : Logged.ofText source = (Grammar.statements false (Token.scan source)).logged .empty :=
    Logged.statements_eq false (Token.scan source) .empty
  have haccounts := Grammar.accounts_statements false (Token.scan source)
  have htrail : Trail (Token.scan source) (ofText source).report.diagnostics
      (Grammar.statements false (Token.scan source)).rest := by
    have h := haccounts.trail
    rwa [List.append_nil] at h
  have hcount : (ofText source).errors.length = (Logged.ofText source).log.abandoned := by
    rw [hlog, errors, List.length_map]
    exact (Nat.zero_add _).symm
  refine ⟨by rw [hlog]; rfl, by rw [hlog]; rfl, Logged.accounted_statement, hcount, ?_, ?_,
    htrail.pairwise, htrail.exists_blames⟩
  · rw [← hcount, List.length_eq_zero_iff]
  · rw [errors, List.length_map]
    exact (Nat.le_add_right _ _).trans haccounts.few

end MonkeyLang
