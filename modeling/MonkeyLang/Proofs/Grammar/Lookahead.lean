import MonkeyLang.Grammar.Rules
import MonkeyLang.Proofs.Grammar.Accounting

/-! Rules with one token of lookahead do what steps over the tokens behind the current one do. They
end, they never go back, and the calls inside a call become smaller. -/
namespace MonkeyLang

theorem Token.pull_eq (cs : List Char) :
    (pull cs).1 = (scanChars cs).head? ∧ scanChars (pull cs).2 = (scanChars cs).tail := by
  cases hn : next? cs with
  | none => simp [pull, hn, scanChars_of_none hn, scanChars_of_none (show next? [] = none from rfl)]
  | some r =>
    obtain ⟨t, rest⟩ := r
    simp [pull, hn, scanChars_of_some hn]

/-- What a reader has in front of it. -/
structure Reader.Holds (r : Reader) (ts : List Token) : Prop where
  current : r.current = ts.head?
  next : r.next = ts.tail.head?
  text : Token.scanChars r.text = ts.tail.tail

namespace Reader
variable {r : Reader} {ts : List Token}

theorem holds_start (source : String) : (start source).Holds (Token.scan source) := by
  obtain ⟨hfirst, hbehind⟩ := Token.pull_eq source.toList
  obtain ⟨hsecond, htext⟩ := Token.pull_eq (Token.pull source.toList).2
  exact ⟨hfirst, hsecond.trans (congrArg _ hbehind), htext.trans (congrArg _ hbehind)⟩

theorem Holds.advance (h : r.Holds ts) : r.advance.Holds ts.tail := by
  obtain ⟨hlater, hbehind⟩ := Token.pull_eq r.text
  exact ⟨h.next, hlater.trans (congrArg _ h.text), hbehind.trans (congrArg _ h.text)⟩

theorem Holds.record (h : r.Holds ts) (e : SyntaxError) : (r.record e).Holds ts :=
  ⟨h.current, h.next, h.text⟩

theorem Holds.unread (h : r.Holds ts) : r.unread = ts := by
  rw [Reader.unread, h.current, h.next, h.text]
  match ts with
  | [] | [_] | _ :: _ :: _ => rfl

end Reader

@[simp] theorem Kind.ofToken?_head? (ts : List Token) : ofToken? ts.head? = ahead ts := by
  cases ts <;> rfl

/-- Rules that may call each other without reading on have falling ranks. -/
def RuleName.rank : RuleName → Nat
  | block => 6
  | statements => 5
  | statement => 4
  | letStatement | returnStatement | expressionStatement => 3
  | expression => 2
  | _ => 1

/-- The weight of a call of a rule in front of some tokens. -/
def RuleName.weight (rule : RuleName) (ts : List Token) : Nat := 7 * ts.length + rule.rank

theorem RuleName.weight_lt {a b : RuleName} {ts us : List Token} (h : us.length < ts.length) :
    a.weight us < b.weight ts := by
  have ha : a.rank ≤ 6 := by cases a <;> decide
  simp only [weight]
  omega

theorem RuleName.weight_lt_cons {a b : RuleName} {t : Token} {ts us : List Token}
    (h : us.length ≤ ts.length) : a.weight us < b.weight (t :: ts) :=
  weight_lt (Nat.lt_succ_of_le h)

theorem RuleName.weight_lt_of_rank {a b : RuleName} {ts us : List Token}
    (h : us.length ≤ ts.length) (hr : a.rank < b.rank) : a.weight us < b.weight ts := by
  simp only [weight]
  omega

namespace RuleCall

def weight (c : RuleCall) : Nat := c.rule.weight c.before

/-- A call that does not go back, and that only makes lighter calls of the same sort. -/
inductive Descends : RuleCall → Prop
  | intro {c : RuleCall} : c.after <:+ c.before → (∀ d ∈ c.inside, d.weight < c.weight) →
      (∀ d ∈ c.inside, d.Descends) → c.Descends

/-- A call is one of some calls, or made inside one of them at any depth. -/
inductive Among : List RuleCall → RuleCall → Prop
  | here {c calls} : c ∈ calls → Among calls c
  | deeper {c d calls} : d ∈ calls → Among d.inside c → Among calls c

variable {c d : RuleCall} {calls : List RuleCall}

theorem Among.descends (h : Among calls c) (hd : ∀ d ∈ calls, d.Descends) : c.Descends := by
  induction h with
  | here hc => exact hd _ hc
  | deeper hc _ ih =>
    cases hd _ hc with
    | intro _ _ hinside => exact ih hinside

theorem Among.weight_lt (h : Among calls c) (hd : ∀ d ∈ calls, d.Descends) {limit : Nat}
    (hw : ∀ d ∈ calls, d.weight < limit) : c.weight < limit := by
  induction h generalizing limit with
  | here hc => exact hw _ hc
  | deeper hc _ ih =>
    cases hd _ hc with
    | intro _ hlighter hinside => exact (ih hinside hlighter).trans (hw _ hc)

/-- A call that does not go back. When its rule is called again inside it, fewer tokens are left. -/
structure Forward (c : RuleCall) : Prop where
  suffix : c.after <:+ c.before
  fewer : ∀ d, Among c.inside d → d.rule = c.rule → d.before.length < c.before.length

theorem Descends.forward (h : c.Descends) : c.Forward := by
  obtain ⟨hsuffix, hlighter, hinside⟩ := h
  refine ⟨hsuffix, ?_⟩
  intro d hd hr
  have hw := hd.weight_lt hinside hlighter
  simp only [weight, RuleName.weight, hr] at hw
  omega

end RuleCall

namespace Attempt
variable {α β γ : Type} {n : Nat}

/-- The errors of an attempt, with the one that ended it. -/
def problems (s : Attempt α n) : List SyntaxError :=
  (s.report.diagnostics ++ s.own).map (·.error)

theorem map_eq_andThen (s : Attempt α n) (f : α → β) :
    s.map f = s.andThen fun a rest _ => done (f a) rest := by
  obtain ⟨_ | a, rest, report, h⟩ := s
  · rfl
  · simp [map, andThen, Step.map, Except.map, Step.after, Step.weaken, done]

theorem map_andThen (s : Attempt α n)
    (f : α → (rest : List Token) → rest.length ≤ n → Attempt β rest.length) (g : β → γ) :
    (s.andThen f).map g = s.andThen fun a rest h => (f a rest h).map g := by
  obtain ⟨_ | a, rest, report, h⟩ := s
  · rfl
  · rfl

theorem andThen_map (s : Attempt α n) (f : α → β)
    (g : β → (rest : List Token) → rest.length ≤ n → Attempt γ rest.length) :
    (s.map f).andThen g = s.andThen fun a rest h => g (f a) rest h := by
  obtain ⟨_ | a, rest, report, h⟩ := s
  · rfl
  · rfl

theorem map_map (s : Attempt α n) (f : α → β) (g : β → γ) :
    (s.map f).map g = s.map fun a => g (f a) := by
  obtain ⟨_ | a, rest, report, h⟩ := s
  · rfl
  · rfl

theorem skipping_andThen (t : Token) (s : Attempt α n)
    (f : α → (rest : List Token) → rest.length ≤ n → Attempt β rest.length) :
    skipping t (s.andThen f) = s.andThen fun a rest h => skipping t (f a rest h) := by
  obtain ⟨_ | a, rest, report, h⟩ := s
  · cases rest <;> rfl
  · simp only [andThen]
    obtain ⟨_ | b, _ | ⟨u, us⟩, report', h'⟩ := f a rest h
    case ok.cons =>
      simp only [Step.after, Step.weaken, skipping]
      split <;> rfl
    all_goals rfl

end Attempt

theorem exists_of_map_eq_ok {ε α β : Type} {f : α → β} {x : Except ε α} {b : β}
    (h : x.map f = .ok b) : ∃ a, x = .ok a ∧ f a = b := by
  cases x with
  | error => cases h
  | ok a => exact ⟨a, rfl, Except.ok.inj h⟩

/-- The end of a rule in front of some tokens does what a step does that reads on behind the current
token, and its calls stay below a limit. -/
structure Ending.Meets {α : Type} {n : Nat} (e : Ending α) (r : Reader) (ts us : List Token)
    (limit : Nat) (s : Attempt α n) : Prop where
  holds : e.reader.Holds us
  suffix : us <:+ ts
  rest : us.tail = s.rest
  value : e.value = s.value.toOption
  errors : e.reader.errors = r.errors ++ s.problems
  calls : ∀ c ∈ e.calls, c.weight < limit ∧ c.Descends

/-- A rule ends on a token, whatever was written down before, as a step does. -/
def Rule.Meets {α : Type} {n : Nat} (m : Rule α) (ts : List Token) (limit : Nat)
    (s : Attempt α n) : Prop :=
  ∀ r, r.Holds ts → ∃ us e, m r = .ok e ∧ e.Meets r ts us limit s

/-- A call of a rule that does what a step does, and no heavier calls inside it. -/
def Rule.MeetsAs {α : Type} {n : Nat} (m : Rule α) (rule : RuleName) (ts : List Token)
    (s : Attempt α n) : Prop :=
  m.Meets ts (rule.weight ts + 1) s

namespace Rule
open Attempt RuleName
variable {α β : Type} {n limit : Nat} {ts us : List Token} {m : Rule α} {f : α → Rule β}
  {s : Attempt α n} {s' : Attempt β n}

theorem Meets.mono {more : Nat} (h : m.Meets ts limit s) (hle : limit ≤ more) :
    m.Meets ts more s := by
  intro r hr
  obtain ⟨us, e, he, hmeets⟩ := h r hr
  refine ⟨us, e, he, { hmeets with calls := ?_ }⟩
  intro c hc
  obtain ⟨hlt, hd⟩ := hmeets.calls c hc
  exact ⟨hlt.trans_le hle, hd⟩

theorem MeetsAs.below {rule : RuleName} (h : m.MeetsAs rule ts s) (hw : rule.weight ts < limit) :
    m.Meets ts limit s :=
  h.mono hw

theorem bind_of_none {r mid : Reader} {calls : List RuleCall} (h : m r = .ok ⟨none, mid, calls⟩) :
    (m >>= f) r = .ok ⟨none, mid, calls⟩ := by
  change m.andThen f r = _
  rw [Rule.andThen, h]

theorem bind_of_some {r mid : Reader} {calls : List RuleCall} {a : α} {e : Ending β}
    (h : m r = .ok ⟨some a, mid, calls⟩) (he : f a mid = .ok e) :
    (m >>= f) r = .ok { e with calls := calls ++ e.calls } := by
  change m.andThen f r = _
  rw [Rule.andThen, h]
  change (f a mid).map _ = _
  rw [he]
  rfl

theorem bind_eq_ok {r : Reader} {e : Ending β} (h : (m >>= f) r = .ok e) :
    ∃ first, m r = .ok first ∧ (first.value = none ∧ e.reader = first.reader ∨
      ∃ a later, first.value = some a ∧ f a first.reader = .ok later ∧ e.reader = later.reader) := by
  change andThen m f r = _ at h
  rw [Rule.andThen] at h
  cases hm : m r with
  | error halt =>
    rw [hm] at h
    cases h
  | ok first =>
    obtain ⟨_ | a, mid, calls⟩ := first
    · rw [hm] at h
      cases h
      exact ⟨_, rfl, .inl ⟨rfl, rfl⟩⟩
    · rw [hm] at h
      obtain ⟨later, hf, rfl⟩ := exists_of_map_eq_ok h
      exact ⟨_, rfl, .inr ⟨a, later, rfl, hf, rfl⟩⟩

theorem bind_currentKind (r : Reader) (f : Kind → Rule β) :
    (currentKind >>= f) r = f (.ofToken? r.current) r := by
  change (f (.ofToken? r.current) r).map _ = _
  cases f (.ofToken? r.current) r <;> rfl

theorem bind_nextKind {r : Reader} (hr : r.Holds ts) (f : Kind → Rule β) :
    (nextKind >>= f) r = f (Kind.ahead ts.tail) r := by
  change andThen nextKind f r = _
  rw [Rule.andThen, nextKind, hr.next, Kind.ofToken?_head?]
  change (f (Kind.ahead ts.tail) r).map _ = _
  cases f (Kind.ahead ts.tail) r <;> rfl

theorem within_eq_ok {rule : RuleName} {r : Reader} {e : Ending α} (h : within rule m r = .ok e) :
    ∃ inner, m r = .ok inner ∧ e.reader = inner.reader ∧
      e.calls = [⟨rule, r.unread, e.reader.unread, inner.calls⟩] := by
  obtain ⟨inner, hm, rfl⟩ := exists_of_map_eq_ok h
  exact ⟨inner, hm, rfl, rfl⟩

theorem attempt_eq_ok {r : Reader} {e : Ending (Option α)} (h : Rule.attempt m r = .ok e) :
    e.value ≠ none := by
  obtain ⟨inner, -, rfl⟩ := exists_of_map_eq_ok h
  nofun

theorem Meets.andThen {g : α → (rest : List Token) → rest.length ≤ n → Attempt β rest.length}
    (hm : m.Meets ts limit s)
    (hf : ∀ a us (hle : us.tail.length ≤ n), us.length ≤ ts.length →
      (f a).Meets us limit (g a us.tail hle)) :
    (m >>= f).Meets ts limit (s.andThen g) := by
  intro r hr
  obtain ⟨us, ⟨v, mid, calls⟩, he, hmeets⟩ := hm r hr
  obtain ⟨value, rest, report, hle⟩ := s
  obtain rfl : us.tail = rest := hmeets.rest
  obtain rfl : v = value.toOption := hmeets.value
  cases value with
  | error d =>
    exact ⟨us, _, bind_of_none he, hmeets.holds, hmeets.suffix, rfl, rfl, hmeets.errors, hmeets.calls⟩
  | ok a =>
    obtain ⟨vs, e, he', hmeets'⟩ := hf a us hle hmeets.suffix.length_le mid hmeets.holds
    refine ⟨vs, _, bind_of_some he he', hmeets'.holds, hmeets'.suffix.trans hmeets.suffix,
      hmeets'.rest, hmeets'.value, ?_, ?_⟩
    · have herrors : mid.errors = r.errors ++ report.diagnostics.map (·.error) := by
        simpa [problems, own] using hmeets.errors
      change e.reader.errors = r.errors ++ List.map _ _
      rw [hmeets'.errors, herrors]
      simp [problems, own, Attempt.andThen]
    · exact List.forall_mem_append.mpr ⟨hmeets.calls, hmeets'.calls⟩

/-- What a rule does first shows in nothing but the place where it leads. -/
theorem Meets.after {a : α}
    (hm : ∀ r, r.Holds ts → ∃ mid, m r = .ok ⟨some a, mid, []⟩ ∧ mid.Holds us ∧
      mid.errors = r.errors) (hs : us <:+ ts) (hf : (f a).Meets us limit s') :
    (m >>= f).Meets ts limit s' := by
  intro r hr
  obtain ⟨mid, hmid, hus, herrors⟩ := hm r hr
  obtain ⟨vs, e, he, hmeets⟩ := hf mid hus
  refine ⟨vs, _, bind_of_some hmid he, hmeets.holds, hmeets.suffix.trans hs, hmeets.rest,
    hmeets.value, ?_, hmeets.calls⟩
  rw [← herrors]
  exact hmeets.errors

theorem meets_currentKind {f : Kind → Rule β} (h : (f (Kind.ahead ts)).Meets ts limit s') :
    (currentKind >>= f).Meets ts limit s' := by
  intro r hr
  rw [bind_currentKind, hr.current, Kind.ofToken?_head?]
  exact h r hr

theorem meets_nextKind {f : Kind → Rule β} (h : (f (Kind.ahead ts.tail)).Meets ts limit s') :
    (nextKind >>= f).Meets ts limit s' := by
  intro r hr
  rw [bind_nextKind hr]
  exact h r hr

theorem meets_lexeme {t : Token} {f : String → Rule β} (h : (f t.lexeme).Meets (t :: ts) limit s') :
    (lexeme >>= f).Meets (t :: ts) limit s' := by
  refine Meets.after ?_ (List.suffix_refl _) h
  intro r hr
  exact ⟨r, by rw [lexeme, hr.current]; rfl, hr, rfl⟩

theorem meets_advance {f : Unit → Rule β} (h : (f ()).Meets ts.tail limit s') :
    (advance >>= f).Meets ts limit s' := by
  refine Meets.after ?_ (List.tail_suffix ts) h
  intro r hr
  exact ⟨r.advance, rfl, hr.advance, rfl⟩

theorem meets_pure {a : α} : (pure a : Rule α).Meets ts limit (done a ts.tail) := by
  intro r hr
  refine ⟨ts, _, rfl, hr, List.suffix_refl ts, rfl, rfl, ?_, nofun⟩
  simp [problems, own]

theorem meets_of_pure {a : α} (h : (f a).Meets ts limit s') :
    (pure a >>= f).Meets ts limit s' := by
  refine Meets.after ?_ (List.suffix_refl ts) h
  intro r hr
  exact ⟨r, rfl, hr, rfl⟩

theorem meets_fail {e : SyntaxError} {k : Nat} :
    (Rule.fail e : Rule α).Meets ts limit (Attempt.fail e k ts.tail) := by
  intro r hr
  exact ⟨ts, _, rfl, hr.record e, List.suffix_refl ts, rfl, rfl, rfl, nofun⟩

theorem Meets.congr {k : Nat} {s' : Attempt α k} (h : m.Meets ts limit s)
    (hv : s'.value = s.value) (hr : s'.rest = s.rest)
    (hp : s'.report.diagnostics = s.report.diagnostics) : m.Meets ts limit s' := by
  intro r hholds
  obtain ⟨us, e, he, hmeets⟩ := h r hholds
  refine ⟨us, e, he, hmeets.holds, hmeets.suffix, hmeets.rest.trans hr.symm, ?_, ?_, hmeets.calls⟩
  · rw [hv]
    exact hmeets.value
  · rw [problems, own, hv, hp]
    exact hmeets.errors

theorem Meets.weaken {k : Nat} {hle : n ≤ k} (h : m.Meets ts limit s) :
    m.Meets ts limit (Step.weaken s hle) :=
  h.congr rfl rfl rfl

/-- A step that reads something for sure, and another one behind it. -/
theorem Meets.behind {a : α} {rest : List Token} {m : Rule β} {hle : rest.length ≤ n}
    {g : α → (rest : List Token) → rest.length ≤ n → Attempt β rest.length}
    (h : m.Meets ts limit (g a rest hle)) :
    m.Meets ts limit (Attempt.andThen (Step.weaken (done a rest) hle) g) :=
  h.congr rfl rfl (List.nil_append _)

theorem Meets.map {g : α → β} (hm : m.Meets ts limit s) :
    (m >>= fun a => pure (g a)).Meets ts limit (s.map g) := by
  rw [map_eq_andThen]
  exact hm.andThen fun a us hle hus => meets_pure

theorem kind_eq_symbol_iff {t : Token} {s : Symbol} : t.kind = .symbol s ↔ t = .symbol s := by
  cases t <;> simp [Token.kind]

theorem consume_eq {r : Reader} (hr : r.Holds ts) (k : Kind) :
    consume k r = if Kind.ahead ts.tail = k then .ok ⟨some (), r.advance, []⟩
      else .ok ⟨none, r.record (.expected k (Kind.ahead ts.tail)), []⟩ := by
  rw [consume, bind_nextKind hr]
  split <;> rfl

theorem skipSemicolon_eq {r : Reader} (hr : r.Holds ts) :
    skipSemicolon r = if Kind.ahead ts.tail = .symbol .semicolon then .ok ⟨some (), r.advance, []⟩
      else .ok ⟨some (), r, []⟩ := by
  rw [skipSemicolon, bind_nextKind hr]
  split <;> rfl

theorem meets_consumed {k : Kind} {f : Unit → Rule β} (hk : Kind.ahead ts.tail = k)
    (h : (f ()).Meets ts.tail limit s') : (consume k >>= f).Meets ts limit s' := by
  refine Meets.after ?_ (List.tail_suffix ts) h
  intro r hr
  exact ⟨r.advance, by rw [consume_eq hr, if_pos hk], hr.advance, rfl⟩

theorem meets_not_consumed {k : Kind} {f : Unit → Rule β} {place : Nat}
    (hk : Kind.ahead ts.tail ≠ k) : (consume k >>= f).Meets ts limit
      (Attempt.fail (.expected k (Kind.ahead ts.tail)) place ts.tail : Attempt β _) := by
  intro r hr
  have he := consume_eq hr k
  rw [if_neg hk] at he
  exact ⟨ts, _, bind_of_none he, hr.record _, List.suffix_refl ts, rfl, rfl, rfl, nofun⟩

/-- A rule that consumes a symbol is in front of fewer tokens from there on. -/
theorem meets_consume {x : Symbol} {f : Unit → Rule β}
    {g : Unit → (rest : List Token) → rest.length ≤ ts.tail.length → Attempt β rest.length}
    (hf : ∀ rest hle, rest.length + 1 < ts.length →
      (f ()).Meets (.symbol x :: rest) limit (g () rest hle)) :
    (consume (.symbol x) >>= f).Meets ts limit ((Grammar.expect x ts.tail).andThen g) := by
  match ts with
  | [] => exact meets_not_consumed nofun
  | [_] => exact meets_not_consumed nofun
  | _ :: t :: rest =>
    simp only [List.tail_cons, Grammar.expect]
    split
    · rename_i ht
      subst ht
      exact meets_consumed rfl (Meets.behind (hf rest (by simp) (by simp)))
    · rename_i ht
      exact meets_not_consumed (mt kind_eq_symbol_iff.mp ht)

theorem meets_consumeName {f : String → Rule β}
    {g : String → (rest : List Token) → rest.length ≤ ts.tail.length → Attempt β rest.length}
    (hf : ∀ x rest hle, rest.length + 1 < ts.length →
      (f x).Meets (.name x :: rest) limit (g x rest hle)) :
    (do consume .name; let x ← lexeme; f x).Meets ts limit
      ((Grammar.expectName ts.tail).andThen g) := by
  match ts with
  | [] => exact meets_not_consumed nofun
  | [_] => exact meets_not_consumed nofun
  | _ :: .name x :: rest =>
    have h := hf x rest (by simp) (by simp)
    exact meets_consumed rfl (meets_lexeme (Meets.behind h))
  | _ :: .symbol _ :: _ | _ :: .keyword _ :: _ | _ :: .int _ :: _ | _ :: .illegal _ :: _ =>
    exact meets_not_consumed nofun

theorem meets_skipSemicolon {a : α} :
    (skipSemicolon >>= fun _ => pure a).Meets ts limit
      (skipping (.symbol .semicolon) (done a ts.tail)) := by
  have hstay (h : Kind.ahead ts.tail ≠ .symbol .semicolon) :
      (skipSemicolon >>= fun _ => pure a).Meets ts limit (done a ts.tail) := by
    refine Meets.after (a := ()) ?_ (List.suffix_refl ts) meets_pure
    intro r hr
    exact ⟨r, by rw [skipSemicolon_eq hr, if_neg h], hr, rfl⟩
  match ts with
  | [] => exact hstay nofun
  | [_] => exact hstay nofun
  | _ :: t :: rest =>
    by_cases ht : t = .symbol .semicolon
    · subst ht
      refine Meets.after (a := ()) ?_ (List.tail_suffix _) (meets_pure.congr rfl rfl rfl)
      intro r hr
      exact ⟨r.advance, (skipSemicolon_eq hr).trans (if_pos rfl), hr.advance, rfl⟩
    · exact (hstay (mt kind_eq_symbol_iff.mp ht)).congr (by simp [done, Attempt.skipping, ht])
        (by simp [done, Attempt.skipping, ht]) (by simp [done, Attempt.skipping, ht])

theorem Meets.skipping {g : α → β} (hm : m.Meets ts limit s) :
    (do let a ← m; skipSemicolon; return g a).Meets ts limit
      (Attempt.skipping (.symbol .semicolon) (s.map g)) := by
  rw [map_eq_andThen, skipping_andThen]
  exact hm.andThen fun a us hle hus => meets_skipSemicolon

/-- A rule that goes on whatever becomes of another one puts the errors of both together. -/
theorem Meets.attempt {k l : Nat} {f : Option α → Rule β} {s' : Attempt β k} {t : Attempt β l}
    (hm : m.Meets ts limit s)
    (hf : ∀ us, us.tail = s.rest → (f s.value.toOption).Meets us limit s')
    (hv : t.value = s'.value) (hr : t.rest = s'.rest)
    (hp : t.report.diagnostics = s.report.diagnostics ++ s.own ++ s'.report.diagnostics) :
    (Rule.attempt m >>= f).Meets ts limit t := by
  intro r hholds
  obtain ⟨us, e, he, hmeets⟩ := hm r hholds
  obtain ⟨vs, e', he', hmeets'⟩ := hf us hmeets.rest e.reader hmeets.holds
  have hattempt : Rule.attempt m r = .ok ⟨some s.value.toOption, e.reader, e.calls⟩ := by
    rw [Rule.attempt, he, ← hmeets.value]
    rfl
  refine ⟨vs, _, bind_of_some hattempt he', hmeets'.holds, hmeets'.suffix.trans hmeets.suffix,
    hmeets'.rest.trans hr.symm, ?_, ?_, ?_⟩
  · rw [hv]
    exact hmeets'.value
  · change e'.reader.errors = _
    rw [hmeets'.errors, hmeets.errors]
    simp [problems, own, hv, hp]
  · exact List.forall_mem_append.mpr ⟨hmeets.calls, hmeets'.calls⟩

theorem Meets.within {rule : RuleName} (hm : m.Meets ts (rule.weight ts) s) :
    (within rule m).MeetsAs rule ts s := by
  intro r hr
  obtain ⟨us, e, he, hmeets⟩ := hm r hr
  refine ⟨us, { e with calls := [⟨rule, r.unread, e.reader.unread, e.calls⟩] }, ?_, hmeets.holds,
    hmeets.suffix, hmeets.rest, hmeets.value, hmeets.errors, ?_⟩
  · rw [Rule.within, he]
    rfl
  · intro c hc
    obtain rfl := List.mem_singleton.mp hc
    rw [hr.unread, hmeets.holds.unread]
    refine ⟨Nat.lt_succ_self _, .intro hmeets.suffix ?_ ?_⟩
    · exact fun d hd => (hmeets.calls d hd).1
    · exact fun d hd => (hmeets.calls d hd).2

end Rule
end MonkeyLang
