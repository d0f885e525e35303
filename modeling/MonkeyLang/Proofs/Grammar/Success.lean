import MonkeyLang.Grammar.Reader

/-! Steps that succeed without a diagnostic. Each combinator succeeds exactly when its parts do,
one behind the other. -/
namespace MonkeyLang

/-- A step has this value, leaves these tokens and reports no diagnostic. -/
def Step.Yields {α : Type} {n : Nat} (s : Step α n) (a : α) (rest : List Token) : Prop :=
  s.value = a ∧ s.rest = rest ∧ s.report.diagnostics = []

/-- What follows an optional token. -/
def Token.skip (t : Token) : List Token → List Token
  | [] => []
  | u :: ts => if u = t then ts else u :: ts

theorem Token.length_skip_le (t : Token) (ts : List Token) : (t.skip ts).length ≤ ts.length := by
  cases ts with
  | nil => exact Nat.le_refl _
  | cons u ts =>
    by_cases hu : u = t
    · simp [skip, hu]
    · simp [skip, hu]

theorem Token.skip_of_head?_ne {t : Token} {ts : List Token} (h : ts.head? ≠ some t) :
    t.skip ts = ts := by
  cases ts with
  | nil => rfl
  | cons u ts => exact if_neg (by simpa using h)

namespace Step
variable {α β : Type} {m n : Nat} {s : Step α n} {a : α} {rest : List Token}

@[simp] theorem yields_weaken {h : n ≤ m} : (s.weaken h).Yields a rest ↔ s.Yields a rest :=
  Iff.rfl

@[simp] theorem yields_after {r : Report} :
    (s.after r).Yields a rest ↔ r.diagnostics = [] ∧ s.Yields a rest := by
  simp only [Yields, value_after, rest_after, report_after, Report.diagnostics_append,
    List.append_eq_nil_iff, and_left_comm]

@[simp] theorem yields_map {f : α → β} {b : β} :
    (s.map f).Yields b rest ↔ ∃ a, s.Yields a rest ∧ b = f a := by
  constructor
  · rintro ⟨rfl, hr, hd⟩
    exact ⟨s.value, ⟨rfl, hr, hd⟩, rfl⟩
  · rintro ⟨a, ⟨rfl, hr, hd⟩, rfl⟩
    exact ⟨rfl, hr, hd⟩

@[simp] theorem yields_kept : s.kept.Yields (.ok a) rest ↔ s.Yields a rest := by
  simp [kept]

theorem Yields.rest_le (h : s.Yields a rest) : rest.length ≤ n := by
  obtain ⟨-, rfl, -⟩ := h
  exact s.rest_le

end Step

namespace Attempt
variable {α β : Type} {n : Nat} {s : Attempt α n} {a : α} {b : β} {ts rest : List Token}

@[simp] theorem yields_done {c : α} : (done a ts).Yields (.ok c) rest ↔ c = a ∧ rest = ts := by
  simp [Step.Yields, done, eq_comm]

@[simp] theorem not_yields_fail {e : SyntaxError} {k : Nat} :
    ¬ (fail e k ts : Attempt α ts.length).Yields (.ok a) rest := by
  simp [Step.Yields, fail]

@[simp] theorem yields_map {f : α → β} :
    (s.map f).Yields (.ok b) rest ↔ ∃ a, s.Yields (.ok a) rest ∧ b = f a := by
  rw [map, Step.yields_map]
  constructor
  · rintro ⟨_ | a, h, he⟩
    · cases he
    · exact ⟨a, h, Except.ok.inj he⟩
  · rintro ⟨a, h, rfl⟩
    exact ⟨.ok a, h, rfl⟩

theorem yields_andThen {f : α → (rest : List Token) → rest.length ≤ n → Attempt β rest.length} :
    (s.andThen f).Yields (.ok b) rest ↔
      ∃ a mid, ∃ h : mid.length ≤ n, s.Yields (.ok a) mid ∧ (f a mid h).Yields (.ok b) rest := by
  obtain ⟨_ | a, mid, report, h⟩ := s
  · simp [andThen, Step.Yields]
  · simp only [andThen, Step.yields_weaken, Step.yields_after]
    constructor
    · rintro ⟨hd, hf⟩
      exact ⟨a, mid, h, ⟨rfl, rfl, hd⟩, hf⟩
    · rintro ⟨_, _, _, ⟨⟨⟩, rfl, hd⟩, hf⟩
      exact ⟨hd, hf⟩

theorem Yields.andThen {f : α → (rest : List Token) → rest.length ≤ n → Attempt β rest.length}
    {mid : List Token} (hs : s.Yields (.ok a) mid) (hf : (f a mid hs.rest_le).Yields (.ok b) rest) :
    (s.andThen f).Yields (.ok b) rest :=
  yields_andThen.mpr ⟨a, mid, hs.rest_le, hs, hf⟩

theorem yields_skipping {t : Token} :
    (skipping t s).Yields (.ok a) rest ↔ ∃ mid, s.Yields (.ok a) mid ∧ rest = t.skip mid := by
  have hs : (skipping t s).value = s.value ∧ (skipping t s).report = s.report ∧
      (s.value = .ok a → (skipping t s).rest = t.skip s.rest) := by
    obtain ⟨_ | b, _ | ⟨u, mid⟩, report, h⟩ := s
    case ok.cons =>
      by_cases hu : u = t
      · simp [skipping, Token.skip, hu]
      · simp [skipping, Token.skip, hu]
    all_goals simp [skipping, Token.skip]
  obtain ⟨hv, hr, hm⟩ := hs
  constructor
  · rintro ⟨ha, rfl, hd⟩
    rw [hv] at ha
    exact ⟨s.rest, ⟨ha, rfl, hr ▸ hd⟩, hm ha⟩
  · rintro ⟨_, ⟨ha, rfl, hd⟩, rfl⟩
    exact ⟨hv.trans ha, hm ha, hr ▸ hd⟩

end Attempt
end MonkeyLang
