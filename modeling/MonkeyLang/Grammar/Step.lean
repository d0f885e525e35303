import MonkeyLang.Grammar.Diagnostic

/-! One step of a reader over the tokens that are left. A step never gives tokens back: what it
leaves is no longer than its bound. -/
namespace MonkeyLang

/-- The result of a step, the tokens after it, and what happened inside it. -/
structure Step (α : Type) (bound : Nat) where
  value : α
  rest : List Token
  report : Report
  rest_le : rest.length ≤ bound

/-- A step that may abandon the statement it belongs to. -/
abbrev Attempt (α : Type) (bound : Nat) := Step (Except Diagnostic α) bound

namespace Step
variable {α β : Type} {m n : Nat}

def weaken (s : Step α m) (h : m ≤ n) : Step α n := { s with rest_le := Nat.le_trans s.rest_le h }

/-- Puts an earlier report in front. -/
def after (s : Step α n) (earlier : Report) : Step α n := { s with report := earlier ++ s.report }

def map (f : α → β) (s : Step α n) : Step β n := { s with value := f s.value }

/-- A step without failure, as an attempt. -/
def kept (s : Step α n) : Attempt α n := s.map .ok

@[simp] theorem value_weaken (s : Step α m) (h : m ≤ n) : (s.weaken h).value = s.value := rfl
@[simp] theorem rest_weaken (s : Step α m) (h : m ≤ n) : (s.weaken h).rest = s.rest := rfl
@[simp] theorem report_weaken (s : Step α m) (h : m ≤ n) : (s.weaken h).report = s.report := rfl

@[simp] theorem value_after (s : Step α n) (r : Report) : (s.after r).value = s.value := rfl
@[simp] theorem rest_after (s : Step α n) (r : Report) : (s.after r).rest = s.rest := rfl
@[simp] theorem report_after (s : Step α n) (r : Report) : (s.after r).report = r ++ s.report := rfl

@[simp] theorem value_map (f : α → β) (s : Step α n) : (s.map f).value = f s.value := rfl
@[simp] theorem rest_map (f : α → β) (s : Step α n) : (s.map f).rest = s.rest := rfl
@[simp] theorem report_map (f : α → β) (s : Step α n) : (s.map f).report = s.report := rfl

end Step

namespace Attempt
variable {α β : Type} {n : Nat}

/-- Succeeds without reading. -/
def done (a : α) (ts : List Token) : Attempt α ts.length := ⟨.ok a, ts, .empty, Nat.le_refl _⟩

/-- Fails in front of `ts`, blaming the place with `unread` tokens left. -/
def fail (e : SyntaxError) (unread : Nat) (ts : List Token) : Attempt α ts.length :=
  ⟨.error ⟨e, unread⟩, ts, .empty, Nat.le_refl _⟩

/-- Goes on from where a successful step stopped. -/
def andThen (s : Attempt α n)
    (f : α → (rest : List Token) → rest.length ≤ n → Attempt β rest.length) : Attempt β n :=
  match s with
  | ⟨.ok a, rest, report, h⟩ => ((f a rest h).after report).weaken h
  | ⟨.error d, rest, report, h⟩ => ⟨.error d, rest, report, h⟩

def map (f : α → β) (s : Attempt α n) : Attempt β n := Step.map (Except.map f) s

/-- Skips one optional token after a success. -/
def skipping (t : Token) (s : Attempt α n) : Attempt α n :=
  match s with
  | ⟨.ok a, u :: rest, report, h⟩ =>
    if u = t then ⟨.ok a, rest, report, by simp at h; omega⟩ else ⟨.ok a, u :: rest, report, h⟩
  | s => s

@[simp] theorem value_done (a : α) (ts : List Token) : (done a ts).value = .ok a := rfl
@[simp] theorem rest_done (a : α) (ts : List Token) : (done a ts).rest = ts := rfl
@[simp] theorem report_done (a : α) (ts : List Token) : (done a ts).report = .empty := rfl

end Attempt
end MonkeyLang
