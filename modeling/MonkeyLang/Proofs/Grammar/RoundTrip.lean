import MonkeyLang.Proofs.Grammar.Reread

/-! Reading undoes writing, as long as there are no negative integers: then no text starts with a
sign, and nothing is reread as something else. -/
namespace MonkeyLang
open Grammar

theorem Expr.reread_eq_self {e : Expr} (h : e.signed = false ∧ e.unsigned = e) : e.reread = e := by
  rw [Expr.reread_of_not_signed h.1, h.2]

mutual
theorem Expr.unsigned_of_nonneg : (e : Expr) → e.Writable (0 ≤ ·) →
    e.signed = false ∧ e.unsigned = e
  | .name _, _ => ⟨rfl, rfl⟩
  | .int n, h => by
    have hn : ¬ n < 0 := Int64.not_lt.mpr h
    exact ⟨decide_eq_false hn, by rw [Expr.unsigned, if_neg hn]⟩
  | .bool _, _ => ⟨rfl, rfl⟩
  | .unary op e, h => ⟨rfl, congrArg (Expr.unary op) (Expr.reread_eq_self (e.unsigned_of_nonneg h))⟩
  | .binary l op r, h => by
    have hl := Expr.reread_eq_self (l.unsigned_of_nonneg h.1)
    have hr := Expr.reread_eq_self (r.unsigned_of_nonneg h.2)
    exact ⟨rfl, congrArg₂ (Expr.binary · op ·) hl hr⟩
  | .ifThen c body, h => by
    have hc := Expr.reread_eq_self (c.unsigned_of_nonneg h.1)
    exact ⟨rfl, congrArg₂ Expr.ifThen hc (Stmt.rereadEach_of_nonneg body h.2)⟩
  | .ifElse c body other, h => by
    have hc := Expr.reread_eq_self (c.unsigned_of_nonneg h.1)
    have hb := Stmt.rereadEach_of_nonneg body h.2.1
    have ho := Stmt.rereadEach_of_nonneg other h.2.2
    exact ⟨rfl, congr (congrArg₂ Expr.ifElse hc hb) ho⟩
  | .function xs body, h => ⟨rfl, congrArg (Expr.function xs) (Stmt.rereadEach_of_nonneg body h.2)⟩
  | .call f as, h => by
    obtain ⟨hs, hf⟩ := f.unsigned_of_nonneg h.1
    exact ⟨hs, congrArg₂ Expr.call hf (Expr.rereadEach_of_nonneg as h.2)⟩

theorem Stmt.reread_of_nonneg : (s : Stmt) → s.Writable (0 ≤ ·) → s.reread = s
  | .define x e, h => congrArg (Stmt.define x) (Expr.reread_eq_self (e.unsigned_of_nonneg h.2))
  | .ret e, h => congrArg Stmt.ret (Expr.reread_eq_self (e.unsigned_of_nonneg h))
  | .retBare, _ => rfl
  | .expr e, h => congrArg Stmt.expr (Expr.reread_eq_self (e.unsigned_of_nonneg h))

theorem Expr.rereadEach_of_nonneg : (es : List Expr) → Expr.WritableEach (0 ≤ ·) es →
    Expr.rereadEach es = es
  | [], _ => rfl
  | e :: es, h => congrArg₂ List.cons (Expr.reread_eq_self (e.unsigned_of_nonneg h.1))
      (Expr.rereadEach_of_nonneg es h.2)

theorem Stmt.rereadEach_of_nonneg : (ss : List Stmt) → Stmt.WritableEach (0 ≤ ·) ss →
    Stmt.rereadEach ss = ss
  | [], _ => rfl
  | s :: ss, h => congrArg₂ List.cons (s.reread_of_nonneg h.1) (Stmt.rereadEach_of_nonneg ss h.2)
end

theorem Decimal.ne_minValue_of_nonneg {n : Int64} (h : 0 ≤ n) : n ≠ Int64.minValue := by
  rintro rfl
  revert h
  decide

theorem Program.spells_render {p : Program} (h : p.Writable (0 ≤ ·)) :
    Spells (.statements p) (Token.scan p.render) := by
  have hs := Program.spells_reread (fun _ => Decimal.ne_minValue_of_nonneg) h
  rwa [Program.reread, Stmt.rereadEach_of_nonneg p (Stmt.writableEach_iff.mpr h)] at hs

/-- A program without negative integers is read back from its text. -/
theorem Program.ofText?_render {p : Program} (h : p.Writable (0 ≤ ·)) :
    Program.ofText? p.render = .ok p :=
  (Program.spells_render h).ofText?

/-- A program with each kind of statement and expression. -/
def everyKind : Program :=
  [.define "f" (.function ["x", "y_"] [
      .expr (.ifElse (.binary (.name "x") .less (.unary .negate (.int 1))) [.retBare] []),
      .ret (.call (.call (.function [] []) []) [.binary (.bool false) .equal (.int 0)])]),
    .expr (.call (.ifThen (.bool true) [.retBare, .expr (.name "z")])
      [.int 9223372036854775807, .unary .not (.unary .not (.name "y_"))]),
    .retBare]

theorem Program.ofText?_render_everyKind :
    everyKind.Writable (0 ≤ ·) ∧ Program.ofText? everyKind.render = .ok everyKind := by
  have h : everyKind.Writable (0 ≤ ·) := by
    simp [Program.Writable, everyKind, Stmt.Writable, Expr.Writable]
    decide
  exact ⟨h, Program.ofText?_render h⟩

end MonkeyLang
