import MonkeyLang.Proofs.Syntax.Tokens

/-! The text of a program has only printable characters, so that it fits on a line. -/
namespace MonkeyLang

/-- From the space to the tilde. -/
def IsPrintable (c : Char) : Prop := 32 ≤ c.toNat ∧ c.toNat ≤ 126

instance (c : Char) : Decidable (IsPrintable c) := inferInstanceAs (Decidable (_ ∧ _))

/-- Every character of a text is printable. -/
def Printed (s : String) : Prop := ∀ c ∈ s.toList, IsPrintable c

instance (s : String) : Decidable (Printed s) :=
  decidable_of_iff (s.toList.all (fun c => decide (IsPrintable c)) = true) (by simp [Printed])

@[simp] theorem printed_append {s t : String} : Printed (s ++ t) ↔ Printed s ∧ Printed t := by
  simp [Printed, or_imp, forall_and]

theorem printed_intercalate {sep : String} {ss : List String} (hsep : Printed sep)
    (h : ∀ s ∈ ss, Printed s) : Printed (sep.intercalate ss) := by
  induction ss with
  | nil => exact nofun
  | cons s ss ih =>
    obtain ⟨hs, hss⟩ := List.forall_mem_cons.mp h
    cases ss with
    | nil => simpa using hs
    | cons t ss =>
      rw [String.intercalate_cons_cons, printed_append, printed_append]
      exact ⟨⟨hs, hsep⟩, ih hss⟩

theorem isPrintable_of_isLetter {c : Char} (h : isLetter c = true) : IsPrintable c := by
  unfold IsPrintable
  obtain h | h | rfl := isLetter_iff_toNat.mp h
  · omega
  · omega
  · decide

theorem isPrintable_of_isDigit {c : Char} (h : c.isDigit = true) : IsPrintable c := by
  rw [Char.isDigit_iff_toNat] at h
  change 48 ≤ c.toNat ∧ c.toNat ≤ 57 at h
  unfold IsPrintable
  omega

theorem IsName.printed {x : String} (h : IsName x) : Printed x :=
  fun c hc => isPrintable_of_isLetter (h.2.1 c hc)

theorem Symbol.printed_text (s : Symbol) : Printed s.text := by
  cases s <;> decide

theorem Decimal.printed_repr (m : Nat) : Printed m.repr :=
  fun c hc => isPrintable_of_isDigit ((Decimal.isNumeral_repr m).2 c hc)

theorem Decimal.printed_write (n : Int64) : Printed (Decimal.write n) := by
  unfold Decimal.write
  split
  · exact Decimal.printed_repr _
  · exact printed_append.mpr ⟨by decide, Decimal.printed_repr _⟩

theorem printed_braced {ss : List Stmt} (h : ∀ s ∈ Stmt.renderEach ss, Printed s) :
    Printed (braced ss ("; ".intercalate (Stmt.renderEach ss))) := by
  have hinner := printed_intercalate (by decide : Printed "; ") h
  cases ss with
  | nil =>
    rw [braced]
    decide
  | cons s ss =>
    simp only [braced, printed_append, hinner]
    decide

mutual
theorem Expr.printed_render {literal : Int64 → Prop} : (e : Expr) → e.Writable literal →
    Printed e.render
  | .name _, h => h.printed
  | .int n, _ => Decimal.printed_write n
  | .bool b, _ => by cases b <;> decide
  | .unary op e, h => by
    have he := e.printed_render h
    simp only [Expr.render, printed_append, op.symbol.printed_text, he]
    decide
  | .binary l op r, h => by
    have hl := l.printed_render h.1
    have hr := r.printed_render h.2
    simp only [Expr.render, printed_append, hl, op.symbol.printed_text, hr]
    decide
  | .ifThen c body, h => by
    have hc := c.printed_render h.1
    have hbody := printed_braced (Stmt.printed_each body h.2)
    simp only [Expr.render, printed_append, hc, hbody]
    decide
  | .ifElse c body other, h => by
    have hc := c.printed_render h.1
    have hbody := printed_braced (Stmt.printed_each body h.2.1)
    have hother := printed_braced (Stmt.printed_each other h.2.2)
    simp only [Expr.render, printed_append, hc, hbody, hother]
    decide
  | .function xs body, h => by
    have hxs : Printed (", ".intercalate xs) :=
      printed_intercalate (by decide) fun x hx => (h.1 x hx).printed
    have hbody := printed_braced (Stmt.printed_each body h.2)
    simp only [Expr.render, printed_append, hxs, hbody]
    decide
  | .call f as, h => by
    have hf := f.printed_render h.1
    have has : Printed (", ".intercalate (Expr.renderEach as)) :=
      printed_intercalate (by decide) (Expr.printed_each as h.2)
    simp only [Expr.render, printed_append, hf, has]
    decide

theorem Stmt.printed_render {literal : Int64 → Prop} : (s : Stmt) → s.Writable literal →
    Printed s.render
  | .define x e, h => by
    have he := e.printed_render h.2
    simp only [Stmt.render, printed_append, h.1.printed, he]
    decide
  | .ret e, h => by
    have he := e.printed_render h
    simp only [Stmt.render, printed_append, he]
    decide
  | .retBare, _ => by decide
  | .expr e, h => e.printed_render h

theorem Expr.printed_each {literal : Int64 → Prop} : (es : List Expr) →
    Expr.WritableEach literal es → ∀ s ∈ Expr.renderEach es, Printed s
  | [], _ => nofun
  | e :: es, h => List.forall_mem_cons.mpr ⟨e.printed_render h.1, Expr.printed_each es h.2⟩

theorem Stmt.printed_each {literal : Int64 → Prop} : (ss : List Stmt) →
    Stmt.WritableEach literal ss → ∀ s ∈ Stmt.renderEach ss, Printed s
  | [], _ => nofun
  | s :: ss, h => List.forall_mem_cons.mpr ⟨s.printed_render h.1, Stmt.printed_each ss h.2⟩
end

theorem Program.printed_render {literal : Int64 → Prop} {p : Program} (h : p.Writable literal) :
    Printed p.render :=
  printed_intercalate (by decide) (Stmt.printed_each p (Stmt.writableEach_iff.mpr h))

end MonkeyLang
