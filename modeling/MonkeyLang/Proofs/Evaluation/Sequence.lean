import MonkeyLang.Proofs.Evaluation.Escape

/-! Programs one after another in a session, and the same programs as a single one. The single one
ends where an error or a returned value ends one of them. -/
namespace MonkeyLang

/-- Statements in two parts. A returned value in the first part stops the second one. -/
theorem Stmt.execEach_append {call : Call} {scope : FrameId} {last : Value}
    (hlast : last.isReturned = false) (ss us : List Stmt) (heap : Heap) :
    execEach call scope (ss ++ us) last heap =
      (execEach call scope ss last heap).andThen fun v heap =>
        if v.isReturned then .done v heap else execEach call scope us v heap := by
  induction ss generalizing last heap with
  | nil => rw [List.nil_append, execEach, Outcome.andThen_done, hlast, if_neg Bool.false_ne_true]
  | cons s ss ih =>
    rw [List.cons_append, execEach, execEach, Outcome.andThen_assoc]
    congr 1
    funext v heap
    by_cases hv : v.isReturned = true
    · simp only [hv, if_true, Outcome.andThen_done]
    · rw [if_neg hv, if_neg hv, ih (Bool.eq_false_iff.mpr hv)]

namespace Session

/-- A statement of the program, when it is reached, fails or gives a returned value. -/
inductive EndsEarly (depth : Nat) : Session → Program → Prop
  | failed {s st p e heap} : st.exec (Closure.call depth) s.scope s.heap = .failed e heap →
      EndsEarly depth s (st :: p)
  | returned {s st p v heap} : st.exec (Closure.call depth) s.scope s.heap = .done v heap →
      v.isReturned = true → EndsEarly depth s (st :: p)
  | later {s st p v heap} : st.exec (Closure.call depth) s.scope s.heap = .done v heap →
      v.isReturned = false → EndsEarly depth ⟨heap, s.scope⟩ p → EndsEarly depth s (st :: p)

variable {depth : Nat} {s t : Session} {p q : Program} {v : Value}

/-- Nothing that stands behind a program that ends early is reached. -/
theorem EndsEarly.execEach_append (h : s.EndsEarly depth p) (q : Program) (last : Value) :
    Stmt.execEach (Closure.call depth) s.scope (p ++ q) last s.heap =
      Stmt.execEach (Closure.call depth) s.scope p last s.heap := by
  induction h generalizing last with
  | failed he => simp only [List.cons_append, Stmt.execEach, he, Outcome.andThen_failed]
  | returned he hv =>
    simp only [List.cons_append, Stmt.execEach, he, Outcome.andThen_done, hv, if_true]
  | later he hv _ ih =>
    simp only [List.cons_append, Stmt.execEach, he, Outcome.andThen_done, hv]
    exact ih _

end Session
end MonkeyLang
