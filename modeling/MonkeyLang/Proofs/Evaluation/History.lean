import MonkeyLang.Proofs.Evaluation.Invariant
import MonkeyLang.Proofs.Scope.History

/-! Evaluation only adds to the history of a heap, and gives values that the history knows. -/
namespace MonkeyLang

/-- The heap has a history, and the history knows every function that there is. -/
def Invariant.history : Invariant History where
  heap w h := h.Follows w
  inside w id := id < w.size
  value _ w v := v.Recorded w
  admits _ _ := True
  part _ _ := trivial
  inside_mono hw hid := hid.trans_le (History.size_le hw)
  value_mono hw hv := hv.mono hw
  weaken hv := hv
  arrive hv := hv.arrive
  null := nofun
  scalar hv := hv.recorded
  get? hw hv := hw.bound.get? hv
  set _ hw _ hv := hw.set _ _ hv
  newClosure {_ w _ _ xs body} _ hw hid :=
    ⟨_, w.le_addClosure hid xs body, hw.newClosure hid xs body⟩
  ret _ hv := hv.returned
  retBare _ := nofun

theorem Invariant.enters_history : history.Enters := by
  intro w h c args hw hc ha
  obtain ⟨w', hle, hid, hw'⟩ := hw.enter (hc c rfl) ha
  exact ⟨trivial, w', hle, hid, hw'⟩

/-- Running a program adds to the history. -/
theorem Session.continues_run? {depth : Nat} {s t : Session} {p : Program} {v : Value} {w : History}
    (hw : s.heap.Follows w) (hs : s.scope < s.heap.frames.size) (h : s.run? depth p = some (v, t)) :
    ∃ w', w ≤ w' ∧ t.heap.Follows w' ∧ v.Recorded w' := by
  rw [← hw.size] at hs
  have hcall := Invariant.enters_history.calls depth
  obtain ⟨-, w', hle, hw', hv⟩ := Invariant.history.run? hcall trivial hs hw h
  refine ⟨w', hle, hw', ?_⟩
  obtain hv | ⟨e, rfl, -⟩ := hv
  · exact hv
  · exact nofun

end MonkeyLang
