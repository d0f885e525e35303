import MonkeyLang.Proofs.Evaluation.Escape
import MonkeyLang.Proofs.Evaluation.Part

/-! Returned values in sessions of disciplined programs: they end blocks, and are never bound, passed
to a function or given by one. Without the discipline they can be all of that. -/
namespace MonkeyLang

theorem Session.Reached.plain {s : Session} (hs : s.Reached Program.Disciplined) :
    s.heap.All Value.Plain := by
  induction hs with
  | start => exact all_start _
  | next _ hp hr ih => exact (plain_of_run? ih hp hr).2

/-- However far a session of disciplined programs has got, no frame binds a returned value, no
function receives one or gives one to its caller, and no program has one as its value. -/
theorem Session.Reached.not_isReturned {s : Session} (hs : s.Reached Program.Disciplined)
    {p : Program} (hp : p.Disciplined) (depth : Nat) :
    (∀ r, Run.Within r (.ofProgram depth s p) →
      r.heap.All (·.isReturned = false) ∧
      (∀ heap, r.outcome.heap? = some heap → heap.All (·.isReturned = false)) ∧
      ∀ c args, r.activity = .call c args →
        (∀ v ∈ args, v.isReturned = false) ∧
        ∀ v heap, Closure.call r.depth c args r.heap = .done v heap → v.isReturned = false) ∧
    ∀ v t, s.run? depth p = some (v, t) → v.isReturned = false := by
  have henter := Invariant.enters_discipline
  have hstart : Invariant.discipline.Holds () (.ofProgram depth s p) :=
    .ofProgram depth ⟨hp, nofun⟩ trivial hs.plain
  constructor
  · intro r hr
    obtain ⟨w, -, hr⟩ := hstart.within henter hr
    refine ⟨hr.2.mono fun _ hv => hv.isReturned, ?_, ?_⟩
    · intro heap hheap
      obtain ⟨_, -, hh⟩ := (hr.outcome henter).of_heap? hheap
      exact hh.mono fun _ hv => hv.isReturned
    · intro c args hc
      obtain ⟨ha, hh⟩ := hr
      rw [hc] at ha
      obtain ⟨hc, hargs⟩ := ha
      refine ⟨fun v hv => ((hargs v hv).plain (.inl rfl)).isReturned, ?_⟩
      intro v heap hv
      obtain ⟨_, -, -, hv⟩ := (henter.calls r.depth hh hc hargs).of_done hv
      exact (hv.plain (.inl rfl)).isReturned
  · intro v t hv
    obtain ⟨hv | ⟨e, rfl⟩, -⟩ := plain_of_run? hs.plain hp hv
    · exact hv.isReturned
    · rfl

/-- The function of `defineClassify`. -/
def classifier : Closure := ⟨0, ["n"], classifyBody, 0⟩

/-- The heap after `defineClassify`. -/
def heapWithClassifier : Heap := ⟨#[⟨[("classify", .function classifier)], none⟩], 1⟩

theorem Session.Reached.not_isReturned_classify :
    Reached Program.Disciplined ⟨heapWithClassifier, 0⟩ ∧ callClassify.Disciplined ∧
    Run.Within ⟨1, .call classifier [.int 500], heapWithClassifier⟩
      (.ofProgram 1 ⟨heapWithClassifier, 0⟩ callClassify) ∧
    heapWithClassifier.All (·.isReturned = false) ∧
    Closure.call 1 classifier [.int 500] heapWithClassifier =
      .done (.int 2) (heapWithClassifier.push ⟨[("n", .int 500)], some 0⟩) ∧
    (heapWithClassifier.push ⟨[("n", .int 500)], some 0⟩).All (·.isReturned = false) ∧
    (Value.int 500).isReturned = false ∧ (Value.int 2).isReturned = false ∧
    run? 1 ⟨heapWithClassifier, 0⟩ callClassify =
      some (.int 2, ⟨heapWithClassifier.push ⟨[("n", .int 500)], some 0⟩, 0⟩) ∧
    (Value.int 2).isReturned = false := by
  have hdefine : run? 0 .start defineClassify = some (.null, ⟨heapWithClassifier, 0⟩) := by
    with_unfolding_all rfl
  have hs : Reached Program.Disciplined ⟨heapWithClassifier, 0⟩ :=
    .next .start disciplined_defineClassify hdefine
  have hr : Run.Within ⟨1, .call classifier [.int 500], heapWithClassifier⟩
      (.ofProgram 1 ⟨heapWithClassifier, 0⟩ callClassify) := by
    have hcall : Run.Part ⟨1, .call classifier [.int 500], heapWithClassifier⟩
        ⟨1, .expr 0 (.call (.name "classify") [.int 500]), heapWithClassifier⟩ :=
      .call (by with_unfolding_all rfl) rfl rfl
    exact .head hcall (.head .alone (.single .firstStmt))
  have hc : Closure.call 1 classifier [.int 500] heapWithClassifier =
      .done (.int 2) (heapWithClassifier.push ⟨[("n", .int 500)], some 0⟩) := by
    with_unfolding_all rfl
  have hp : run? 1 ⟨heapWithClassifier, 0⟩ callClassify =
      some (.int 2, ⟨heapWithClassifier.push ⟨[("n", .int 500)], some 0⟩, 0⟩) := by
    with_unfolding_all rfl
  obtain ⟨hparts, hvalue⟩ := hs.not_isReturned disciplined_callClassify 1
  obtain ⟨hheap, hend, hargs⟩ := hparts _ hr
  obtain ⟨hin, hout⟩ := hargs _ _ rfl
  refine ⟨hs, disciplined_callClassify, hr, hheap, hc, hend _ ?_, hin _ List.mem_cons_self,
    hout _ _ hc, hp, hvalue _ _ hp⟩
  simp only [Run.outcome, hc]
  rfl

/-- Where a `return` stands in an operand, its returned value is one like any other: a program and
a function can have it as their value, a `let` can bind it, and a function can receive it. -/
theorem Session.isReturned_of_nested :
    run? 0 .start [.ret (.ifThen (.bool true) [.ret (.int 1)])] =
      some (.returned (.int 1), .start) ∧
    Closure.call 1 ⟨0, [], [.ret (.ifThen (.bool true) [.ret (.int 1)])], 0⟩ [] start.heap =
      .done (.returned (.int 1)) (start.heap.push (.empty (some 0))) ∧
    run? 0 .start [.define "x" (.ifThen (.bool true) [.ret (.int 1)])] =
      some (.null, ⟨⟨#[⟨[("x", .returned (.int 1))], none⟩], 0⟩, 0⟩) ∧
    Run.Within ⟨1, .call ⟨0, ["x"], [], 0⟩ [.returned (.int 1)], ⟨start.heap.frames, 1⟩⟩
      (.ofProgram 1 .start
        [.expr (.call (.function ["x"] []) [.ifThen (.bool true) [.ret (.int 1)]])]) := by
  refine ⟨rfl, rfl, rfl, ?_⟩
  exact .head (.call rfl rfl rfl) (.head .alone (.single .firstStmt))

end MonkeyLang
