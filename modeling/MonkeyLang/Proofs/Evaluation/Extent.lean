import MonkeyLang.Proofs.Evaluation.Invariant
import MonkeyLang.Proofs.Evaluation.Register
import MonkeyLang.Proofs.Scope.Heap

/-! The extent of an evaluation: of the frames that were there before, it changes only the one it
runs in, and there only what its own `let` statements bind. -/
namespace MonkeyLang

mutual
/-- The names that `let` statements bind, those inside function literals apart. -/
def Expr.lets : Expr → List String
  | .name _ => []
  | .int _ => []
  | .bool _ => []
  | .unary _ e => e.lets
  | .binary l _ r => l.lets ++ r.lets
  | .ifThen c body => c.lets ++ Stmt.letsEach body
  | .ifElse c body other => c.lets ++ (Stmt.letsEach body ++ Stmt.letsEach other)
  | .function _ _ => []
  | .call f as => f.lets ++ Expr.letsEach as

def Stmt.lets : Stmt → List String
  | .define x e => x :: e.lets
  | .ret e => e.lets
  | .retBare => []
  | .expr e => e.lets

def Expr.letsEach : List Expr → List String
  | [] => []
  | e :: es => e.lets ++ Expr.letsEach es

def Stmt.letsEach : List Stmt → List String
  | [] => []
  | s :: ss => s.lets ++ Stmt.letsEach ss
end

/-- The names that `let` statements of a fragment bind. -/
def Fragment.lets : Fragment → List String
  | .expr e => e.lets
  | .exprs es => Expr.letsEach es
  | .stmt s => s.lets
  | .stmts ss => Stmt.letsEach ss

theorem Fragment.Part.lets_subset {leaving b : Bool} {φ ψ : Fragment} (h : ψ.Part leaving b φ) :
    ψ.lets ⊆ φ.lets := by
  cases h <;> simp [Fragment.lets, Expr.lets, Stmt.lets, Expr.letsEach, Stmt.letsEach]

/-- A frame after some of the names were bound in it, possibly anew. -/
structure Frame.Extended (names : List String) (f g : Frame) : Prop where
  outer : g.outer = f.outer
  other : ∀ x, x ∉ names → g.get? x = f.get? x
  bound : ∀ x, (f.get? x).isSome → (g.get? x).isSome

namespace Frame.Extended
variable {names : List String} {f g : Frame}

theorem refl (names : List String) (f : Frame) : Extended names f f :=
  ⟨rfl, fun _ _ => rfl, fun _ h => h⟩

theorem set {x : String} (h : Extended names f g) (hx : x ∈ names) (v : Value) :
    Extended names f (g.set x v) := by
  refine ⟨h.outer, ?_, ?_⟩
  · intro y hy
    rw [get?_set, if_neg (by rintro rfl; exact hy hx), h.other y hy]
  · intro y hy
    rw [get?_set]
    split
    · rfl
    · exact h.bound y hy

end Frame.Extended

namespace Heap

/-- Every frame is as it was, and others may have been added. -/
def Keeps (h k : Heap) : Prop :=
  ∀ (id : FrameId) f, h.frames[id]? = some f → k.frames[id]? = some f

/-- Every frame but one is as it was, others may have been added, and in the one frame some names
may have been bound. -/
structure Grows (scope : FrameId) (names : List String) (h k : Heap) : Prop where
  others : ∀ (id : FrameId) f, id ≠ scope → h.frames[id]? = some f → k.frames[id]? = some f
  own : ∀ f, h.frames[scope]? = some f →
    ∃ g, k.frames[scope]? = some g ∧ Frame.Extended names f g

namespace Grows
variable {scope : FrameId} {names : List String} {h k l : Heap}

theorem refl (scope : FrameId) (names : List String) (h : Heap) : h.Grows scope names h :=
  ⟨fun _ _ _ hf => hf, fun f hf => ⟨f, hf, .refl names f⟩⟩

theorem keeps (hk : h.Grows scope names k) (hl : k.Keeps l) : h.Grows scope names l := by
  refine ⟨fun id f hid hf => hl id f (hk.others id f hid hf), ?_⟩
  intro f hf
  obtain ⟨g, hg, hext⟩ := hk.own f hf
  exact ⟨g, hl scope g hg, hext⟩

theorem set {x : String} (hk : h.Grows scope names k) (hx : x ∈ names) (v : Value) :
    h.Grows scope names (k.set scope x v) := by
  constructor
  · intro id f hid hf
    rw [frames_set, if_neg (Ne.symm hid)]
    exact hk.others id f hid hf
  · intro f hf
    obtain ⟨g, hg, hext⟩ := hk.own f hf
    exact ⟨g.set x v, by rw [frames_set, if_pos rfl, hg]; rfl, hext.set hx v⟩

/-- What a new frame's own code does to it leaves every earlier frame as it was. -/
theorem keeps_of_push {f : Frame} (hk : (h.push f).Grows h.frames.size names k) : h.Keeps k := by
  intro id g hg
  have hid : id ≠ h.frames.size := Nat.ne_of_lt (lt_size_of_frames hg)
  exact hk.others id g hid (frames_push_of_some f hg)

end Grows
end Heap

/-- What evaluation in a frame may do, where `let` statements bind no other names than these. -/
def Invariant.extent (scope : FrameId) (names : List String) (start : Heap) : Invariant Unit where
  heap _ := start.Grows scope names
  inside _ id := id = scope
  value _ _ _ := True
  admits _ φ := φ.lets ⊆ names
  part hφ hp := List.Subset.trans hp.lets_subset hφ
  inside_mono _ hid := hid
  value_mono _ _ := trivial
  weaken _ := trivial
  arrive _ := trivial
  null := trivial
  scalar _ := trivial
  get? _ _ := trivial
  set hφ hh hid _ := hid ▸ hh.set (hφ List.mem_cons_self) _
  newClosure _ hh _ := ⟨(), le_rfl, hh.keeps fun _ _ hf => hf, trivial⟩
  ret _ _ := trivial
  retBare _ := trivial

/-- An outcome whose heap is `start` after evaluation in `scope`. -/
def Outcome.Grown {α : Type} (o : Outcome α) (scope : FrameId) (names : List String)
    (start : Heap) : Prop :=
  o.Ends (fun _ => start.Grows scope names) (start.Grows scope names)

/-- Calls leave every frame as it was. -/
def Call.Keeps (call : Call) : Prop :=
  ∀ c args heap, (call c args heap).Ends (fun _ => heap.Keeps) heap.Keeps

section Evaluation
variable {call : Call} {scope : FrameId}

theorem Call.Keeps.calls (hcall : call.Keeps) (scope : FrameId) (names : List String)
    (start : Heap) : (Invariant.extent scope names start).Calls call := by
  intro w h c args hh _ _
  refine (hcall c args h).mono ?_ ?_
  · exact fun _ _ hk => ⟨w, le_rfl, hh.keeps hk, trivial⟩
  · exact fun _ hk => ⟨w, le_rfl, hh.keeps hk⟩

theorem Expr.grown_eval (hcall : call.Keeps) (e : Expr) (heap : Heap) :
    (e.eval call scope heap).Grown scope e.lets heap := by
  have hg := Heap.Grows.refl scope e.lets heap
  exact (Invariant.eval _ (hcall.calls scope _ heap) e true (List.Subset.refl _) rfl hg).ends_heap

theorem Stmt.grown_exec (hcall : call.Keeps) (s : Stmt) (heap : Heap) :
    (s.exec call scope heap).Grown scope s.lets heap := by
  have hg := Heap.Grows.refl scope s.lets heap
  exact (Invariant.exec _ (hcall.calls scope _ heap) s true (List.Subset.refl _) rfl hg).ends_heap

theorem Stmt.grown_execEach (hcall : call.Keeps) (ss : List Stmt) (last : Value) (heap : Heap) :
    (Stmt.execEach call scope ss last heap).Grown scope (Stmt.letsEach ss) heap := by
  have hg := Heap.Grows.refl scope (Stmt.letsEach ss) heap
  exact (Invariant.execEach _ (hcall.calls scope _ heap) ss true (List.Subset.refl _) trivial rfl
    hg).ends_heap

theorem Stmt.grown_runBody (hcall : call.Keeps) (body : List Stmt) (heap : Heap) :
    (Stmt.runBody call scope body heap).Grown scope (Stmt.letsEach body) heap := by
  have hg := Heap.Grows.refl scope (Stmt.letsEach body) heap
  exact (Invariant.runBody _ (hcall.calls scope _ heap) body (List.Subset.refl _) rfl hg).ends_heap

end Evaluation

theorem Closure.keeps_call (depth : Nat) : (Closure.call depth).Keeps := by
  induction depth with
  | zero => exact fun _ _ _ => trivial
  | succ depth ih =>
    intro c args heap
    exact (Stmt.grown_runBody ih c.body _).mono (fun _ _ => Heap.Grows.keeps_of_push)
      (fun _ => Heap.Grows.keeps_of_push)

theorem Session.grows_of_run? {depth : Nat} {s t : Session} {p : Program} {v : Value}
    (h : s.run? depth p = some (v, t)) :
    s.heap.Grows s.scope (Stmt.letsEach p) t.heap ∧ t.scope = s.scope := by
  have hcall := (Closure.keeps_call depth).calls s.scope (Stmt.letsEach p) s.heap
  have hg := Heap.Grows.refl s.scope (Stmt.letsEach p) s.heap
  obtain ⟨hscope, _, -, hg, -⟩ :=
    Invariant.run? _ (w := ()) hcall (List.Subset.refl _) rfl hg h
  exact ⟨hg, hscope⟩

/-- A `let` can only fail in its value. -/
theorem Stmt.eval_failed_of_define {call : Call} {scope : FrameId} {x : String} {e : Expr}
    {heap heap' : Heap} {err : EvalError}
    (h : (define x e).exec call scope heap = .failed err heap') :
    e.eval call scope heap = .failed err heap' := by
  rw [exec] at h
  cases ho : e.eval call scope heap with
  | done v k => rw [ho] at h; cases h
  | failed err k => rw [ho] at h; exact h
  | exhausted => rw [ho] at h; cases h

/-- Whatever the outcome of an evaluation, it has changed no frame but its scope, and in the scope
only names that `let` statements outside function literals bind; no name has been unbound, and the
register holds the scope again. So a `let` that fails binds nothing of its own, and a call changes
no frame at all. -/
theorem evaluation_extent (depth : Nat) (scope : FrameId) (heap heap' : Heap) :
    (∀ e : Expr, (e.eval (Closure.call depth) scope heap).heap? = some heap' →
      heap.Grows scope e.lets heap') ∧
    (∀ s : Stmt, (s.exec (Closure.call depth) scope heap).heap? = some heap' →
      heap.Grows scope s.lets heap') ∧
    (∀ ss last, (Stmt.execEach (Closure.call depth) scope ss last heap).heap? = some heap' →
      heap.Grows scope (Stmt.letsEach ss) heap') ∧
    (∀ p v t, Session.run? depth ⟨heap, scope⟩ p = some (v, t) →
      heap.Grows scope (Stmt.letsEach p) t.heap ∧ t.scope = scope) ∧
    (∀ x e err, (Stmt.define x e).exec (Closure.call depth) scope heap = .failed err heap' →
      x ∉ e.lets → ∀ f, heap.frames[scope]? = some f →
      ∃ g, heap'.frames[scope]? = some g ∧ g.get? x = f.get? x) ∧
    (∀ c args, (Closure.call depth c args heap).heap? = some heap' → heap.Keeps heap') ∧
    (∀ e : Expr, e.turn (Closure.turn depth) ⟨heap, scope⟩ =
      (e.eval (Closure.call depth) scope heap).inScope scope) ∧
    (∀ s : Stmt, s.turn (Closure.turn depth) ⟨heap, scope⟩ =
      (s.exec (Closure.call depth) scope heap).inScope scope) ∧
    (∀ ss last, Stmt.turnEach (Closure.turn depth) ss last ⟨heap, scope⟩ =
      (Stmt.execEach (Closure.call depth) scope ss last heap).inScope scope) ∧
    (∀ c args, Closure.turn depth c args ⟨heap, scope⟩ =
      (Closure.call depth c args heap).inScope scope) := by
  have hcall := Closure.keeps_call depth
  have hturn := Closure.turn_eq depth
  have heval (e : Expr) : (e.eval (Closure.call depth) scope heap).Grown scope e.lets heap :=
    e.grown_eval hcall heap
  refine ⟨?_, ?_, ?_, ?_, ?_, ?_, ?_, ?_, ?_, ?_⟩
  · intro e he
    exact (heval e).of_heap? he
  · intro s hs
    exact (s.grown_exec hcall heap).of_heap? hs
  · intro ss last hss
    exact (Stmt.grown_execEach hcall ss last heap).of_heap? hss
  · intro p v t hp
    exact Session.grows_of_run? hp
  · intro x e err he hx f hf
    have hv : (e.eval (Closure.call depth) scope heap).heap? = some heap' := by
      rw [Stmt.eval_failed_of_define he]
      rfl
    obtain ⟨g, hg, hext⟩ := ((heval e).of_heap? hv).own f hf
    exact ⟨g, hg, hext.other x hx⟩
  · intro c args hc
    exact (hcall c args heap).of_heap? hc
  · exact fun e => Expr.turn_eq hturn scope e heap
  · exact fun s => Stmt.turn_eq hturn scope s heap
  · exact fun ss last => Stmt.turnEach_eq hturn scope ss last heap
  · exact fun c args => hturn c args heap scope

/-- A conditional that binds `b` and then fails. -/
def bindThenFail : Expr := .ifThen (.bool true) [.define "b" (.int 1), .expr (.name "c")]

/-- A heap of one frame, in which only `b` is bound. -/
def heapWithB : Heap := ⟨#[⟨[("b", .int 1)], none⟩], 0⟩

/-- A function that binds its parameter anew. -/
def rebinds : Closure := ⟨0, ["b"], [.define "b" (.int 2)], 0⟩

theorem evaluation_extent_bindThenFail :
    (bindThenFail.eval (Closure.call 1) 0 Session.start.heap = .failed (.unbound "c") heapWithB ∧
      Session.start.heap.Grows 0 ["b"] heapWithB) ∧
    ((Stmt.expr bindThenFail).exec (Closure.call 1) 0 Session.start.heap =
        .failed (.unbound "c") heapWithB ∧
      Session.start.heap.Grows 0 ["b"] heapWithB) ∧
    (Stmt.execEach (Closure.call 1) 0 [.expr bindThenFail] .null Session.start.heap =
        .failed (.unbound "c") heapWithB ∧
      Session.start.heap.Grows 0 ["b"] heapWithB) ∧
    (Session.run? 1 ⟨Session.start.heap, 0⟩ [.expr bindThenFail] =
        some (.error (.unbound "c"), ⟨heapWithB, 0⟩) ∧
      Session.start.heap.Grows 0 ["b"] heapWithB) ∧
    ((Stmt.define "a" bindThenFail).exec (Closure.call 1) 0 Session.start.heap =
        .failed (.unbound "c") heapWithB ∧
      "a" ∉ bindThenFail.lets ∧ Session.start.heap.frames[0]? = some (.empty none) ∧
      ∃ g, heapWithB.frames[0]? = some g ∧ g.get? "a" = none) ∧
    (Closure.call 1 rebinds [.int 3] heapWithB =
        .done .null (heapWithB.push ⟨[("b", .int 2)], some 0⟩) ∧
      heapWithB.Keeps (heapWithB.push ⟨[("b", .int 2)], some 0⟩)) := by
  obtain ⟨hexpr, hstmt, hblock, hprogram, hlet, -⟩ :=
    evaluation_extent 1 0 Session.start.heap heapWithB
  obtain ⟨-, -, -, -, -, hcall, -⟩ :=
    evaluation_extent 1 0 heapWithB (heapWithB.push ⟨[("b", .int 2)], some 0⟩)
  have he : bindThenFail.eval (Closure.call 1) 0 Session.start.heap =
      .failed (.unbound "c") heapWithB := by with_unfolding_all rfl
  have hs : (Stmt.expr bindThenFail).exec (Closure.call 1) 0 Session.start.heap =
      .failed (.unbound "c") heapWithB := by with_unfolding_all rfl
  have hb : Stmt.execEach (Closure.call 1) 0 [.expr bindThenFail] .null Session.start.heap =
      .failed (.unbound "c") heapWithB := by with_unfolding_all rfl
  have hp : Session.run? 1 ⟨Session.start.heap, 0⟩ [.expr bindThenFail] =
      some (.error (.unbound "c"), ⟨heapWithB, 0⟩) := by with_unfolding_all rfl
  have hl : (Stmt.define "a" bindThenFail).exec (Closure.call 1) 0 Session.start.heap =
      .failed (.unbound "c") heapWithB := by with_unfolding_all rfl
  have ha : "a" ∉ bindThenFail.lets := by decide
  have hc : Closure.call 1 rebinds [.int 3] heapWithB =
      .done .null (heapWithB.push ⟨[("b", .int 2)], some 0⟩) := by with_unfolding_all rfl
  refine ⟨⟨he, ?_⟩, ⟨hs, ?_⟩, ⟨hb, ?_⟩, ⟨hp, ?_⟩, ⟨hl, ha, rfl, ?_⟩, ⟨hc, ?_⟩⟩
  · exact hexpr bindThenFail (by rw [he]; rfl)
  · exact hstmt (.expr bindThenFail) (by rw [hs]; rfl)
  · exact hblock [.expr bindThenFail] .null (by rw [hb]; rfl)
  · exact (hprogram _ _ _ hp).1
  · exact hlet "a" bindThenFail _ hl ha _ rfl
  · exact hcall rebinds [.int 3] (by rw [hc]; rfl)

end MonkeyLang
