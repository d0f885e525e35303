import MonkeyLang.Proofs.Evaluation.History

/-! A host of the interpreter: it makes frames, binds in them the values it has been given, and runs
programs in any of them. -/
namespace MonkeyLang

/-- The heap of a host, and the values that it has been given so far. -/
structure Host where
  heap : Heap
  values : List Value

namespace Host

def start : Host := ⟨.empty, []⟩

def give (s : Host) (v : Value) : Host := { s with values := v :: s.values }

/-- What a host can do at a time. A program that ends gives its value. -/
inductive Step : Host → Host → Prop
  | globalFrame {s} : Step s { s with heap := (s.heap.newFrame none).2 }
  | childFrame {s id} : id < s.heap.frames.size →
      Step s { s with heap := (s.heap.newFrame (some id)).2 }
  | literal {s v} : v.closure? = none → Step s (s.give v)
  | wrap {s v} : v ∈ s.values → Step s (s.give (.returned v))
  | set {s id x v} : id < s.heap.frames.size → v ∈ s.values →
      Step s { s with heap := s.heap.set id x v }
  | get {s id x v} : s.heap.get? id x = some v → Step s (s.give v)
  | run {s id depth p v t} : id < s.heap.frames.size →
      Session.run? depth ⟨s.heap, id⟩ p = some (v, t) → Step s ⟨t.heap, v :: s.values⟩

def Steps : Host → Host → Prop := Relation.ReflTransGen Step

/-- The states that a host can come to. -/
def Reached (s : Host) : Prop := Steps start s

/-- A value is bound in a frame, or the host has been given it. -/
def Has (s : Host) (v : Value) : Prop :=
  v ∈ s.values ∨ ∃ f ∈ s.heap.frames, ∃ x, (x, v) ∈ f.bindings

/-- The heap of the host has a history, which knows all functions that the host has been given. -/
structure Follows (w : History) (s : Host) : Prop where
  heap : s.heap.Follows w
  values : ∀ v ∈ s.values, v.Recorded w

variable {s t : Host} {w : History} {v : Value}

theorem Follows.recorded (hw : s.Follows w) (hv : s.Has v) : v.Recorded w := by
  obtain hv | ⟨f, hf, x, hx⟩ := hv
  · exact hw.values v hv
  · exact hw.heap.bound f hf (x, v) hx

theorem Follows.give (hw : s.Follows w) (hv : v.Recorded w) : (s.give v).Follows w :=
  ⟨hw.heap, List.forall_mem_cons.mpr ⟨hv, hw.values⟩⟩

theorem Follows.newFrame (hw : s.Follows w) (outer : Option FrameId)
    (ho : ∀ o, outer = some o → o < s.heap.frames.size) :
    ∃ w', w ≤ w' ∧ Follows w' { s with heap := (s.heap.newFrame outer).2 } := by
  rw [← hw.heap.size] at ho
  have hle := w.le_addFrame outer ho
  exact ⟨_, hle, hw.heap.push ho (.empty _ outer), fun v hv => (hw.values v hv).mono hle⟩

theorem Step.follows (h : Step s t) (hw : s.Follows w) : ∃ w', w ≤ w' ∧ t.Follows w' := by
  cases h with
  | globalFrame => exact hw.newFrame none nofun
  | childFrame hid => exact hw.newFrame (some _) fun o ho => Option.some.inj ho ▸ hid
  | literal hv => exact ⟨w, le_rfl, hw.give (Value.recorded_of_closure? hv)⟩
  | wrap hv => exact ⟨w, le_rfl, hw.give (hw.values _ hv).returned⟩
  | set _ hv => exact ⟨w, le_rfl, hw.heap.set _ _ (hw.values _ hv), hw.values⟩
  | get hv => exact ⟨w, le_rfl, hw.give (hw.heap.bound.get? hv)⟩
  | run hid hr =>
    obtain ⟨w', hle, hheap, hv⟩ := Session.continues_run? hw.heap hid hr
    exact ⟨w', hle, hheap, List.forall_mem_cons.mpr ⟨hv, fun u hu => (hw.values u hu).mono hle⟩⟩

theorem Steps.follows (h : Steps s t) (hw : s.Follows w) : ∃ w', w ≤ w' ∧ t.Follows w' := by
  induction h with
  | refl => exact ⟨w, le_rfl, hw⟩
  | tail _ hstep ih =>
    obtain ⟨w₁, h₁, hw₁⟩ := ih
    obtain ⟨w₂, h₂, hw₂⟩ := hstep.follows hw₁
    exact ⟨w₂, h₁.trans h₂, hw₂⟩

theorem Reached.exists_follows (hs : s.Reached) : ∃ w, s.Follows w := by
  obtain ⟨w, -, hw⟩ := Steps.follows hs ⟨.empty, nofun⟩
  exact ⟨w, hw⟩

/-- In every state that a host can come to, the frame around a frame was made before it, so that
looking a name up comes to an end. It stays around it in all later states. Functions, wherever they
are, were made in a frame of the heap, and those with one identity have one literal and were made in
one frame. -/
theorem Reached.wellFormed (hs : s.Reached) :
    (∀ id o, s.heap.outer? id = some o → o < id) ∧
    (∀ x id r, s.heap.Walk x id r ↔ r = s.heap.get? id x) ∧
    (∀ t, Steps s t → ∀ id < s.heap.frames.size,
      id < t.heap.frames.size ∧ t.heap.outer? id = s.heap.outer? id) ∧
    (∀ v c, s.Has v → v.closure? = some c → c.home < s.heap.frames.size) ∧
    ∀ v v' c d, s.Has v → s.Has v' → v.closure? = some c → v'.closure? = some d → c.id = d.id →
      c.literal = d.literal ∧ c.home = d.home := by
  obtain ⟨w, hw⟩ := hs.exists_follows
  have hlinks : ∀ id o, s.heap.outer? id = some o → o < id := by
    intro id o ho
    rw [hw.heap.outer?] at ho
    obtain ⟨_, hid, rfl⟩ := Option.bind_eq_some_iff.mp ho
    exact w.outer_lt id o hid
  refine ⟨hlinks, Heap.walk_iff hlinks, ?_, ?_, ?_⟩
  · intro t ht id hid
    obtain ⟨w', hle, hw'⟩ := ht.follows hw
    rw [← hw.heap.size] at hid
    rw [← hw'.heap.size, hw'.heap.outer?, hw.heap.outer?, History.getElem?_outers hle hid]
    exact ⟨hid.trans_le (History.size_le hle), rfl⟩
  · intro v c hv hc
    rw [← hw.heap.size]
    exact w.home_lt c (hw.recorded hv c hc)
  · intro v v' c d hv hv' hc hd hid
    obtain rfl := History.eq_of_id_eq (hw.recorded hv c hc) (hw.recorded hv' d hd) hid
    exact ⟨rfl, rfl⟩

/-- A function that gives its parameter, made in the first frame. -/
def identity : Closure := ⟨0, ["a"], [.expr (.name "a")], 0⟩

/-- The heap in which a program has bound the function. -/
def heapWithIdentity : Heap := ⟨#[⟨[("f", .function identity)], none⟩], 1⟩

/-- The host has bound the function in a frame inside, and has wrapped it. -/
def withIdentity : Host :=
  ⟨heapWithIdentity.push ⟨[("g", .function identity)], some 0⟩,
    [.returned (.function identity), .function identity]⟩

theorem Reached.wellFormed_withIdentity :
    withIdentity.Reached ∧ withIdentity.heap.outer? 1 = some 0 ∧ (0 : FrameId) < 1 ∧
    withIdentity.heap.Walk "f" 1 (some (.function identity)) ∧
    withIdentity.heap.Walk "h" 1 none ∧
    (Heap.outer? (withIdentity.heap.newFrame (some 1)).2 1 = some 0) ∧
    withIdentity.Has (.returned (.function identity)) ∧
    identity.home < withIdentity.heap.frames.size := by
  have hvalue : Session.run? 0 Session.start [.define "f" identity.literal, .expr (.name "f")] =
      some (.function identity, ⟨heapWithIdentity, 0⟩) := by with_unfolding_all rfl
  have hbound : (heapWithIdentity.push (.empty (some 0))).set 1 "g" (.function identity) =
      withIdentity.heap := by with_unfolding_all rfl
  have hframe : Step start ⟨Session.start.heap, []⟩ := .globalFrame
  have hrun : Step ⟨Session.start.heap, []⟩ ⟨heapWithIdentity, [.function identity]⟩ :=
    .run (t := ⟨heapWithIdentity, 0⟩) Nat.zero_lt_one hvalue
  have hchild : Step ⟨heapWithIdentity, [.function identity]⟩
      ⟨heapWithIdentity.push (.empty (some 0)), [.function identity]⟩ := .childFrame Nat.zero_lt_one
  have hset : Step ⟨heapWithIdentity.push (.empty (some 0)), [.function identity]⟩
      ⟨withIdentity.heap, [.function identity]⟩ :=
    hbound ▸ .set Nat.one_lt_two List.mem_cons_self
  have hwrap : Step ⟨withIdentity.heap, [.function identity]⟩ withIdentity :=
    .wrap List.mem_cons_self
  have hs : withIdentity.Reached := ((((Relation.ReflTransGen.single hframe).tail hrun).tail
    hchild).tail hset).tail hwrap
  have hnext : Step withIdentity
      { withIdentity with heap := (withIdentity.heap.newFrame (some 1)).2 } :=
    .childFrame Nat.one_lt_two
  have hhas : withIdentity.Has (.returned (.function identity)) := .inl List.mem_cons_self
  obtain ⟨hlinks, hwalk, hlater, hhome, -⟩ := hs.wellFormed
  refine ⟨hs, rfl, hlinks 1 0 rfl, (hwalk _ _ _).mpr ?_, (hwalk _ _ _).mpr ?_, ?_, hhas,
    hhome _ _ hhas rfl⟩
  · with_unfolding_all rfl
  · with_unfolding_all rfl
  · exact (hlater _ (.single hnext) 1 Nat.one_lt_two).2

end Host
end MonkeyLang
