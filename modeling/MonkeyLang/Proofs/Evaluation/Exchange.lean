import MonkeyLang.Proofs.Evaluation.Correspondence
import MonkeyLang.Proofs.Host

/-! Two definitions of functions change places. A function keeps the frame in which it was made,
and not what was bound there by then, so only the identities of the two functions tell the orders
apart. -/
namespace MonkeyLang

/-- The next two numbers can be paired crosswise. -/
theorem Pairing.cross {R S : Nat → Nat → Prop} {m n : Nat} (hR : Pairing R m n)
    (hSR : ∀ a b, S a b → R a b ∨ a = m ∧ b = n + 1 ∨ a = m + 1 ∧ b = n) :
    Pairing S (m + 2) (n + 2) := by
  refine ⟨?_, ?_, ?_⟩
  · intro a b hab
    obtain hab | hab := hSR a b hab
    · have := hR.lt a b hab
      omega
    · omega
  · intro a a' b hab hab'
    obtain hab | hab := hSR a b hab <;> obtain hab' | hab' := hSR a' b hab'
    · exact hR.unique.1 hab hab'
    · have := hR.lt a b hab
      omega
    · have := hR.lt a' b hab'
      omega
    · omega
  · intro a b b' hab hab'
    obtain hab | hab := hSR a b hab <;> obtain hab' | hab' := hSR a b' hab'
    · exact hR.unique.2 hab hab'
    · have := hR.lt a b hab
      omega
    · have := hR.lt a b' hab'
      omega
    · omega

/-- The heap in which a function has been made in a frame, and bound to a name there. -/
def Heap.bindFunction (h : Heap) (scope : FrameId) (x : String) (xs : List String)
    (body : List Stmt) : Heap :=
  (h.newClosure scope xs body).2.set scope x (.function (h.newClosure scope xs body).1)

/-- The heap in which two functions have been made in a frame, one after the other, and bound
there. -/
def Heap.bindFunctions (h : Heap) (scope : FrameId) (f : String) (xs : List String)
    (body : List Stmt) (g : String) (ys : List String) (other : List Stmt) : Heap :=
  (h.bindFunction scope f xs body).bindFunction scope g ys other

/-- The pairs of two heaps in which two more functions have been made, each in the place of the
other. -/
def Correspondence.exchanged (h : Heap) : Correspondence :=
  ((same h).withClosure h.closures (h.closures + 1)).withClosure (h.closures + 1) h.closures

section Definitions
variable {h : Heap} {scope : FrameId} {f g x : String} {xs ys : List String}
variable {body other : List Stmt}

theorem Heap.size_bindFunctions : (h.bindFunctions scope f xs body g ys other).frames.size =
    h.frames.size := by
  simp [bindFunctions, bindFunction, newClosure]

theorem Heap.local?_bindFunction (hscope : scope < h.frames.size) (a : FrameId) (y : String) :
    (h.bindFunction scope x xs body).local? a y = if a = scope ∧ y = x then
      some (.function ⟨h.closures, xs, body, scope⟩) else h.local? a y :=
  local?_set hscope a x y _

theorem Heap.local?_bindFunctions (hscope : scope < h.frames.size) (a : FrameId) (y : String) :
    (h.bindFunctions scope f xs body g ys other).local? a y =
      if a = scope ∧ y = g then some (.function ⟨h.closures + 1, ys, other, scope⟩)
      else if a = scope ∧ y = f then some (.function ⟨h.closures, xs, body, scope⟩)
      else h.local? a y := by
  have hsize : scope < (h.bindFunction scope f xs body).frames.size := by
    simpa [bindFunction, newClosure] using hscope
  rw [bindFunctions, local?_bindFunction hsize, local?_bindFunction hscope]
  rfl

theorem Heap.around?_bindFunctions (a : FrameId) :
    (h.bindFunctions scope f xs body g ys other).around? a = h.around? a :=
  (around?_set _ scope a g _).trans (around?_set _ scope a f _)

/-- A body that starts inside the frame sees both functions, but for names that are parameters. -/
theorem Heap.get?_enter_bindFunctions {c : Closure} (hc : c.home = scope)
    (hscope : scope < h.frames.size) (hfg : f ≠ g) (args : List Value) :
    let k := h.bindFunctions scope f xs body g ys other
    let entered := k.push ((Frame.empty (some c.home)).setEach (c.parameters.zip args))
    (f ∉ c.parameters →
      entered.get? k.frames.size f = some (.function ⟨h.closures, xs, body, scope⟩)) ∧
    (g ∉ c.parameters →
      entered.get? k.frames.size g = some (.function ⟨h.closures + 1, ys, other, scope⟩)) := by
  intro k entered
  have hsize : c.home < k.frames.size := by
    rw [hc, size_bindFunctions]
    exact hscope
  have hseen (x : String) (hx : x ∉ c.parameters) : entered.get? k.frames.size x =
      (k.local? scope x).or ((k.around? scope).bind (k.get? · x)) := by
    have hne : ∀ b ∈ c.parameters.zip args, b.1 ≠ x := by
      rintro b hb rfl
      exact hx (List.of_mem_zip hb).1
    rw [get?_push_self (Frame.get?_setEach_of_ne hne _) (Frame.outer_setEach _ _) hsize,
      get?_eq_or, hc]
  constructor
  · intro hf
    rw [hseen f hf, local?_bindFunctions hscope, if_neg fun h => hfg h.2, if_pos ⟨rfl, rfl⟩]
    rfl
  · intro hg
    rw [hseen g hg, local?_bindFunctions hscope, if_pos ⟨rfl, rfl⟩]
    rfl

theorem Session.run?_define_define (depth : Nat) (rest : Program) :
    Session.run? depth ⟨h, scope⟩
        (.define f (.function xs body) :: .define g (.function ys other) :: rest) =
      Session.run? depth ⟨h.bindFunctions scope f xs body g ys other, scope⟩ rest := rfl

/-- Bound in one order or in the other, the functions correspond, and nothing else differs. -/
theorem Correspondence.exchanged_agreesFrom (hmade : h.All (Value.MadeIn h))
    (hscope : scope < h.frames.size) (hfg : f ≠ g) (roots : Set FrameId) :
    (exchanged h).AgreesFrom roots (h.bindFunctions scope f xs body g ys other)
      (h.bindFunctions scope g ys other f xs body) := by
  have hle : same h ≤ exchanged h := (le_withClosure _ _ _).trans (le_withClosure _ _ _)
  refine ⟨⟨?_, ?_⟩, ?_⟩
  · rw [Heap.size_bindFunctions, Heap.size_bindFunctions]
    exact .same le_rfl
  · refine (Pairing.same (le_refl h.closures)).cross ?_
    rintro i j ((hij | hij) | hij)
    · exact .inl hij
    · exact .inr (.inl hij)
    · exact .inr (.inr hij)
  · rintro r - a b - ⟨rfl, ha⟩
    constructor
    · intro y
      rw [Heap.local?_bindFunctions hscope, Heap.local?_bindFunctions hscope]
      -- The two orders test the two names in opposite orders, and a name cannot be both.
      by_cases hf : a = scope ∧ y = f
      · obtain ⟨rfl, rfl⟩ := hf
        rw [if_neg fun h => hfg h.2, if_pos ⟨rfl, rfl⟩, if_pos ⟨rfl, rfl⟩]
        exact .some (.function ⟨.inl (.inr ⟨rfl, rfl⟩), ⟨rfl, ha⟩, rfl, rfl⟩)
      · rw [if_neg hf, if_neg hf]
        split
        · exact .some (.function ⟨.inr ⟨rfl, rfl⟩, ⟨rfl, hscope⟩, rfl, rfl⟩)
        · cases hy : h.local? a y with
          | none => exact .none
          | some v => exact .some ((hmade.local? hy).corresponds.mono hle)
    · rw [Heap.around?_bindFunctions, Heap.around?_bindFunctions]
      cases ho : h.around? a with
      | none => exact .none
      | some o => exact .some ⟨rfl, (Heap.lt_of_around? ho).trans ha⟩

end Definitions

/-- Corresponding values are equal but for functions, which have the same literal. -/
theorem Value.Corresponds.rel_literal {c : Correspondence} {v w : Value} (h : v.Corresponds c w) :
    Value.Rel (fun f g => g.literal = f.literal) v w := by
  refine Value.Rel.mono h ?_
  intro f g hfg
  rw [Closure.literal, Closure.literal, hfg.parameters, hfg.body]

/-- In every state of a host, the functions bound in frames were made in its heap. -/
theorem Host.Reached.all_madeIn {s : Host} (hs : s.Reached) :
    s.heap.All (Value.MadeIn s.heap) := by
  obtain ⟨w, hw⟩ := hs.exists_follows
  refine hw.heap.bound.mono ?_
  intro v hv c hc
  have hmem := hv c hc
  obtain ⟨i, hi⟩ := List.mem_iff_getElem?.mp hmem
  obtain ⟨hlt, -⟩ := List.getElem?_eq_some_iff.mp hi
  rw [← hw.heap.closures, ← hw.heap.size, w.id_eq i c hi]
  exact ⟨hlt, w.home_lt c hmem⟩

/-- Two definitions of functions can change places. In every frame of every host the programs have
corresponding outcomes: the same value or error, and for a function one with the same literal. One
of them ends if and only if the other does. Once both names are bound, the bodies of both functions,
and of all others made in that frame, see both, but for names that are their parameters. -/
theorem Session.run?_exchange {s : Host} {scope : FrameId} {f g : String} (hs : s.Reached)
    (hscope : scope < s.heap.frames.size) (hfg : f ≠ g) (xs ys : List String)
    (body other : List Stmt) :
    (∀ (rest : Program) (depth : Nat), Option.Rel
      (fun a b => Value.Rel (fun c d => d.literal = c.literal) a.1 b.1 ∧
        Session.Corresponds (.exchanged s.heap) scope scope a b)
      (Session.run? depth ⟨s.heap, scope⟩
        (.define f (.function xs body) :: .define g (.function ys other) :: rest))
      (Session.run? depth ⟨s.heap, scope⟩
        (.define g (.function ys other) :: .define f (.function xs body) :: rest))) ∧
    (∀ rest : Program,
      (∃ depth, (Session.run? depth ⟨s.heap, scope⟩
        (.define f (.function xs body) :: .define g (.function ys other) :: rest)).isSome) ↔
      ∃ depth, (Session.run? depth ⟨s.heap, scope⟩
        (.define g (.function ys other) :: .define f (.function xs body) :: rest)).isSome) ∧
    ∃ (k : Heap) (c d : Closure), c.home = scope ∧ c.literal = .function xs body ∧
      d.home = scope ∧ d.literal = .function ys other ∧
      (∀ depth, Session.run? depth ⟨s.heap, scope⟩
        [.define f (.function xs body), .define g (.function ys other)] =
          some (.null, ⟨k, scope⟩)) ∧
      ∀ (e : Closure) (args : List Value), e.home = scope →
        let entered := k.push ((Frame.empty (some e.home)).setEach (e.parameters.zip args))
        (f ∉ e.parameters → entered.get? k.frames.size f = some (.function c)) ∧
        (g ∉ e.parameters → entered.get? k.frames.size g = some (.function d)) := by
  have hrel (rest : Program) (depth : Nat) : Option.Rel
      (Session.Corresponds (.exchanged s.heap) scope scope)
      (Session.run? depth ⟨s.heap, scope⟩
        (.define f (.function xs body) :: .define g (.function ys other) :: rest))
      (Session.run? depth ⟨s.heap, scope⟩
        (.define g (.function ys other) :: .define f (.function xs body) :: rest)) := by
    have hpair : (Correspondence.exchanged s.heap).frame scope scope := ⟨rfl, hscope⟩
    rw [Session.run?_define_define, Session.run?_define_define]
    exact (Correspondence.exchanged_agreesFrom hs.all_madeIn hscope hfg {scope}).corresponds_run?
      hpair depth rest
  refine ⟨?_, ?_, ?_⟩
  · intro rest depth
    refine rel_mono ?_ (hrel rest depth)
    intro a b hab
    refine ⟨?_, hab⟩
    obtain ⟨-, -, d, -, -, hv⟩ := hab
    exact hv.rel_literal
  · intro rest
    refine exists_congr fun depth => ?_
    rw [isSome_eq_of_rel (hrel rest depth)]
  · refine ⟨s.heap.bindFunctions scope f xs body g ys other, ⟨s.heap.closures, xs, body, scope⟩,
      ⟨s.heap.closures + 1, ys, other, scope⟩, rfl, rfl, rfl, rfl, fun _ => rfl, ?_⟩
    intro e args he
    exact Heap.get?_enter_bindFunctions he hscope hfg args

/-- Gives itself, but for a true argument it asks `pong`. -/
def ping : Closure :=
  ⟨0, ["a"], [.expr (.ifElse (.name "a") [.expr (.call (.name "pong") [.bool false])]
    [.expr (.name "ping")])], 0⟩

/-- Asks `ping`. -/
def pong : Closure := ⟨1, ["a"], [.expr (.call (.name "ping") [.name "a"])], 0⟩

def callPing : Program := [.expr (.call (.name "ping") [.bool true])]

def pingFirst : Program :=
  .define "ping" ping.literal :: .define "pong" pong.literal :: callPing

def pongFirst : Program :=
  .define "pong" pong.literal :: .define "ping" ping.literal :: callPing

theorem Session.run?_exchange_pingPong :
    Host.Reached ⟨start.heap, []⟩ ∧ 0 < start.heap.frames.size ∧ "ping" ≠ "pong" ∧
    (run? 3 ⟨start.heap, 0⟩ pingFirst).map Prod.fst = some (.function ping) ∧
    ∃ c : Closure, c.literal = ping.literal ∧
      (run? 3 ⟨start.heap, 0⟩ pongFirst).map Prod.fst = some (.function c) := by
  have hs : Host.Reached ⟨start.heap, []⟩ := .single .globalFrame
  have hscope : 0 < start.heap.frames.size := by decide
  have hne : "ping" ≠ "pong" := by decide
  have hrun : (run? 3 ⟨start.heap, 0⟩ pingFirst).map Prod.fst = some (.function ping) := by
    with_unfolding_all rfl
  have hrel : Option.Rel _ (run? 3 ⟨start.heap, 0⟩ pingFirst) (run? 3 ⟨start.heap, 0⟩ pongFirst) :=
    (run?_exchange hs hscope hne ping.parameters pong.parameters ping.body pong.body).1 callPing 3
  refine ⟨hs, hscope, hne, hrun, ?_⟩
  obtain ⟨⟨v, t⟩, hfirst, rfl⟩ := Option.map_eq_some_iff.mp hrun
  rw [hfirst] at hrel
  generalize run? 3 ⟨start.heap, 0⟩ pongFirst = second at hrel ⊢
  cases hrel with
  | @some _ b hv =>
    obtain ⟨w, u⟩ := b
    cases hv.1 with
    | @function _ c hc => exact ⟨c, hc, rfl⟩

end MonkeyLang
