import Mathlib.Data.Set.Insert
import Mathlib.Logic.Relation
import Mathlib.Order.Basic
import MonkeyLang.Proofs.Scope.Heap
import MonkeyLang.Proofs.Value.Related

/-! Heaps that correspond: their frames and their functions are paired one to one, and the frames
that can be reached from some roots are alike up to these pairs. -/
namespace MonkeyLang

/-- Numbers below `m` and numbers below `n` are paired one to one. -/
structure Pairing (R : Nat → Nat → Prop) (m n : Nat) : Prop where
  lt : ∀ a b, R a b → a < m ∧ b < n
  unique : Relator.BiUnique R

namespace Pairing
variable {R S : Nat → Nat → Prop} {m n : Nat}

theorem mono (hR : Pairing R m n) (hSR : ∀ a b, S a b → R a b) : Pairing S m n := by
  refine ⟨fun a b hab => hR.lt a b (hSR a b hab), ?_, ?_⟩
  · intro a a' b hab hab'
    exact hR.unique.1 (hSR a b hab) (hSR a' b hab')
  · intro a b b' hab hab'
    exact hR.unique.2 (hSR a b hab) (hSR a b' hab')

/-- The next two numbers can be paired as well. -/
theorem push (hR : Pairing R m n) (hSR : ∀ a b, S a b → R a b ∨ a = m ∧ b = n) :
    Pairing S (m + 1) (n + 1) := by
  refine ⟨?_, ?_, ?_⟩
  · intro a b hab
    obtain hab | ⟨rfl, rfl⟩ := hSR a b hab
    · obtain ⟨ha, hb⟩ := hR.lt a b hab
      exact ⟨Nat.lt_succ_of_lt ha, Nat.lt_succ_of_lt hb⟩
    · exact ⟨Nat.lt_succ_self a, Nat.lt_succ_self b⟩
  · intro a a' b hab hab'
    obtain hab | ⟨rfl, rfl⟩ := hSR a b hab <;> obtain hab' | ⟨rfl, hb⟩ := hSR a' _ hab'
    · exact hR.unique.1 hab hab'
    · exact absurd hb (Nat.ne_of_lt (hR.lt a b hab).2)
    · exact absurd rfl (Nat.ne_of_lt (hR.lt _ _ hab').2)
    · rfl
  · intro a b b' hab hab'
    obtain hab | ⟨rfl, rfl⟩ := hSR a b hab <;> obtain hab' | ⟨ha, rfl⟩ := hSR _ b' hab'
    · exact hR.unique.2 hab hab'
    · exact absurd ha (Nat.ne_of_lt (hR.lt a b hab).1)
    · exact absurd rfl (Nat.ne_of_lt (hR.lt _ _ hab').1)
    · rfl

theorem same (h : m ≤ n) : Pairing (fun a b => a = b ∧ a < m) m n := by
  refine ⟨?_, ?_, ?_⟩
  · rintro a b ⟨rfl, ha⟩
    exact ⟨ha, Nat.lt_of_lt_of_le ha h⟩
  · rintro a a' b ⟨rfl, -⟩ ⟨rfl, -⟩
    rfl
  · rintro a b b' ⟨rfl, -⟩ ⟨rfl, -⟩
    rfl

end Pairing

/-- Pairs of frames of two heaps, and pairs of identities of functions. -/
structure Correspondence where
  frame : FrameId → FrameId → Prop
  closure : Nat → Nat → Prop

namespace Correspondence

/-- The pairs of the first correspondence are among those of the second. -/
instance : LE Correspondence where
  le c d := (∀ a b, c.frame a b → d.frame a b) ∧ ∀ i j, c.closure i j → d.closure i j

instance : Preorder Correspondence where
  le_refl _ := ⟨fun _ _ => id, fun _ _ => id⟩
  le_trans _ _ _ hcd hde :=
    ⟨fun a b hab => hde.1 a b (hcd.1 a b hab), fun i j hij => hde.2 i j (hcd.2 i j hij)⟩

def union (c d : Correspondence) : Correspondence where
  frame a b := c.frame a b ∨ d.frame a b
  closure i j := c.closure i j ∨ d.closure i j

def withFrame (c : Correspondence) (a b : FrameId) : Correspondence :=
  { c with frame := fun x y => c.frame x y ∨ x = a ∧ y = b }

def withClosure (c : Correspondence) (i j : Nat) : Correspondence :=
  { c with closure := fun x y => c.closure x y ∨ x = i ∧ y = j }

variable {c d : Correspondence}

theorem le_union_left (c d : Correspondence) : c ≤ c.union d :=
  ⟨fun _ _ => .inl, fun _ _ => .inl⟩

theorem le_union_right (c d : Correspondence) : d ≤ c.union d :=
  ⟨fun _ _ => .inr, fun _ _ => .inr⟩

theorem le_withFrame (c : Correspondence) (a b : FrameId) : c ≤ c.withFrame a b :=
  ⟨fun _ _ => .inl, fun _ _ => id⟩

theorem le_withClosure (c : Correspondence) (i j : Nat) : c ≤ c.withClosure i j :=
  ⟨fun _ _ => id, fun _ _ => .inl⟩

theorem withFrame_self (c : Correspondence) (a b : FrameId) : (c.withFrame a b).frame a b :=
  .inr ⟨rfl, rfl⟩

/-- Frames of one heap and of the other are paired one to one, and so are the functions made. -/
structure Between (c : Correspondence) (h k : Heap) : Prop where
  frames : Pairing c.frame h.frames.size k.frames.size
  closures : Pairing c.closure h.closures k.closures

end Correspondence

namespace Value

/-- The function that a value is or returns. -/
def closure? : Value → Option Closure
  | function f => some f
  | returned v => v.closure?
  | _ => none

/-- The frame in which the function was made that a value is or returns. -/
def homes (v : Value) : Set FrameId := {a | ∃ f, v.closure? = some f ∧ f.home = a}

namespace Rel
variable {C D : Closure → Closure → Prop} {v w : Value}

theorem imp_of_closure? (h : Rel C v w)
    (hCD : ∀ f g, v.closure? = some f → C f g → D f g) : Rel D v w := by
  induction h with
  | int n => exact .int n
  | bool b => exact .bool b
  | null => exact .null
  | function h => exact .function (hCD _ _ rfl h)
  | returned _ ih => exact .returned (ih hCD)
  | error e => exact .error e

theorem closure? (h : Rel C v w) : Option.Rel C v.closure? w.closure? := by
  induction h with
  | function h => exact .some h
  | returned _ ih => exact ih
  | _ => exact .none

end Rel
end Value

/-- Two functions with one literal whose identities are paired, made in frames that are paired. -/
structure Closure.Corresponds (c : Correspondence) (f g : Closure) : Prop where
  id : c.closure f.id g.id
  home : c.frame f.home g.home
  parameters : g.parameters = f.parameters
  body : g.body = f.body

/-- Two values that are equal but for functions, which correspond. -/
abbrev Value.Corresponds (c : Correspondence) : Value → Value → Prop :=
  Value.Rel (Closure.Corresponds c)

theorem Closure.Corresponds.mono {c d : Correspondence} {f g : Closure} (hcd : c ≤ d)
    (h : f.Corresponds c g) : f.Corresponds d g :=
  ⟨hcd.2 _ _ h.id, hcd.1 _ _ h.home, h.parameters, h.body⟩

theorem Value.Corresponds.mono {c d : Correspondence} {v w : Value} (hcd : c ≤ d)
    (h : v.Corresponds c w) : v.Corresponds d w :=
  Value.Rel.mono h fun _ _ => Closure.Corresponds.mono hcd

theorem Value.Rel.exists_frame {c : Correspondence} {v w : Value} {a : FrameId}
    (h : v.Corresponds c w) (ha : a ∈ v.homes) : ∃ b ∈ w.homes, c.frame a b := by
  obtain ⟨f, hf, rfl⟩ := ha
  have hfg := Value.Rel.closure? h
  rw [hf] at hfg
  generalize hg : w.closure? = g at hfg
  cases hfg with
  | some hfg => exact ⟨_, ⟨_, hg, rfl⟩, hfg.home⟩

namespace Heap

/-- From a frame the frame around it is seen, and the frames in which the functions bound in it were
made. -/
inductive Sees (h : Heap) (a : FrameId) : FrameId → Prop
  | around {b : FrameId} : h.around? a = some b → Sees h a b
  | home {x : String} {v : Value} {b : FrameId} : h.local? a x = some v → b ∈ v.homes → Sees h a b

/-- A frame can be reached from another through outer frames and the homes of functions. -/
def Reaches (h : Heap) : FrameId → FrameId → Prop := Relation.ReflTransGen h.Sees

end Heap

namespace Correspondence
variable {c d : Correspondence} {h k : Heap} {a b : FrameId}

/-- Two frames bind the same names to corresponding values, and the frames around them are
paired. -/
structure Agrees (c : Correspondence) (h k : Heap) (a b : FrameId) : Prop where
  bindings : ∀ x, Option.Rel (Value.Corresponds c) (h.local? a x) (k.local? b x)
  around : Option.Rel c.frame (h.around? a) (k.around? b)

theorem Agrees.mono (hcd : c ≤ d) (h' : c.Agrees h k a b) : d.Agrees h k a b :=
  ⟨fun x => rel_mono (fun _ _ => Value.Corresponds.mono hcd) (h'.bindings x),
    rel_mono hcd.1 h'.around⟩

/-- Where frames agree along the way, what can be reached from a frame of a pair is a frame of a
pair. -/
theorem exists_frame_of_reaches {r s : FrameId}
    (hagree : ∀ a b, h.Reaches r a → c.frame a b → c.Agrees h k a b) (hrs : c.frame r s)
    (ha : h.Reaches r a) : ∃ b, c.frame a b := by
  induction ha with
  | refl => exact ⟨s, hrs⟩
  | tail hreach hsee ih =>
    obtain ⟨b, hab⟩ := ih
    obtain ⟨hb, ho⟩ := hagree _ b hreach hab
    cases hsee with
    | around ha =>
      rw [ha] at ho
      generalize k.around? b = o at ho
      cases ho with
      | some ho => exact ⟨_, ho⟩
    | @home x v _ hv hhome =>
      have hx := hb x
      rw [hv] at hx
      generalize k.local? b x = w at hx
      cases hx with
      | some hvw =>
        obtain ⟨b', -, hab'⟩ := hvw.exists_frame hhome
        exact ⟨b', hab'⟩

/-- A one-to-one correspondence between two heaps that agrees on every frame that can be reached
from the roots. -/
structure AgreesFrom (c : Correspondence) (roots : Set FrameId) (h k : Heap) : Prop where
  between : c.Between h k
  agrees : ∀ r ∈ roots, ∀ a b, h.Reaches r a → c.frame a b → c.Agrees h k a b

/-- The pairs whose frames can be reached from the roots. -/
def reached (c : Correspondence) (h : Heap) (roots : Set FrameId) : Correspondence :=
  { c with frame := fun a b => (∃ r ∈ roots, h.Reaches r a) ∧ c.frame a b }

theorem frame_reached {roots : Set FrameId} (hroot : a ∈ roots) (hab : c.frame a b) :
    (c.reached h roots).frame a b :=
  ⟨⟨a, hroot, .refl⟩, hab⟩

theorem corresponds_reached {roots : Set FrameId} {v w : Value} (hv : v.homes ⊆ roots)
    (hvw : v.Corresponds c w) : v.Corresponds (c.reached h roots) w := by
  refine hvw.imp_of_closure? ?_
  intro f g hf hfg
  exact ⟨hfg.id, frame_reached (hv ⟨f, hf, rfl⟩) hfg.home, hfg.parameters, hfg.body⟩

end Correspondence

/-- Two heaps alike on the pairs of `d`, which are one to one with those of `c` added. -/
structure Heap.Mirrors (c d : Correspondence) (h k : Heap) : Prop where
  between : (c.union d).Between h k
  agrees : ∀ a b, d.frame a b → d.Agrees h k a b

namespace Heap.Mirrors
variable {c d : Correspondence} {h k : Heap} {a b : FrameId}

theorem frames (hm : Mirrors c d h k) : Pairing d.frame h.frames.size k.frames.size :=
  hm.between.frames.mono fun _ _ => .inr

theorem closures (hm : Mirrors c d h k) : Pairing d.closure h.closures k.closures :=
  hm.between.closures.mono fun _ _ => .inr

/-- Corresponding functions are identical to corresponding functions only. -/
theorem id_iff (hm : Mirrors c d h k) (f g f' g' : Closure) (hfg : f.Corresponds d g)
    (hfg' : f'.Corresponds d g') : g.id = g'.id ↔ f.id = f'.id :=
  (Relator.rel_eq hm.closures.unique hfg.id hfg'.id).symm

/-- A name has corresponding values in frames that are paired. -/
theorem get? (hm : Mirrors c d h k) (hab : d.frame a b) (x : String) :
    Option.Rel (Value.Corresponds d) (h.get? a x) (k.get? b x) := by
  induction a using Nat.strongRecOn generalizing b with
  | _ a ih =>
    obtain ⟨hb, ho⟩ := hm.agrees a b hab
    have hx := hb x
    rw [Heap.get?_eq_or, Heap.get?_eq_or]
    generalize h.local? a x = v, k.local? b x = v' at hx ⊢
    cases hx with
    | some hv => exact .some hv
    | none =>
      generalize ha : h.around? a = o, k.around? b = o' at ho ⊢
      cases ho with
      | some ho => exact ih _ (lt_of_around? ha) ho
      | none => exact .none

theorem set {v w : Value} (hm : Mirrors c d h k) (hab : d.frame a b) (x : String)
    (hvw : v.Corresponds d w) : Mirrors c d (h.set a x v) (k.set b x w) := by
  obtain ⟨ha, hb⟩ := hm.frames.lt a b hab
  constructor
  · refine ⟨?_, hm.between.closures⟩
    simpa using hm.between.frames
  · intro a' b' hab'
    have hiff : a' = a ↔ b' = b := Relator.rel_eq hm.frames.unique hab' hab
    constructor
    · intro y
      rw [local?_set ha, local?_set hb]
      simp only [hiff]
      split
      · exact .some hvw
      · exact (hm.agrees a' b' hab').bindings y
    · rw [around?_set, around?_set]
      exact (hm.agrees a' b' hab').around

/-- New frames that bind corresponding values, inside frames that are paired, are paired. -/
theorem push {f g : Frame} (hm : Mirrors c d h k) (hab : d.frame a b)
    (hf : f.outer = some a) (hg : g.outer = some b)
    (hfg : Frame.Related Eq (Value.Corresponds d) f g) :
    Mirrors c (d.withFrame h.frames.size k.frames.size) (h.push f) (k.push g) := by
  have hle := d.le_withFrame h.frames.size k.frames.size
  obtain ⟨ha, hb⟩ := hm.frames.lt a b hab
  constructor
  · refine ⟨?_, hm.between.closures⟩
    rw [size_frames_push, size_frames_push]
    refine hm.between.frames.push ?_
    rintro x y (hxy | hxy | hxy)
    · exact .inl (.inl hxy)
    · exact .inl (.inr hxy)
    · exact .inr hxy
  · rintro a' b' (hab' | ⟨rfl, rfl⟩)
    · obtain ⟨ha', hb'⟩ := hm.frames.lt a' b' hab'
      have hagree := (hm.agrees a' b' hab').mono hle
      constructor
      · intro x
        rw [local?_push, local?_push, if_neg (Nat.ne_of_lt ha'), if_neg (Nat.ne_of_lt hb')]
        exact hagree.bindings x
      · rw [around?_push, around?_push, if_neg (Nat.ne_of_lt ha'), if_neg (Nat.ne_of_lt hb')]
        exact hagree.around
    · constructor
      · intro x
        rw [local?_push, local?_push, if_pos rfl, if_pos rfl]
        exact rel_mono (fun _ _ => Value.Corresponds.mono hle) (hfg x x rfl)
      · rw [around?_push, around?_push, if_pos rfl, if_pos rfl, hf, hg]
        have hpair : (d.withFrame h.frames.size k.frames.size).frame a b := hle.1 a b hab
        simpa [Option.filter, ha, hb] using hpair

/-- The functions that a literal gives in frames that are paired are paired. -/
theorem newClosure (hm : Mirrors c d h k) (hab : d.frame a b) (xs : List String)
    (body : List Stmt) :
    Mirrors c (d.withClosure h.closures k.closures) (h.newClosure a xs body).2
        (k.newClosure b xs body).2 ∧
      (h.newClosure a xs body).1.Corresponds (d.withClosure h.closures k.closures)
        (k.newClosure b xs body).1 := by
  refine ⟨⟨⟨hm.between.frames, ?_⟩, ?_⟩, .inr ⟨rfl, rfl⟩, hab, rfl, rfl⟩
  · refine hm.between.closures.push ?_
    rintro i j (hij | hij | hij)
    · exact .inl (.inl hij)
    · exact .inl (.inr hij)
    · exact .inr hij
  · intro a' b' hab'
    have hagree := (hm.agrees a' b' hab').mono (d.le_withClosure h.closures k.closures)
    exact ⟨hagree.bindings, hagree.around⟩

/-- The heaps in which the bodies of corresponding functions start. -/
theorem enter {f g : Closure} {args args' : List Value} (hm : Mirrors c d h k)
    (hfg : f.Corresponds d g) (hargs : List.Forall₂ (Value.Corresponds d) args args') :
    Mirrors c (d.withFrame h.frames.size k.frames.size)
      (h.push ((Frame.empty (some f.home)).setEach (f.parameters.zip args)))
      (k.push ((Frame.empty (some g.home)).setEach (g.parameters.zip args'))) := by
  refine hm.push hfg.home (Frame.outer_setEach _ _) (Frame.outer_setEach _ _) ?_
  have heq : Relator.BiUnique (@Eq String) :=
    ⟨fun _ _ _ hx hy => hx.trans hy.symm, fun _ _ _ hx hy => hx.symm.trans hy⟩
  rw [hfg.parameters]
  exact (Frame.Related.empty _ _).setEach heq (List.forall₂_refl _) hargs

theorem agreesFrom {roots : Set FrameId} (hm : Mirrors c d h k)
    (hroots : ∀ r ∈ roots, ∃ s, d.frame r s) : (c.union d).AgreesFrom roots h k := by
  refine ⟨hm.between, ?_⟩
  intro r hr a b hreach hab
  obtain ⟨s, hrs⟩ := hroots r hr
  have hagree (a' b' : FrameId) (_ : h.Reaches r a') (hab' : d.frame a' b') :
      d.Agrees h k a' b' := hm.agrees a' b' hab'
  obtain ⟨b', hab'⟩ := Correspondence.exists_frame_of_reaches hagree hrs hreach
  obtain rfl : b = b' := hm.between.frames.unique.2 hab (.inr hab')
  exact (hm.agrees a b hab').mono (c.le_union_right d)

end Heap.Mirrors

/-- A value that is or returns a function made in the heap, if it is or returns one. -/
def Value.MadeIn (h : Heap) (v : Value) : Prop :=
  ∀ f, v.closure? = some f → f.id < h.closures ∧ f.home < h.frames.size

/-- A value was made in the heap, and so were the values bound where it leads to. -/
def Heap.Holds (h : Heap) (v : Value) : Prop :=
  v.MadeIn h ∧ ∀ r ∈ v.homes, ∀ a, h.Reaches r a → ∀ x u, h.local? a x = some u → u.MadeIn h

namespace Correspondence
variable {c : Correspondence} {roots : Set FrameId} {h k : Heap}

theorem AgreesFrom.mirrors (hc : c.AgreesFrom roots h k) :
    Heap.Mirrors c (c.reached h roots) h k := by
  constructor
  · exact ⟨hc.between.frames.mono fun _ _ hab => hab.elim id And.right,
      hc.between.closures.mono fun _ _ hij => hij.elim id id⟩
  · rintro a b ⟨⟨r, hr, hreach⟩, hab⟩
    obtain ⟨hb, ho⟩ := hc.agrees r hr a b hreach hab
    constructor
    · intro x
      have hx := hb x
      generalize hv : h.local? a x = v, k.local? b x = w at hx ⊢
      cases hx with
      | none => exact .none
      | some hvw =>
        refine .some (hvw.imp_of_closure? ?_)
        intro f g hf hfg
        exact ⟨hfg.id, ⟨⟨r, hr, hreach.tail (.home hv ⟨f, hf, rfl⟩)⟩, hfg.home⟩, hfg.parameters,
          hfg.body⟩
    · generalize ha : h.around? a = o, k.around? b = o' at ho ⊢
      cases ho with
      | none => exact .none
      | some ho => exact .some ⟨⟨r, hr, hreach.tail (.around ha)⟩, ho⟩

theorem Between.madeIn {v w : Value} (hc : c.Between h k) (hvw : v.Corresponds c w) :
    v.MadeIn h := by
  intro f hf
  have hfg := Value.Rel.closure? hvw
  rw [hf] at hfg
  generalize w.closure? = g at hfg
  cases hfg with
  | some hfg => exact ⟨(hc.closures.lt _ _ hfg.id).1, (hc.frames.lt _ _ hfg.home).1⟩

/-- A heap holds the values that have a counterpart. -/
theorem AgreesFrom.holds {v w : Value} (hc : c.AgreesFrom roots h k) (hvw : v.Corresponds c w)
    (hv : v.homes ⊆ roots) : h.Holds v := by
  refine ⟨hc.between.madeIn hvw, ?_⟩
  rintro r hr a hreach x u hu
  obtain ⟨s, -, hrs⟩ := hvw.exists_frame hr
  obtain ⟨b, hab⟩ := exists_frame_of_reaches (fun a b => hc.agrees r (hv hr) a b) hrs hreach
  have hx := (hc.agrees r (hv hr) a b hreach hab).bindings x
  rw [hu] at hx
  generalize k.local? b x = u' at hx
  cases hx with
  | some huu => exact hc.between.madeIn huu

/-- Every frame and every function of a heap is its own counterpart. -/
def same (h : Heap) : Correspondence where
  frame a b := a = b ∧ a < h.frames.size
  closure i j := i = j ∧ i < h.closures

end Correspondence

theorem Correspondence.Between.le_of_same_le {c : Correspondence} {h k l : Heap}
    (hc : c.Between k l) (hle : same h ≤ c) :
    h.frames.size ≤ k.frames.size ∧ h.closures ≤ k.closures :=
  ⟨le_of_forall_lt fun a ha => (hc.frames.lt a a (hle.1 a a ⟨rfl, ha⟩)).1,
    le_of_forall_lt fun i hi => (hc.closures.lt i i (hle.2 i i ⟨rfl, hi⟩)).1⟩

theorem Value.MadeIn.corresponds {h : Heap} {v : Value} (hv : v.MadeIn h) :
    v.Corresponds (.same h) v := by
  induction v with
  | int n => exact .int n
  | bool b => exact .bool b
  | null => exact .null
  | function f =>
    obtain ⟨hid, hhome⟩ := hv f rfl
    exact .function ⟨⟨rfl, hid⟩, ⟨rfl, hhome⟩, rfl, rfl⟩
  | returned v ih => exact .returned (ih hv)
  | error e => exact .error e

namespace Correspondence
variable {roots : Set FrameId} {h k : Heap}

/-- The frames that a heap has keep their values and outer frames in a heap that only adds to it. -/
theorem AgreesFrom.same (hsize : h.frames.size ≤ k.frames.size) (hclosures : h.closures ≤ k.closures)
    (hkeep : ∀ (a : FrameId) f, h.frames[a]? = some f → k.frames[a]? = some f)
    (hmade : ∀ r ∈ roots, ∀ a, h.Reaches r a → ∀ x u, h.local? a x = some u → u.MadeIn h) :
    (Correspondence.same h).AgreesFrom roots h k := by
  refine ⟨⟨.same hsize, .same hclosures⟩, ?_⟩
  rintro r hr a b hreach ⟨rfl, ha⟩
  have hf : k.frames[a]? = h.frames[a]? := by
    rw [Array.getElem?_eq_getElem ha, hkeep a _ (Array.getElem?_eq_getElem ha)]
  constructor
  · intro x
    rw [show k.local? a x = h.local? a x by rw [Heap.local?, hf, Heap.local?]]
    cases hx : h.local? a x with
    | none => exact .none
    | some u => exact .some (hmade r hr a hreach x u hx).corresponds
  · rw [show k.around? a = h.around? a by rw [Heap.around?, Heap.outer?, hf]; rfl]
    cases ho : h.around? a with
    | none => exact .none
    | some o => exact .some ⟨rfl, Nat.lt_trans (Heap.lt_of_around? ho) ha⟩

end Correspondence
end MonkeyLang
