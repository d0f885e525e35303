import MonkeyLang.Proofs.Syntax.Fragment

/-! Renaming inside one function literal: where the literal stands in a program, one of its
parameters may be replaced everywhere in it by a name that does not occur in it. -/
namespace MonkeyLang

/-- The name that stands for `z` when `x` is renamed to `y`. -/
def renamed (x y z : String) : String := if z = x then y else z

mutual
/-- Replaces a name everywhere: as parameter, as the name of a `let` and where it is used. -/
def Expr.rename (x y : String) : Expr → Expr
  | .name z => .name (renamed x y z)
  | .int n => .int n
  | .bool b => .bool b
  | .unary op e => .unary op (e.rename x y)
  | .binary l op r => .binary (l.rename x y) op (r.rename x y)
  | .ifThen c body => .ifThen (c.rename x y) (Stmt.renameEach x y body)
  | .ifElse c body other =>
    .ifElse (c.rename x y) (Stmt.renameEach x y body) (Stmt.renameEach x y other)
  | .function xs body => .function (xs.map (renamed x y)) (Stmt.renameEach x y body)
  | .call f as => .call (f.rename x y) (Expr.renameEach x y as)

def Stmt.rename (x y : String) : Stmt → Stmt
  | .define z e => .define (renamed x y z) (e.rename x y)
  | .ret e => .ret (e.rename x y)
  | .retBare => .retBare
  | .expr e => .expr (e.rename x y)

def Expr.renameEach (x y : String) : List Expr → List Expr
  | [] => []
  | e :: es => e.rename x y :: Expr.renameEach x y es

def Stmt.renameEach (x y : String) : List Stmt → List Stmt
  | [] => []
  | s :: ss => s.rename x y :: Stmt.renameEach x y ss
end

mutual
/-- Every name that occurs, as parameter, as the name of a `let` or where it is used. -/
def Expr.names : Expr → List String
  | .name z => [z]
  | .int _ => []
  | .bool _ => []
  | .unary _ e => e.names
  | .binary l _ r => l.names ++ r.names
  | .ifThen c body => c.names ++ Stmt.namesEach body
  | .ifElse c body other => c.names ++ (Stmt.namesEach body ++ Stmt.namesEach other)
  | .function xs body => xs ++ Stmt.namesEach body
  | .call f as => f.names ++ Expr.namesEach as

def Stmt.names : Stmt → List String
  | .define z e => z :: e.names
  | .ret e => e.names
  | .retBare => []
  | .expr e => e.names

def Expr.namesEach : List Expr → List String
  | [] => []
  | e :: es => e.names ++ Expr.namesEach es

def Stmt.namesEach : List Stmt → List String
  | [] => []
  | s :: ss => s.names ++ Stmt.namesEach ss
end

mutual
/-- Every function literal that occurs, also inside others. -/
def Expr.literals : Expr → List Expr
  | .name _ => []
  | .int _ => []
  | .bool _ => []
  | .unary _ e => e.literals
  | .binary l _ r => l.literals ++ r.literals
  | .ifThen c body => c.literals ++ Stmt.literalsEach body
  | .ifElse c body other => c.literals ++ (Stmt.literalsEach body ++ Stmt.literalsEach other)
  | .function xs body => .function xs body :: Stmt.literalsEach body
  | .call f as => f.literals ++ Expr.literalsEach as

def Stmt.literals : Stmt → List Expr
  | .define _ e => e.literals
  | .ret e => e.literals
  | .retBare => []
  | .expr e => e.literals

def Expr.literalsEach : List Expr → List Expr
  | [] => []
  | e :: es => e.literals ++ Expr.literalsEach es

def Stmt.literalsEach : List Stmt → List Expr
  | [] => []
  | s :: ss => s.literals ++ Stmt.literalsEach ss
end

/-- A fragment with a name replaced everywhere. -/
def Fragment.rename (x y : String) : Fragment → Fragment
  | expr e => expr (e.rename x y)
  | exprs es => exprs (Expr.renameEach x y es)
  | stmt s => stmt (s.rename x y)
  | stmts ss => stmts (Stmt.renameEach x y ss)

/-- A function literal, one of its parameters, and a name for it that does not occur in the
literal. -/
structure Rebinding where
  parameters : List String
  body : List Stmt
  old : String
  new : String
  old_mem : old ∈ parameters
  new_not_mem : new ∉ (Expr.function parameters body).names

/-- Outside the literal names stay as they are, inside it one is renamed. -/
inductive Side
  | outside | inside

namespace Rebinding
variable (r : Rebinding)

def literal : Expr := .function r.parameters r.body

/-- The name that stands for another on a side. -/
def name : Side → String → String
  | .outside, z => z
  | .inside, z => renamed r.old r.new z

/-- On the inside the new name does not occur. -/
def Allows (side : Side) (z : String) : Prop := side = .inside → z ≠ r.new

/-- On the inside there are only literals nested in the literal. -/
def Holds (side : Side) (l : Expr) : Prop := side = .inside → l ∈ r.literal.literals

variable {r} {side : Side} {z : String}

theorem allows_outside (z : String) : r.Allows .outside z := nofun

theorem name_inj {w : String} (hz : r.Allows side z) (hw : r.Allows side w) :
    r.name side z = r.name side w ↔ z = w := by
  cases side with
  | outside => exact Iff.rfl
  | inside =>
    have hz := hz rfl
    have hw := hw rfl
    simp only [name, renamed]
    grind

theorem name_of_ne (h : z ≠ r.old) : r.name side z = z := by
  cases side with
  | outside => rfl
  | inside => exact if_neg h

end Rebinding

/-- `Renaming r side φ ψ`: on the outside, `ψ` is `φ` with the parameter renamed in some of the
places where the literal stands in it; on the inside, `φ` is a fragment of the literal, and `ψ` is
`φ` with the parameter renamed everywhere. -/
inductive Renaming (r : Rebinding) : Side → Fragment → Fragment → Prop
  | literal :
      Renaming r .outside (.expr (.function r.parameters r.body))
        (.expr (r.literal.rename r.old r.new))
  | name {side z} : r.Allows side z →
      Renaming r side (.expr (.name z)) (.expr (.name (r.name side z)))
  | int {side n} : Renaming r side (.expr (.int n)) (.expr (.int n))
  | bool {side b} : Renaming r side (.expr (.bool b)) (.expr (.bool b))
  | unary {side op e e'} : Renaming r side (.expr e) (.expr e') →
      Renaming r side (.expr (.unary op e)) (.expr (.unary op e'))
  | binary {side a a' op b b'} : Renaming r side (.expr a) (.expr a') →
      Renaming r side (.expr b) (.expr b') →
      Renaming r side (.expr (.binary a op b)) (.expr (.binary a' op b'))
  | ifThen {side c c' b b'} : Renaming r side (.expr c) (.expr c') →
      Renaming r side (.stmts b) (.stmts b') →
      Renaming r side (.expr (.ifThen c b)) (.expr (.ifThen c' b'))
  | ifElse {side c c' b b' o o'} : Renaming r side (.expr c) (.expr c') →
      Renaming r side (.stmts b) (.stmts b') → Renaming r side (.stmts o) (.stmts o') →
      Renaming r side (.expr (.ifElse c b o)) (.expr (.ifElse c' b' o'))
  | function {side zs b b'} : (∀ z ∈ zs, r.Allows side z) → r.Holds side (.function zs b) →
      Renaming r side (.stmts b) (.stmts b') →
      Renaming r side (.expr (.function zs b)) (.expr (.function (zs.map (r.name side)) b'))
  | call {side f f' as as'} : Renaming r side (.expr f) (.expr f') →
      Renaming r side (.exprs as) (.exprs as') →
      Renaming r side (.expr (.call f as)) (.expr (.call f' as'))
  | define {side z e e'} : r.Allows side z → Renaming r side (.expr e) (.expr e') →
      Renaming r side (.stmt (.define z e)) (.stmt (.define (r.name side z) e'))
  | ret {side e e'} : Renaming r side (.expr e) (.expr e') →
      Renaming r side (.stmt (.ret e)) (.stmt (.ret e'))
  | retBare {side} : Renaming r side (.stmt .retBare) (.stmt .retBare)
  | alone {side e e'} : Renaming r side (.expr e) (.expr e') →
      Renaming r side (.stmt (.expr e)) (.stmt (.expr e'))
  | noExprs {side} : Renaming r side (.exprs []) (.exprs [])
  | exprs {side e e' es es'} : Renaming r side (.expr e) (.expr e') →
      Renaming r side (.exprs es) (.exprs es') →
      Renaming r side (.exprs (e :: es)) (.exprs (e' :: es'))
  | noStmts {side} : Renaming r side (.stmts []) (.stmts [])
  | stmts {side s s' ss ss'} : Renaming r side (.stmt s) (.stmt s') →
      Renaming r side (.stmts ss) (.stmts ss') →
      Renaming r side (.stmts (s :: ss)) (.stmts (s' :: ss'))

namespace Renaming
variable {r : Rebinding} {side : Side}

theorem refl_function {zs : List String} {b : List Stmt}
    (h : Renaming r .outside (.stmts b) (.stmts b)) :
    Renaming r .outside (.expr (.function zs b)) (.expr (.function zs b)) := by
  have hzs : zs.map (r.name .outside) = zs := List.map_id zs
  have hf : Renaming r .outside (.expr (.function zs b))
      (.expr (.function (zs.map (r.name .outside)) b)) :=
    .function (fun z _ => r.allows_outside z) nofun h
  rwa [hzs] at hf

mutual
/-- Renaming in no place at all. -/
theorem refl_expr : (e : Expr) → Renaming r .outside (.expr e) (.expr e)
  | .name z => .name (r.allows_outside z)
  | .int _ => .int
  | .bool _ => .bool
  | .unary _ e => .unary (refl_expr e)
  | .binary a _ b => .binary (refl_expr a) (refl_expr b)
  | .ifThen c b => .ifThen (refl_expr c) (refl_stmts b)
  | .ifElse c b o => .ifElse (refl_expr c) (refl_stmts b) (refl_stmts o)
  | .function _ b => refl_function (refl_stmts b)
  | .call f as => .call (refl_expr f) (refl_exprs as)

theorem refl_stmt : (s : Stmt) → Renaming r .outside (.stmt s) (.stmt s)
  | .define z e => .define (r.allows_outside z) (refl_expr e)
  | .ret e => .ret (refl_expr e)
  | .retBare => .retBare
  | .expr e => .alone (refl_expr e)

theorem refl_exprs : (es : List Expr) → Renaming r .outside (.exprs es) (.exprs es)
  | [] => .noExprs
  | e :: es => .exprs (refl_expr e) (refl_exprs es)

theorem refl_stmts : (ss : List Stmt) → Renaming r .outside (.stmts ss) (.stmts ss)
  | [] => .noStmts
  | s :: ss => .stmts (refl_stmt s) (refl_stmts ss)
end

mutual
/-- Renaming everywhere in a fragment of the literal. -/
theorem inside_expr : (e : Expr) → r.new ∉ e.names → e.literals ⊆ r.literal.literals →
    Renaming r .inside (.expr e) (.expr (e.rename r.old r.new))
  | .name z, hy, _ => .name fun _ h => hy (by simp [Expr.names, h])
  | .int _, _, _ => .int
  | .bool _, _, _ => .bool
  | .unary _ e, hy, hl => .unary (inside_expr e hy hl)
  | .binary a _ b, hy, hl => by
    simp only [Expr.names, List.mem_append, not_or] at hy
    obtain ⟨ha, hb⟩ := List.append_subset.mp hl
    exact .binary (inside_expr a hy.1 ha) (inside_expr b hy.2 hb)
  | .ifThen c b, hy, hl => by
    simp only [Expr.names, List.mem_append, not_or] at hy
    obtain ⟨hc, hb⟩ := List.append_subset.mp hl
    exact .ifThen (inside_expr c hy.1 hc) (inside_stmts b hy.2 hb)
  | .ifElse c b o, hy, hl => by
    simp only [Expr.names, List.mem_append, not_or] at hy
    obtain ⟨hc, hbo⟩ := List.append_subset.mp hl
    obtain ⟨hb, ho⟩ := List.append_subset.mp hbo
    exact .ifElse (inside_expr c hy.1 hc) (inside_stmts b hy.2.1 hb) (inside_stmts o hy.2.2 ho)
  | .function zs b, hy, hl => by
    simp only [Expr.names, List.mem_append, not_or] at hy
    obtain ⟨hf, hb⟩ := List.cons_subset.mp hl
    exact .function (fun z hz _ h => hy.1 (h ▸ hz)) (fun _ => hf) (inside_stmts b hy.2 hb)
  | .call f as, hy, hl => by
    simp only [Expr.names, List.mem_append, not_or] at hy
    obtain ⟨hf, has⟩ := List.append_subset.mp hl
    exact .call (inside_expr f hy.1 hf) (inside_exprs as hy.2 has)

theorem inside_stmt : (s : Stmt) → r.new ∉ s.names → s.literals ⊆ r.literal.literals →
    Renaming r .inside (.stmt s) (.stmt (s.rename r.old r.new))
  | .define z e, hy, hl => by
    simp only [Stmt.names, List.mem_cons, not_or] at hy
    exact .define (fun _ => Ne.symm hy.1) (inside_expr e hy.2 hl)
  | .ret e, hy, hl => .ret (inside_expr e hy hl)
  | .retBare, _, _ => .retBare
  | .expr e, hy, hl => .alone (inside_expr e hy hl)

theorem inside_exprs : (es : List Expr) → r.new ∉ Expr.namesEach es →
    Expr.literalsEach es ⊆ r.literal.literals →
    Renaming r .inside (.exprs es) (.exprs (Expr.renameEach r.old r.new es))
  | [], _, _ => .noExprs
  | e :: es, hy, hl => by
    simp only [Expr.namesEach, List.mem_append, not_or] at hy
    obtain ⟨he, hes⟩ := List.append_subset.mp hl
    exact .exprs (inside_expr e hy.1 he) (inside_exprs es hy.2 hes)

theorem inside_stmts : (ss : List Stmt) → r.new ∉ Stmt.namesEach ss →
    Stmt.literalsEach ss ⊆ r.literal.literals →
    Renaming r .inside (.stmts ss) (.stmts (Stmt.renameEach r.old r.new ss))
  | [], _, _ => .noStmts
  | s :: ss, hy, hl => by
    simp only [Stmt.namesEach, List.mem_append, not_or] at hy
    obtain ⟨hs, hss⟩ := List.append_subset.mp hl
    exact .stmts (inside_stmt s hy.1 hs) (inside_stmts ss hy.2 hss)
end

/-- On the inside there is one way to rename a fragment. -/
theorem eq_rename {φ ψ : Fragment} (h : Renaming r .inside φ ψ) :
    ψ = φ.rename r.old r.new := by
  generalize hs : Side.inside = side at h
  induction h with
  | literal => cases hs
  | noExprs | noStmts | int | bool | retBare => rfl
  | name _ => subst hs; rfl
  | unary _ ih | ret _ ih | alone _ ih =>
    simpa [Fragment.rename, Expr.rename, Stmt.rename] using ih hs
  | define _ _ ih =>
    subst hs
    simpa [Fragment.rename, Stmt.rename, Rebinding.name] using ih rfl
  | function _ _ _ ih =>
    subst hs
    simpa [Fragment.rename, Expr.rename, Rebinding.name] using ih rfl
  | ifElse _ _ _ ihc ihb iho =>
    have hparts := And.intro (ihc hs) (And.intro (ihb hs) (iho hs))
    simpa [Fragment.rename, Expr.rename] using hparts
  | binary _ _ ih ih' | ifThen _ _ ih ih' | call _ _ ih ih' =>
    have hparts := And.intro (ih hs) (ih' hs)
    simpa [Fragment.rename, Expr.rename] using hparts
  | exprs _ _ ih ih' | stmts _ _ ih ih' =>
    have hparts := And.intro (ih hs) (ih' hs)
    simpa [Fragment.rename, Expr.renameEach, Stmt.renameEach] using hparts

theorem mem_literals {zs : List String} {b : List Stmt} {ψ : Fragment}
    (h : Renaming r .inside (.expr (.function zs b)) ψ) :
    Expr.function zs b ∈ r.literal.literals := by
  cases h with
  | function _ hl _ => exact hl rfl

/-- The bodies of two functions whose literals are related, seen from inside the functions: on the
side the functions are on, or inside the literal if that is the one. -/
theorem enter {zs zs' : List String} {b b' : List Stmt}
    (h : Renaming r side (.expr (.function zs b)) (.expr (.function zs' b'))) :
    ∃ inner, (∀ z ∈ zs, r.Allows inner z) ∧ zs' = zs.map (r.name inner) ∧
      Renaming r inner (.stmts b) (.stmts b') ∧
      (inner = side ∨ side = .outside ∧ inner = .inside ∧ r.old ∈ zs) := by
  cases h with
  | literal =>
    have hy := r.new_not_mem
    simp only [Expr.names, List.mem_append, not_or] at hy
    have hl : Stmt.literalsEach r.body ⊆ r.literal.literals := List.subset_cons_self _ _
    refine ⟨.inside, fun z hz _ h => hy.1 (h ▸ hz), rfl, inside_stmts r.body hy.2 hl, ?_⟩
    exact .inr ⟨rfl, rfl, r.old_mem⟩
  | function hzs _ hb => exact ⟨side, hzs, rfl, hb, .inl rfl⟩

end Renaming
end MonkeyLang
