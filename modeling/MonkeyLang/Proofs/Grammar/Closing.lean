import Mathlib.Logic.Relation
import MonkeyLang.Proofs.Grammar.Acceptance
import MonkeyLang.Proofs.Token.Layout

/-! Blocks that the end of the input closes. Closing braces put behind an error-free text close them
one by one, from the inside, and change nothing else. -/
namespace MonkeyLang

namespace Token

/-- How many more braces open than close. -/
def depth (ts : List Token) : Int :=
  ts.count (.symbol .leftBrace) - ts.count (.symbol .rightBrace)

@[simp] theorem depth_nil : depth [] = 0 := rfl

@[simp] theorem depth_append (ts us : List Token) : depth (ts ++ us) = depth ts + depth us := by
  simp only [depth, List.count_append]
  omega

/-- Closing braces. -/
def braces (j : Nat) : List Token := List.replicate j (.symbol .rightBrace)

@[simp] theorem depth_braces (j : Nat) : depth (braces j) = -j := by
  simp [depth, braces, List.count_replicate]

theorem braces_add (i j : Nat) : braces (i + j) = braces i ++ braces j :=
  List.replicate_add i j _

end Token

namespace Grammar
open Token Relation

/-- `R` reads some tokens and leaves others, which changes the depth by `-inside` and by `n` blocks
that the end of the input closes. Up to `n` closing braces may be added at the end. They are read as
well, and only behind all of them can something else be left. -/
structure Closes (E : List Token → Prop) (R : List Token → List Token → Prop) (inside : Int)
    (ts rest : List Token) (n : Nat) : Prop where
  depth : depth ts + inside = depth rest + n
  cut : rest ≠ [] → n = 0
  length : rest.length ≤ ts.length
  append : rest ≠ [] → ∀ more, R (ts ++ more) (rest ++ more)
  close : rest = [] → ∀ j more, j ≤ n → (j < n → more = []) → E more →
    R (ts ++ (braces j ++ more)) more

namespace Closes
variable {E : List Token → Prop} {R S : List Token → List Token → Prop} {a b : Int}
  {ts mid rest : List Token} {m n : Nat}

theorem imp (h : Closes E R a ts rest n) (hRS : ∀ ts rest, R ts rest → S ts rest)
    (hab : a = b := by rfl) : Closes E S b ts rest n where
  depth := hab ▸ h.depth
  cut := h.cut
  length := h.length
  append hr more := hRS _ _ (h.append hr more)
  close hr j more hj hm he := hRS _ _ (h.close hr j more hj hm he)

/-- One after the other. The braces are first read by `R`, as far as it has open blocks. -/
theorem comp (h : Closes Ends R a ts mid m) (h' : Closes E S b mid rest n)
    (hE : ∀ more, E more → Ends more := by exact fun _ h => h) :
    Closes E (Comp R S) (a + b) ts rest (m + n) := by
  have hd := h.depth
  have hd' := h'.depth
  have hmid (hr : rest ≠ []) : mid ≠ [] := by
    rintro rfl
    exact hr (List.eq_nil_of_length_eq_zero (Nat.le_zero.mp h'.length))
  refine ⟨by omega, ?_, h'.length.trans h.length, ?_, ?_⟩
  · intro hr
    rw [h.cut (hmid hr), h'.cut hr]
  · intro hr more
    exact ⟨_, h.append (hmid hr) more, h'.append hr more⟩
  · intro hr j more hj hmore he
    by_cases hm : mid = []
    · subst hm
      by_cases hjm : j ≤ m
      · by_cases hall : j = m + n
        · obtain ⟨rfl, rfl⟩ : j = m ∧ n = 0 := by omega
          exact ⟨more, h.close rfl j more hj (by omega) (hE more he),
            h'.close hr 0 more le_rfl (by omega) he⟩
        · obtain rfl := hmore (by omega)
          exact ⟨[], h.close rfl j [] hjm (fun _ => rfl) (hE [] he),
            h'.close hr 0 [] (Nat.zero_le n) (fun _ => rfl) he⟩
      · obtain ⟨i, rfl⟩ := Nat.exists_eq_add_of_le (Nat.le_of_not_le hjm)
        have hends : Ends (braces i ++ more) := by
          cases i with
          | zero => omega
          | succ i => exact .inr rfl
        refine ⟨braces i ++ more, ?_, h'.close hr i more (by omega) (fun hi => hmore (by omega)) he⟩
        rw [braces_add, List.append_assoc]
        exact h.close rfl m _ le_rfl (by omega) hends
    · obtain rfl := h.cut hm
      refine ⟨mid ++ (braces j ++ more), h.append hm _, h'.close hr j more (by omega) ?_ he⟩
      intro hjn
      exact hmore (by omega)

/-- Given tokens, one after the other. -/
theorem tokens (ws rest : List Token) :
    Closes E (fun ts rest => ts = ws ++ rest) (-Token.depth ws) (ws ++ rest) rest 0 := by
  refine ⟨?_, fun _ => rfl, by simp, fun _ more => List.append_assoc ws rest more, ?_⟩
  · rw [depth_append]
    omega
  · rintro rfl j more hj - -
    obtain rfl := Nat.le_zero.mp hj
    simp [braces]

/-- A given token. -/
theorem single (t : Token) (rest : List Token) (hR : ∀ rest, R (t :: rest) rest)
    (ha : a = -Token.depth [t] := by rfl) : Closes E R a (t :: rest) rest 0 := by
  refine (tokens [t] rest).imp ?_ ha.symm
  rintro _ rest rfl
  exact hR rest

/-- Behind given tokens. -/
theorem behind (ws : List Token) (h : Closes E S b ts rest n)
    (hR : ∀ ts rest, S ts rest → R (ws ++ ts) rest) (ha : a = -Token.depth ws + b := by rfl)
    (hE : ∀ more, E more → Ends more := by exact fun _ h => h) :
    Closes E R a (ws ++ ts) rest n := by
  have hc := ((tokens ws ts).comp h hE).imp (S := R) (b := a) ?_ ha.symm
  · rwa [Nat.zero_add] at hc
  · rintro _ rest ⟨_, rfl, hs⟩
    exact hR _ rest hs

/-- Nothing is read, in front of something that `P` admits. -/
theorem guard {P : List Token → Prop} {ts : List Token} (hts : P ts)
    (happend : ∀ t us more, P (t :: us) → P (t :: us ++ more))
    (hends : ∀ more, Ends more → P more) :
    Closes Ends (fun ts rest => ts = rest ∧ P rest) 0 ts ts 0 := by
  refine ⟨by simp, fun _ => rfl, le_rfl, ?_, ?_⟩
  · intro hne more
    obtain ⟨t, us, rfl⟩ := List.exists_cons_of_ne_nil hne
    exact ⟨rfl, happend t us more hts⟩
  · rintro rfl j more hj - he
    obtain rfl := Nat.le_zero.mp hj
    exact ⟨rfl, hends more he⟩

theorem head?_ne {t : Token} (ht : t ≠ .symbol .rightBrace) {ts : List Token}
    (hts : ts.head? ≠ some t) :
    Closes Ends (fun ts rest => ts = rest ∧ rest.head? ≠ some t) 0 ts ts 0 := by
  refine guard hts (fun _ _ _ => id) ?_
  rintro more (rfl | he)
  · simp
  · simpa [he] using ht.symm

theorem skip (ts : List Token) :
    Closes Ends (fun ts rest => rest = Token.skip (.symbol .semicolon) ts) 0 ts
      (Token.skip (.symbol .semicolon) ts) 0 := by
  by_cases ht : ts.head? = some (.symbol .semicolon)
  · obtain ⟨us, rfl⟩ := List.head?_eq_some_iff.mp ht
    refine (tokens [.symbol .semicolon] us).imp ?_
    rintro _ rest rfl
    rfl
  · rw [Token.skip_of_head?_ne ht]
    refine (head?_ne (by decide) ht).imp ?_
    rintro _ rest ⟨rfl, hrest⟩
    exact (Token.skip_of_head?_ne hrest).symm

end Closes

/-- How many blocks a phrase is the inside of. -/
def Phrase.inside : Phrase → Int
  | statements inBlock _ => if inBlock then 1 else 0
  | _ => 0

/-- What may be left behind the braces that are added to a phrase. A program leaves nothing. -/
def Phrase.Boundary : Phrase → List Token → Prop
  | statements inBlock _, ts => if inBlock then Ends ts else ts = []
  | _, ts => Ends ts

theorem Phrase.Boundary.ends : {φ : Phrase} → {ts : List Token} → φ.Boundary ts → Ends ts
  | statements false _, _, h => .inl h
  | statements true _, _, h => h
  | operand _, _, h | expression _ _, _, h | operators _ _ _, _, h | arguments _, _, h
  | moreArguments _, _, h | sentence _, _, h => h

theorem depth_names (xs : List String) : Token.depth (names xs) = 0 := by
  cases xs with
  | nil => rfl
  | cons x xs =>
    have hcount (s : Symbol) (hs : s ≠ .comma) : (names (x :: xs)).count (.symbol s) = 0 := by
      rw [names_cons, List.count_eq_zero]
      simpa using fun _ _ => hs
    simp [Token.depth, hcount]

theorem Reads.exists_closes {φ : Phrase} {ts rest : List Token} (h : Reads φ ts rest) :
    ∃ n, Closes φ.Boundary (Reads φ) φ.inside ts rest n := by
  induction h with
  | name => exact ⟨0, .single _ _ fun _ => .name⟩
  | int hn => exact ⟨0, .single _ _ fun _ => .int hn⟩
  | true => exact ⟨0, .single _ _ fun _ => .true⟩
  | false => exact ⟨0, .single _ _ fun _ => .false⟩
  | @unary op e ts rest _ ih =>
    obtain ⟨n, he⟩ := ih
    exact ⟨n, he.behind [.symbol op.symbol] (fun _ _ he => .unary he) (by cases op <;> rfl)⟩
  | @group e ts rest _ ih =>
    obtain ⟨n, he⟩ := ih
    have hend := he.comp (.tokens [.symbol .rightParen] rest)
    refine ⟨_, hend.behind [.symbol .leftParen] ?_⟩
    rintro _ rest ⟨_, he, rfl⟩
    exact .group he
  | @ifThen c body ts us rest _ _ hn ihc ihb =>
    obtain ⟨m, hc⟩ := ihc
    obtain ⟨n, hb⟩ := ihb
    have hend := hb.comp (.head?_ne (by decide) hn)
    have hbody := (Closes.tokens [.symbol .rightParen, .symbol .leftBrace] us).comp hend
    refine ⟨_, (hc.comp hbody).behind [.keyword .ifKw, .symbol .leftParen] ?_⟩
    rintro _ rest ⟨_, hc, _, rfl, _, hb, rfl, hn⟩
    exact .ifThen hc hb hn
  | @ifElse c body other ts us vs rest _ _ _ ihc ihb iho =>
    obtain ⟨l, hc⟩ := ihc
    obtain ⟨m, hb⟩ := ihb
    obtain ⟨n, ho⟩ := iho
    have hother := (Closes.tokens [.keyword .elseKw, .symbol .leftBrace] vs).comp ho
    have hbody := (Closes.tokens [.symbol .rightParen, .symbol .leftBrace] us).comp
      (hb.comp hother)
    refine ⟨_, (hc.comp hbody).behind [.keyword .ifKw, .symbol .leftParen] ?_⟩
    rintro _ rest ⟨_, hc, _, rfl, _, hb, _, rfl, ho⟩
    exact .ifElse hc hb ho
  | @function xs body ts rest _ ih =>
    obtain ⟨n, hb⟩ := ih
    have hbody := (Closes.tokens [.symbol .rightParen, .symbol .leftBrace] ts).comp hb
    have hxs := (Closes.tokens (names xs) _).comp hbody
    refine ⟨_, hxs.behind [.keyword .fnKw, .symbol .leftParen] ?_ ?_⟩
    · rintro _ rest ⟨_, rfl, _, rfl, hb⟩
      exact .function hb
    · rw [depth_names]
      rfl
  | expression _ _ ihl ihe =>
    obtain ⟨m, hl⟩ := ihl
    obtain ⟨n, he⟩ := ihe
    refine ⟨_, (hl.comp he).imp ?_⟩
    rintro _ rest ⟨_, hl, he⟩
    exact .expression hl he
  | @halt p e ts hh =>
    have happend (t : Token) (us more : List Token) (h : Halts p (t :: us)) :
        Halts p (t :: us ++ more) := by
      cases t <;> exact h
    refine ⟨0, (Closes.guard hh happend fun _ => Ends.halts).imp ?_⟩
    rintro _ rest ⟨rfl, hh⟩
    exact .halt hh
  | @call p left as e ts mid rest hp _ _ iha ihe =>
    obtain ⟨m, ha⟩ := iha
    obtain ⟨n, he⟩ := ihe
    refine ⟨_, (ha.comp he).behind [.symbol .leftParen] ?_⟩
    rintro _ rest ⟨_, ha, he⟩
    exact .call hp ha he
  | @binary p left op right e ts mid rest hp _ _ ihr ihe =>
    obtain ⟨m, hr⟩ := ihr
    obtain ⟨n, he⟩ := ihe
    refine ⟨_, (hr.comp he).behind [.symbol op.symbol] ?_ (by cases op <;> rfl)⟩
    rintro _ rest ⟨_, hr, he⟩
    exact .binary hp hr he
  | noArguments => exact ⟨0, .single _ _ fun _ => .noArguments⟩
  | arguments _ _ iha ihas =>
    obtain ⟨m, ha⟩ := iha
    obtain ⟨n, has⟩ := ihas
    refine ⟨_, (ha.comp has).imp ?_⟩
    rintro _ rest ⟨_, ha, has⟩
    exact .arguments ha has
  | lastArgument => exact ⟨0, .single _ _ fun _ => .lastArgument⟩
  | nextArgument _ _ iha ihas =>
    obtain ⟨m, ha⟩ := iha
    obtain ⟨n, has⟩ := ihas
    refine ⟨_, (ha.comp has).behind [.symbol .comma] ?_⟩
    rintro _ rest ⟨_, ha, has⟩
    exact .nextArgument ha has
  | @define x e ts rest _ ih =>
    obtain ⟨n, he⟩ := ih
    exact ⟨n, he.behind [.keyword .letKw, .name x, .symbol .equal] fun _ _ he => .define he⟩
  | ret _ ih =>
    obtain ⟨n, he⟩ := ih
    exact ⟨n, he.behind [.keyword .returnKw] fun _ _ he => .ret he⟩
  | @retBare ts hb =>
    have hends (more : List Token) (he : Ends more) : endsReturn more = Bool.true := by
      rcases he with rfl | he
      · rfl
      · obtain ⟨us, rfl⟩ := List.head?_eq_some_iff.mp he
        rfl
    have hguard := Closes.guard (P := (endsReturn · = Bool.true)) hb (fun _ _ _ => id) hends
    refine ⟨_, hguard.behind [.keyword .returnKw] ?_⟩
    rintro _ rest ⟨rfl, hb⟩
    exact .retBare hb
  | expr _ ih =>
    obtain ⟨n, he⟩ := ih
    exact ⟨n, he.imp fun _ _ he => .expr he⟩
  | @endOfInput inBlock =>
    cases inBlock with
    | false =>
      refine ⟨0, rfl, fun _ => rfl, le_rfl, fun h => (h rfl).elim, ?_⟩
      rintro - j more hj - rfl
      obtain rfl := Nat.le_zero.mp hj
      exact .endOfInput
    | true =>
      refine ⟨1, rfl, fun h => (h rfl).elim, le_rfl, fun h => (h rfl).elim, ?_⟩
      rintro - (_ | j) more hj hmore -
      · obtain rfl := hmore Nat.zero_lt_one
        exact .endOfInput
      · obtain rfl := Nat.le_zero.mp (Nat.le_of_succ_le_succ hj)
        exact .endOfBlock
  | endOfBlock => exact ⟨0, .single _ _ fun _ => .endOfBlock⟩
  | @statement inBlock s ss ts mid rest _ _ ihs ihss =>
    obtain ⟨m, hs⟩ := ihs
    obtain ⟨n, hss⟩ := ihss
    have hrest := (Closes.skip mid).comp hss fun _ => Phrase.Boundary.ends
    refine ⟨_, (hs.comp hrest fun _ => Phrase.Boundary.ends).imp ?_ ?_⟩
    · rintro _ rest ⟨_, hs, _, rfl, hss⟩
      exact .statement hs hss
    · simp [Phrase.inside]

end Grammar

theorem Token.scanChars_braces (j : Nat) : scanChars (List.replicate j '\x7d') = braces j := by
  refine scanChars_of_written ?_
  induction j with
  | zero => exact .nil
  | succ j ih => exact .symbol ih

/-- Closing braces behind a text are tokens of their own. -/
theorem Token.scan_append_braces (source : String) (j : Nat) :
    scan (source ++ String.ofList (List.replicate j '\x7d')) = scan source ++ braces j := by
  rw [scan_append, scan, scan, String.toList_ofList, scanChars_braces]
  intro t _
  rw [String.toList_ofList]
  cases j with
  | zero =>
    intro c hc
    cases hc
  | succ j => exact endsBefore_of_apart (apart_symbol (s := .rightBrace) (by decide) _)

/-- An error-free text has as many blocks left open as it has more braces that open than braces that
close. So many closing braces and no more may be put behind it, and they do not change the
program. -/
theorem Program.ofText?_append_braces {source : String} {p : Program} (h : ofText? source = .ok p) :
    0 ≤ Token.depth (Token.scan source) ∧
    ∀ j : Nat,
      ((∃ q, ofText? (source ++ String.ofList (List.replicate j '\x7d')) = .ok q) ↔
        j ≤ Token.depth (Token.scan source)) ∧
      (j ≤ Token.depth (Token.scan source) →
        ofText? (source ++ String.ofList (List.replicate j '\x7d')) = .ok p) := by
  have hdepth {source : String} {p : Program} (h : ofText? source = .ok p) :
      0 ≤ Token.depth (Token.scan source) := by
    obtain ⟨n, hc⟩ := (Program.ofText?_eq_ok_iff.mp h).exists_closes
    have hd : Token.depth (Token.scan source) + 0 = 0 + n := hc.depth
    omega
  have hclose (j : Nat) (hj : j ≤ Token.depth (Token.scan source)) :
      ofText? (source ++ String.ofList (List.replicate j '\x7d')) = .ok p := by
    obtain ⟨n, hc⟩ := (Program.ofText?_eq_ok_iff.mp h).exists_closes
    have hd : Token.depth (Token.scan source) + 0 = 0 + n := hc.depth
    have hr := hc.close rfl j [] (by omega) (fun _ => rfl) rfl
    rwa [List.append_nil, ← Token.scan_append_braces, ← Program.ofText?_eq_ok_iff] at hr
  refine ⟨hdepth h, fun j => ⟨⟨?_, fun hj => ⟨p, hclose j hj⟩⟩, hclose j⟩⟩
  rintro ⟨q, hq⟩
  have hd := hdepth hq
  rw [Token.scan_append_braces, Token.depth_append, Token.depth_braces] at hd
  omega

/-- A text that ends inside two blocks. -/
def bareReturnInBlocks : String := "f(1); fn(a) \x7b if (a) \x7b return"

theorem Program.ofText?_append_braces_bareReturnInBlocks :
    ∃ p : Program, p = [.expr (.call (.name "f") [.int 1]),
        .expr (.function ["a"] [.expr (.ifThen (.name "a") [.retBare])])] ∧
      ofText? bareReturnInBlocks = .ok p ∧ Token.depth (Token.scan bareReturnInBlocks) = 2 ∧
      ofText? (bareReturnInBlocks ++ "\x7d") = .ok p ∧
      ofText? (bareReturnInBlocks ++ "\x7d\x7d") = .ok p ∧
      ¬ ∃ q, ofText? (bareReturnInBlocks ++ "\x7d\x7d\x7d") = .ok q := by
  have h : ofText? bareReturnInBlocks = .ok [.expr (.call (.name "f") [.int 1]),
      .expr (.function ["a"] [.expr (.ifThen (.name "a") [.retBare])])] := by
    with_unfolding_all rfl
  have hd : Token.depth (Token.scan bareReturnInBlocks) = 2 := by with_unfolding_all rfl
  obtain ⟨-, hbraces⟩ := ofText?_append_braces h
  rw [hd] at hbraces
  refine ⟨_, rfl, h, hd, (hbraces 1).2 (by decide), (hbraces 2).2 (by decide), ?_⟩
  have hthree := (hbraces 3).1.not.mpr (by decide)
  exact hthree

end MonkeyLang
