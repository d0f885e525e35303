import MonkeyLang.Proofs.Token.Written

/-! The tokens of a text are the longest lexemes that it has from the left, with nothing but blanks
around them. -/
namespace MonkeyLang

/-- The texts that are lexemes wherever they stand: runs of letters, runs of digits, and symbols. -/
inductive Lexeme : List Char → Prop
  | letters {w} : w ≠ [] → (∀ c ∈ w, isLetter c = true) → Lexeme w
  | digits {w} : w ≠ [] → (∀ c ∈ w, c.isDigit = true) → Lexeme w
  | symbol (s : Symbol) : Lexeme s.text.toList

theorem Lexeme.ne_nil {w : List Char} (h : Lexeme w) : w ≠ [] := by
  cases h with
  | letters hw => exact hw
  | digits hw => exact hw
  | symbol s => cases s <;> decide

namespace Token

/-- A token is the longest lexeme that a text starts with. Where a text starts with none, its first
character is an illegal token. -/
inductive Leads : Token → List Char → Prop
  | longest {t : Token} {cs : List Char} : t.Valid → Lexeme t.lexeme.toList →
      t.lexeme.toList <+: cs → (∀ w, Lexeme w → w <+: cs → w.length ≤ t.lexeme.toList.length) →
      Leads t cs
  | illegal {c : Char} {cs : List Char} : isBlank c = false →
      (∀ w, Lexeme w → ¬ w <+: c :: cs) → Leads (.illegal c) (c :: cs)

/-- A text cut into tokens, with blanks before, between and after them, where each token leads the
text that is left at its place. -/
inductive Munched : List Token → List Char → Prop
  | done {w} : (∀ c ∈ w, isBlank c = true) → Munched [] w
  | token {w t ts cs} : (∀ c ∈ w, isBlank c = true) → t.Leads (t.lexeme.toList ++ cs) →
      Munched ts cs → Munched (t :: ts) (w ++ (t.lexeme.toList ++ cs))

/-- With a character that a token absorbs, its lexeme is a longer one. -/
theorem Absorbs.lexeme {t : Token} {c : Char} (hv : t.Valid) (h : t.Absorbs c) :
    Lexeme (t.lexeme.toList ++ [c]) := by
  have hne : t.lexeme.toList ++ [c] ≠ [] := by simp
  have hrun {p : Char → Bool} (hl : ∀ d ∈ t.lexeme.toList, p d = true) (hc : p c = true) :
      ∀ d ∈ t.lexeme.toList ++ [c], p d = true := by
    intro d hd
    obtain hd | hd := List.mem_append.mp hd
    · exact hl d hd
    · rwa [List.mem_singleton.mp hd]
  cases t with
  | symbol s =>
    cases s with
    | bang =>
      obtain rfl : c = '=' := h
      exact .symbol .bangEqual
    | equal =>
      obtain rfl : c = '=' := h
      exact .symbol .equalEqual
    | _ => exact h.elim
  | keyword k => exact .letters hne (hrun (fun _ => Keyword.isLetter_of_mem_text) h)
  | name x => exact .letters hne (hrun hv.2.1 h)
  | int digits => exact .digits hne (hrun hv.2 h)
  | illegal d => exact h.elim

/-- A lexeme goes on with what its token absorbs, and with nothing else. -/
theorem absorbs_of_lexeme {t : Token} {c : Char} {ds : List Char} (hv : t.Valid)
    (h : Lexeme (t.lexeme.toList ++ c :: ds)) : t.Absorbs c := by
  obtain ⟨d, es, hd⟩ := List.exists_cons_of_ne_nil (lexeme_ne_nil hv)
  have ht : split d es = (t, []) := by
    have he : t.EndsBefore [] := nofun
    simpa using (split_lexeme hv he hd).2
  rw [hd] at h
  generalize hw : d :: es ++ c :: ds = w at h
  have hfront : ∀ e ∈ d :: es, e ∈ w := fun e he => hw ▸ List.mem_append_left _ he
  have hc : c ∈ w := by simp [← hw]
  cases h with
  | letters _ hl =>
    have hend : ∀ e ∈ ([] : List Char).head?, isLetter e ≠ true := nofun
    have hword : split d es = (ofWord (d :: es), []) := by
      simpa using split_word (fun e he => hl e (hfront e he)) hend
    obtain rfl : t = ofWord (d :: es) := congrArg Prod.fst (ht.symm.trans hword)
    unfold ofWord
    split <;> exact hl c hc
  | digits _ hl =>
    have hn : d.isDigit = true := hl d (hfront d List.mem_cons_self)
    rw [split, if_neg (by simp [(classes_of_isDigit hn).2]), if_pos hn] at ht
    obtain rfl := congrArg Prod.fst ht
    exact hl c hc
  | symbol s =>
    -- A symbol that goes on is a bang or an equal sign with an equal sign behind it.
    cases es with
    | nil =>
      cases s with
      | bangEqual =>
        cases hw
        obtain rfl : t = .symbol .bang := congrArg Prod.fst ht.symm
        rfl
      | equalEqual =>
        cases hw
        obtain rfl : t = .symbol .equal := congrArg Prod.fst ht.symm
        rfl
      | _ => cases hw
    | cons e es =>
      have hlen := congrArg List.length hw
      have hs : s.text.toList.length ≤ 2 := by cases s <;> decide
      simp only [List.length_append, List.length_cons] at hlen
      omega

/-- A token ends where its lexeme is the longest that the text starts with. -/
theorem endsBefore_iff {t : Token} {cs : List Char} (hv : t.Valid) :
    t.EndsBefore cs ↔ ∀ w, Lexeme w → w <+: t.lexeme.toList ++ cs →
      w.length ≤ t.lexeme.toList.length := by
  constructor
  · intro he w hw hpre
    by_contra hlen
    have hfront : t.lexeme.toList <+: w :=
      List.prefix_of_prefix_length_le (List.prefix_append _ cs) hpre (by omega)
    obtain ⟨_ | ⟨c, ds⟩, rfl⟩ := hfront
    · simp at hlen
    · have hc : c ∈ cs.head? := by
        obtain ⟨es, hes⟩ := hpre
        simp at hes
        simp [← hes]
      exact he c hc (absorbs_of_lexeme hv hw)
  · intro hmax c hc hab
    obtain ⟨ds, rfl⟩ := List.head?_eq_some_iff.mp hc
    have hlen := hmax _ (hab.lexeme hv) (by simp)
    simp only [List.length_append, List.length_singleton] at hlen
    omega

theorem lexeme_of_valid {t : Token} (hv : t.Valid) (ht : ∀ c, t ≠ .illegal c) :
    Lexeme t.lexeme.toList := by
  cases t with
  | symbol s => exact .symbol s
  | keyword k => exact .letters (lexeme_ne_nil hv) fun _ => Keyword.isLetter_of_mem_text
  | name x => exact .letters (lexeme_ne_nil hv) hv.2.1
  | int digits => exact .digits (lexeme_ne_nil hv) hv.2
  | illegal c => exact (ht c rfl).elim

/-- An illegal character starts no lexeme. -/
theorem not_lexeme_of_illegal {c : Char} {cs w : List Char} (hv : (illegal c).Valid)
    (hw : Lexeme w) : ¬ w <+: c :: cs := by
  intro hpre
  obtain ⟨-, hl, hn, hs⟩ := hv
  obtain ⟨d, es, rfl⟩ := List.exists_cons_of_ne_nil hw.ne_nil
  obtain rfl : d = c := (List.cons_prefix_cons.mp hpre).1
  generalize hds : d :: es = ds at hw
  cases hw with
  | letters _ h => simp [h d (by simp [← hds])] at hl
  | digits _ h => simp [h d (by simp [← hds])] at hn
  | symbol s =>
    cases s <;> obtain ⟨rfl, -⟩ := List.cons.inj hds <;> cases hs

theorem illegal_valid {c : Char} {cs : List Char} (hb : isBlank c = false)
    (h : ∀ w, Lexeme w → ¬ w <+: c :: cs) : (illegal c).Valid := by
  have hc : ¬ Lexeme [c] := fun hw => h _ hw (by simp)
  refine ⟨hb, ?_, ?_, ?_⟩
  · rw [Bool.eq_false_iff]
    intro hl
    exact hc (.letters (by simp) (by simpa using hl))
  · rw [Bool.eq_false_iff]
    intro hn
    exact hc (.digits (by simp) (by simpa using hn))
  · rw [Option.eq_none_iff_forall_ne_some]
    intro s hs
    have ht : s.text.toList = [c] := by simp [(Symbol.classes_of_ofChar? hs).2.2.2]
    exact hc (ht ▸ .symbol s)

/-- What leads a text is a token that ends there. -/
theorem leads_iff {t : Token} {cs : List Char} :
    t.Leads (t.lexeme.toList ++ cs) ↔ t.Valid ∧ t.EndsBefore cs := by
  constructor
  · intro h
    generalize hcs : t.lexeme.toList ++ cs = ds at h
    cases h with
    | longest hv _ _ hmax =>
      rw [← hcs] at hmax
      exact ⟨hv, (endsBefore_iff hv).mpr hmax⟩
    | illegal hb h => exact ⟨illegal_valid hb h, fun _ _ => id⟩
  · rintro ⟨hv, he⟩
    by_cases ht : ∃ c, t = .illegal c
    · obtain ⟨c, rfl⟩ := ht
      have hc : (illegal c).lexeme.toList ++ cs = c :: cs := by simp [lexeme]
      rw [hc]
      exact .illegal hv.1 fun w hw => not_lexeme_of_illegal hv hw
    · exact .longest hv (lexeme_of_valid hv (not_exists.mp ht)) (List.prefix_append _ cs)
        ((endsBefore_iff hv).mp he)

theorem Written.blanks {w cs : List Char} {ts : List Token} (hw : ∀ c ∈ w, isBlank c = true)
    (h : Written ts cs) : Written ts (w ++ cs) := by
  induction w with
  | nil => exact h
  | cons c w ih =>
    obtain ⟨hc, hw⟩ := List.forall_mem_cons.mp hw
    exact .blank hc (ih hw)

theorem Munched.blank {c : Char} {ts : List Token} {cs : List Char} (hc : isBlank c = true)
    (h : Munched ts cs) : Munched ts (c :: cs) := by
  cases h with
  | done hw => exact .done (List.forall_mem_cons.mpr ⟨hc, hw⟩)
  | token hw ht h => exact .token (List.forall_mem_cons.mpr ⟨hc, hw⟩) ht h

/-- A text is cut into the tokens that it is written from. -/
theorem munched_iff_written {ts : List Token} {cs : List Char} :
    Munched ts cs ↔ Written ts cs := by
  constructor
  · intro h
    induction h with
    | done hw => simpa using Written.nil.blanks hw
    | token hw ht _ ih =>
      obtain ⟨hv, he⟩ := leads_iff.mp ht
      exact (Written.token hv he ih).blanks hw
  · intro h
    induction h with
    | nil => exact .done nofun
    | blank hc _ ih => exact ih.blank hc
    | token hv he _ ih => exact .token (w := []) nofun (leads_iff.mpr ⟨hv, he⟩) ih

/-- A lexeme belongs to one token. -/
theorem eq_of_lexeme {t u : Token} (ht : t.Valid) (hu : u.Valid) (h : t.lexeme = u.lexeme) :
    t = u := by
  obtain ⟨c, cs, hc⟩ := List.exists_cons_of_ne_nil (lexeme_ne_nil ht)
  have hsplit {v : Token} (hv : v.Valid) (hl : v.lexeme.toList = c :: cs) :
      split c (cs ++ []) = (v, []) := by
    have he : v.EndsBefore [] := nofun
    exact (split_lexeme hv he hl).2
  exact congrArg Prod.fst ((hsplit ht hc).symm.trans (hsplit hu (h ▸ hc)))

theorem kind_eq_keyword_iff {t : Token} (hv : t.Valid) (k : Keyword) :
    t.kind = .keyword k ↔ t.lexeme = k.text := by
  constructor
  · intro h
    cases t with
    | keyword l => exact congrArg Keyword.text (Kind.keyword.inj h)
    | _ => cases h
  · intro h
    have hk : (keyword k).Valid := trivial
    rw [eq_of_lexeme hv hk h]
    rfl

theorem next?_of_pull {cs rest : List Char} {t : Token} (h : pull cs = (some t, rest)) :
    next? cs = some (t, rest) := by
  unfold pull at h
  split at h
  · cases h
  · cases h
    assumption

/-- The kinds and lexemes that are pulled off a text up to its end, which is listed as well. -/
def entries (cs : List Char) : List (Kind × String) :=
  match _h : pull cs with
  | (none, _) => [(.endOfInput, "")]
  | (some t, rest) => (t.kind, t.lexeme) :: entries rest
termination_by cs.length
decreasing_by exact length_of_next? (next?_of_pull _h)

theorem entries_eq (cs : List Char) :
    entries cs = (scanChars cs).map (fun t => (t.kind, t.lexeme)) ++ [(.endOfInput, "")] := by
  induction cs using entries.induct with
  | case1 cs rest h =>
    have hn : next? cs = none := by
      cases hn : next? cs with
      | none => rfl
      | some r => simp [pull, hn] at h
    rw [entries, scanChars_of_none hn]
    split
    · rfl
    · simp_all
  | case2 cs t rest h ih =>
    rw [entries, scanChars_of_some (next?_of_pull h)]
    split
    · simp_all
    · simp_all

/-- A text is cut into its longest lexemes and into nothing else, and the end of the input is
listed once behind them. A token is a keyword when the whole of its lexeme is that keyword. -/
theorem munched_iff_scan (source : String) :
    (∀ ts, Munched ts source.toList ↔ ts = scan source) ∧
    entries source.toList =
      (scan source).map (fun t => (t.kind, t.lexeme)) ++ [(.endOfInput, "")] ∧
    ∀ t ∈ scan source, t.kind ≠ .endOfInput ∧ ∀ k, t.kind = .keyword k ↔ t.lexeme = k.text := by
  have hw : Written (scan source) source.toList := written_scanChars source.toList
  refine ⟨?_, entries_eq source.toList, ?_⟩
  · intro ts
    rw [munched_iff_written, written_iff, scan, eq_comm]
  · intro t ht
    refine ⟨?_, kind_eq_keyword_iff (hw.valid t ht)⟩
    cases t <;> nofun

theorem munched_iff_scan_glued :
    Munched [.keyword .ifKw, .name "_fi", .int "07", .symbol .equalEqual, .symbol .equal, .illegal 'é']
      "if\t_fi07===é".toList ∧
    name "_fi" ∈ scan "if\t_fi07===é" ∧ (name "_fi").kind ≠ .endOfInput ∧
    ∀ k, (name "_fi").kind = .keyword k ↔ "_fi" = k.text := by
  have h : scan "if\t_fi07===é" = [.keyword .ifKw, .name "_fi", .int "07", .symbol .equalEqual,
      .symbol .equal, .illegal 'é'] := by with_unfolding_all rfl
  have hmem : name "_fi" ∈ scan "if\t_fi07===é" := by simp [h]
  obtain ⟨hmunch, -, hkind⟩ := munched_iff_scan "if\t_fi07===é"
  exact ⟨(hmunch _).mpr h.symm, hmem, hkind _ hmem⟩

end Token
end MonkeyLang
