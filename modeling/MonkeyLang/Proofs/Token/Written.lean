import Mathlib.Data.List.TakeWhile
import MonkeyLang.Token.Scan

/-! Which texts are cut into which tokens. A text is written from tokens by putting their
lexemes in a row, with blanks wherever two of them would run together, and the tokens of a text
are the only ones it can be written from. -/
namespace MonkeyLang

/-- A name: a nonempty run of letters that is no keyword. -/
def IsName (x : String) : Prop :=
  x ≠ "" ∧ (∀ c ∈ x.toList, isLetter c = true) ∧ Keyword.ofText? x = none

instance (x : String) : Decidable (IsName x) :=
  decidable_of_iff (x ≠ "" ∧ x.toList.all isLetter = true ∧ Keyword.ofText? x = none)
    (by simp [IsName])

/-- A numeral: a nonempty run of digits. -/
def IsNumeral (digits : String) : Prop := digits ≠ "" ∧ ∀ c ∈ digits.toList, c.isDigit = true

theorem classes_of_isBlank {c : Char} (h : isBlank c = true) :
    isLetter c = false ∧ c.isDigit = false ∧ Symbol.ofChar? c = none := by
  simp only [isBlank, Bool.or_eq_true, beq_iff_eq] at h
  rcases h with ((rfl | rfl) | rfl) | rfl <;> decide

theorem isLetter_iff_toNat {c : Char} : isLetter c = true ↔
    (65 ≤ c.toNat ∧ c.toNat ≤ 90) ∨ (97 ≤ c.toNat ∧ c.toNat ≤ 122) ∨ c = '_' := by
  change (decide (c.val ≥ 65 ∧ c.val ≤ 90) ||
    (decide (c.val ≥ 97) && decide (c.val ≤ 122)) || c == '_') = true ↔ _
  simp only [Bool.or_eq_true, Bool.and_eq_true, decide_eq_true_eq, beq_iff_eq, ge_iff_le,
    UInt32.le_iff_toNat_le, or_assoc]
  rfl

theorem classes_of_isDigit {c : Char} (h : c.isDigit = true) :
    isBlank c = false ∧ isLetter c = false := by
  constructor
  · rw [Bool.eq_false_iff]
    intro hb
    simp [(classes_of_isBlank hb).2.1] at h
  · rw [Bool.eq_false_iff, ne_eq, isLetter_iff_toNat]
    rw [Char.isDigit_iff_toNat] at h
    change 48 ≤ c.toNat ∧ c.toNat ≤ 57 at h
    rintro (hl | hl | rfl)
    · omega
    · omega
    · revert h
      decide

theorem isBlank_of_isLetter {c : Char} (h : isLetter c = true) : isBlank c = false := by
  rw [Bool.eq_false_iff]
  intro hb
  simp [(classes_of_isBlank hb).1] at h

theorem Symbol.classes_of_ofChar? {c : Char} {s : Symbol} (h : ofChar? c = some s) :
    isBlank c = false ∧ isLetter c = false ∧ c.isDigit = false ∧ s.text = c.toString := by
  unfold ofChar? at h
  split at h <;> cases h <;> decide

theorem Symbol.classes_of_mem_text {s : Symbol} {c : Char} (h : c ∈ s.text.toList) :
    isLetter c = false ∧ c.isDigit = false := by
  have hall : s.text.toList.all fun c => !isLetter c && !c.isDigit := by cases s <;> decide
  simpa using List.all_eq_true.mp hall c h

theorem Keyword.isLetter_of_mem_text {k : Keyword} {c : Char} (h : c ∈ k.text.toList) :
    isLetter c = true := by
  have hall : k.text.toList.all isLetter := by cases k <;> decide
  exact List.all_eq_true.mp hall c h

theorem Symbol.split?_eq_none {c : Char} {cs : List Char} :
    split? c cs = none ↔ ofChar? c = none := by
  unfold split?
  split <;> simp [ofChar?]

namespace Token

/-- A token that some text has. -/
def Valid : Token → Prop
  | symbol _ | keyword _ => True
  | name x => IsName x
  | int digits => IsNumeral digits
  | illegal c => isBlank c = false ∧ isLetter c = false ∧ c.isDigit = false ∧
      Symbol.ofChar? c = none

/-- A character that is read into a token when it stands right behind its lexeme. -/
def Absorbs : Token → Char → Prop
  | keyword _, c | name _, c => isLetter c = true
  | int _, c => c.isDigit = true
  | symbol .bang, c | symbol .equal, c => c = '='
  | _, _ => False

/-- A text in front of which a token ends: it is empty or starts with something else. -/
def EndsBefore (t : Token) (cs : List Char) : Prop := ∀ c ∈ cs.head?, ¬ t.Absorbs c

/-- The texts written from some tokens. -/
inductive Written : List Token → List Char → Prop
  | nil : Written [] []
  | blank {c ts cs} : isBlank c = true → Written ts cs → Written ts (c :: cs)
  | token {t ts cs} : t.Valid → t.EndsBefore cs → Written ts cs →
      Written (t :: ts) (t.lexeme.toList ++ cs)

/-- A run of characters of one class is taken off a text as a whole. -/
theorem span_append {p : Char → Bool} {ds cs : List Char} (hd : ∀ c ∈ ds, p c = true)
    (hc : ∀ c ∈ cs.head?, p c ≠ true) :
    (ds ++ cs).takeWhile p = ds ∧ (ds ++ cs).dropWhile p = cs := by
  rw [List.takeWhile_append_of_pos hd, List.dropWhile_append_of_pos hd]
  cases cs with
  | nil => simp
  | cons c cs =>
    have h := hc c rfl
    simp [h]

/-- A symbol is cut off whole, however it goes on. -/
theorem split_symbol {s : Symbol} {c : Char} {ds cs : List Char}
    (he : (symbol s).EndsBefore cs) (hl : s.text.toList = c :: ds) :
    isBlank c = false ∧ split c (ds ++ cs) = (symbol s, cs) := by
  have hs : isBlank c = false ∧ isLetter c = false ∧ c.isDigit = false ∧
      Symbol.split? c (ds ++ cs) = some (s, cs) := by
    cases s <;> obtain ⟨rfl, rfl⟩ := List.cons.inj hl <;> refine ⟨rfl, rfl, rfl, ?_⟩
    case bang =>
      rcases cs with _ | ⟨d, cs⟩
      · rfl
      · have hd : d ≠ '=' := he d rfl
        change Symbol.split? '!' (d :: cs) = _
        simp [Symbol.split?, hd, Symbol.ofChar?]
    case equal =>
      rcases cs with _ | ⟨d, cs⟩
      · rfl
      · have hd : d ≠ '=' := he d rfl
        change Symbol.split? '=' (d :: cs) = _
        simp [Symbol.split?, hd, Symbol.ofChar?]
    all_goals rfl
  obtain ⟨hb, hn, hd, hs⟩ := hs
  refine ⟨hb, ?_⟩
  rw [split, if_neg (by simp [hn]), if_neg (by simp [hd]), hs]

/-- A word is cut off where its letters end. -/
theorem split_word {c : Char} {ds cs : List Char} (h : ∀ d ∈ c :: ds, isLetter d = true)
    (hc : ∀ d ∈ cs.head?, isLetter d ≠ true) :
    split c (ds ++ cs) = (ofWord (c :: ds), cs) := by
  obtain ⟨ht, hd⟩ := span_append (fun d hd => h d (List.mem_cons_of_mem c hd)) hc
  rw [split, if_pos (h c List.mem_cons_self), ht, hd]

theorem lexeme_ne_nil {t : Token} (h : t.Valid) : t.lexeme.toList ≠ [] := by
  cases t with
  | symbol s => cases s <;> decide
  | keyword k => cases k <;> decide
  | name x => simpa [lexeme] using h.1
  | int digits => simpa [lexeme] using h.1
  | illegal c => simp [lexeme]

/-- The first token of a text that starts with a lexeme. -/
theorem split_lexeme {t : Token} {c : Char} {ds cs : List Char} (hv : t.Valid)
    (he : t.EndsBefore cs) (hl : t.lexeme.toList = c :: ds) :
    isBlank c = false ∧ split c (ds ++ cs) = (t, cs) := by
  cases t with
  | symbol s => exact split_symbol he hl
  | keyword k =>
    have hk : ∀ d ∈ c :: ds, isLetter d = true := by
      intro d hd
      exact k.isLetter_of_mem_text (hl ▸ hd)
    refine ⟨isBlank_of_isLetter (hk c List.mem_cons_self), ?_⟩
    rw [split_word hk he, ofWord, ← hl]
    simp [lexeme]
  | name x =>
    have hx : ∀ d ∈ c :: ds, isLetter d = true := by rw [← hl]; exact hv.2.1
    refine ⟨isBlank_of_isLetter (hx c List.mem_cons_self), ?_⟩
    rw [split_word hx he, ofWord, ← hl]
    simp [lexeme, hv.2.2]
  | int digits =>
    have hd : ∀ d ∈ c :: ds, d.isDigit = true := by rw [← hl]; exact hv.2
    obtain ⟨hb, hn⟩ := classes_of_isDigit (hd c List.mem_cons_self)
    obtain ⟨ht, hr⟩ := span_append (fun d h => hd d (List.mem_cons_of_mem c h)) he
    refine ⟨hb, ?_⟩
    rw [split, if_neg (by simp [hn]), if_pos (hd c List.mem_cons_self), ht, hr, ← hl]
    simp [lexeme]
  | illegal d =>
    obtain ⟨hb, hn, hd, hs⟩ := hv
    obtain ⟨rfl, rfl⟩ : d = c ∧ [] = ds := by simpa [lexeme] using hl
    refine ⟨hb, ?_⟩
    rw [split, if_neg (by simp [hn]), if_neg (by simp [hd])]
    simp [Symbol.split?_eq_none.mpr hs]

/-- The characters that end a run. -/
theorem not_of_head_dropWhile {p : Char → Bool} {cs : List Char} :
    ∀ c ∈ (cs.dropWhile p).head?, p c ≠ true := by
  have h := List.head?_dropWhile_not p cs
  cases hc : (cs.dropWhile p).head? with
  | none => simp
  | some c => simpa [hc] using h

theorem ofWord_spec {word cs : List Char} (hw : word ≠ []) (hl : ∀ c ∈ word, isLetter c = true)
    (hc : ∀ c ∈ cs.head?, isLetter c ≠ true) :
    (ofWord word).Valid ∧ (ofWord word).EndsBefore cs ∧ (ofWord word).lexeme.toList = word := by
  unfold ofWord
  split
  · rename_i k hk
    exact ⟨trivial, hc, by simp [lexeme, Keyword.text_of_ofText? hk]⟩
  · rename_i hk
    exact ⟨⟨by simpa using hw, by simpa using hl, hk⟩, hc, by simp [lexeme]⟩

theorem of_split?_eq_some {c : Char} {cs rest : List Char} {s : Symbol}
    (h : Symbol.split? c cs = some (s, rest)) :
    (symbol s).EndsBefore rest ∧ c :: cs = s.text.toList ++ rest := by
  unfold Symbol.split? at h
  split at h
  · cases h
    exact ⟨fun d _ => id, rfl⟩
  · cases h
    exact ⟨fun d _ => id, rfl⟩
  · rename_i hbang hequal
    obtain ⟨_, hs, he⟩ := Option.map_eq_some_iff.mp h
    cases he
    refine ⟨?_, by simp [(Symbol.classes_of_ofChar? hs).2.2.2]⟩
    intro d hd
    obtain ⟨ds, rfl⟩ := List.head?_eq_some_iff.mp hd
    cases s with
    | bang =>
      rintro rfl
      exact hbang ds (by unfold Symbol.ofChar? at hs; split at hs <;> simp_all) rfl
    | equal =>
      rintro rfl
      exact hequal ds (by unfold Symbol.ofChar? at hs; split at hs <;> simp_all) rfl
    | _ => exact id

/-- What a text starts with is a token, its lexeme, and something that does not go on with it. -/
theorem of_split {c : Char} {cs rest : List Char} {t : Token} (hb : isBlank c = false)
    (h : split c cs = (t, rest)) :
    t.Valid ∧ t.EndsBefore rest ∧ c :: cs = t.lexeme.toList ++ rest := by
  unfold split at h
  split at h
  · rename_i hc
    cases h
    have hw : ∀ d ∈ c :: cs.takeWhile isLetter, isLetter d = true := by
      simpa [hc] using fun d => List.mem_takeWhile_imp
    obtain ⟨hv, he, hl⟩ := ofWord_spec (List.cons_ne_nil c _) hw not_of_head_dropWhile
    exact ⟨hv, he, by simp [hl]⟩
  split at h
  · rename_i hc
    cases h
    have hw : ∀ d ∈ c :: cs.takeWhile Char.isDigit, d.isDigit = true := by
      simpa [hc] using fun d => List.mem_takeWhile_imp
    exact ⟨⟨by simp, by simpa using hw⟩, not_of_head_dropWhile, by simp [lexeme]⟩
  rename_i hn hd
  split at h
  · rename_i hs
    cases h
    exact ⟨trivial, of_split?_eq_some hs⟩
  · rename_i hs
    cases h
    exact ⟨⟨hb, by simpa using hn, by simpa using hd, Symbol.split?_eq_none.mp hs⟩, fun d _ => id,
      by simp [lexeme]⟩

theorem next?_blank {c : Char} (h : isBlank c = true) (cs : List Char) :
    next? (c :: cs) = next? cs := by
  simp [next?, h]

theorem next?_of_not_blank {c : Char} (h : isBlank c = false) (cs : List Char) :
    next? (c :: cs) = some (split c cs) := by
  simp [next?, h]

theorem scanChars_blank {c : Char} (h : isBlank c = true) (cs : List Char) :
    scanChars (c :: cs) = scanChars cs := by
  cases hn : next? cs with
  | none => rw [scanChars_of_none hn, scanChars_of_none (by rw [next?_blank h, hn])]
  | some r =>
    obtain ⟨t, rest⟩ := r
    rw [scanChars_of_some hn, scanChars_of_some (by rw [next?_blank h, hn])]

/-- A lexeme is scanned as its token, unless the text behind it goes on with it. -/
theorem scanChars_lexeme {t : Token} {cs : List Char} (hv : t.Valid) (he : t.EndsBefore cs) :
    scanChars (t.lexeme.toList ++ cs) = t :: scanChars cs := by
  obtain ⟨c, ds, hl⟩ := List.exists_cons_of_ne_nil (lexeme_ne_nil hv)
  obtain ⟨hb, hs⟩ := split_lexeme hv he hl
  apply scanChars_of_some
  rw [hl, List.cons_append, next?_of_not_blank hb, hs]

theorem scanChars_of_written {ts : List Token} {cs : List Char} (h : Written ts cs) :
    scanChars cs = ts := by
  induction h with
  | nil => exact scanChars_of_none rfl
  | blank hb _ ih => rw [scanChars_blank hb, ih]
  | token hv he _ ih => rw [scanChars_lexeme hv he, ih]

/-- Every text is written from its tokens. -/
theorem written_scanChars : (cs : List Char) → Written (scanChars cs) cs
  | [] => by
    rw [scanChars_of_none rfl]
    exact .nil
  | c :: cs => by
    by_cases hb : isBlank c = true
    · rw [scanChars_blank hb]
      exact .blank hb (written_scanChars cs)
    · have hb : isBlank c = false := by simpa using hb
      have hn := next?_of_not_blank hb cs
      have hs : split c cs = ((split c cs).1, (split c cs).2) := rfl
      obtain ⟨hv, he, hl⟩ := of_split hb hs
      rw [scanChars_of_some hn, hl]
      exact .token hv he (written_scanChars _)
termination_by cs => cs.length
decreasing_by
  · simp
  · exact length_of_next? hn

/-- A text is written from its tokens and from no others. -/
theorem written_iff {ts : List Token} {cs : List Char} : Written ts cs ↔ scanChars cs = ts := by
  constructor
  · exact scanChars_of_written
  · rintro rfl
    exact written_scanChars cs

theorem Written.valid {ts : List Token} {cs : List Char} (h : Written ts cs) :
    ∀ t ∈ ts, t.Valid := by
  induction h with
  | nil => simp
  | blank _ _ ih => exact ih
  | token hv _ _ ih => exact List.forall_mem_cons.mpr ⟨hv, ih⟩

/-- The text that is left when some tokens are taken off the front. -/
def pulls : Nat → List Char → List Char
  | 0, cs => cs
  | k + 1, cs => pulls k (pull cs).2

theorem scanChars_pulls (k : Nat) (cs : List Char) :
    scanChars (pulls k cs) = (scanChars cs).drop k := by
  induction k generalizing cs with
  | zero => rfl
  | succ k ih =>
    rw [pulls, ih]
    cases hn : next? cs with
    | none =>
      rw [pull, hn, scanChars_of_none hn, scanChars_of_none rfl]
      simp
    | some r =>
      obtain ⟨t, rest⟩ := r
      rw [pull, hn, scanChars_of_some hn, List.drop_succ_cons]

end Token
end MonkeyLang
