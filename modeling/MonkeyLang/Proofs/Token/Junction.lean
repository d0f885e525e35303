import MonkeyLang.Proofs.Token.Layout
import MonkeyLang.Proofs.Token.Longest

/-! The tokens of two texts in a row. They are the tokens of the first text and then those of the
second one, unless the texts meet inside of what is one lexeme. -/
namespace MonkeyLang.Token

/-- The second text goes on with the last token of the first one: both are letters where they meet,
or both are digits, or an equal sign follows a symbol at the very end that takes it in. -/
inductive Joins (cs ds : List Char) : Prop
  | letters {c d} : c ∈ cs.getLast? → d ∈ ds.head? → isLetter c = true → isLetter d = true →
      Joins cs ds
  | digits {c d} : c ∈ cs.getLast? → d ∈ ds.head? → c.isDigit = true → d.isDigit = true →
      Joins cs ds
  | equal {s} : s = .equal ∨ s = .bang → symbol s ∈ (scanChars cs).getLast? → ending cs = [] →
      '=' ∈ ds.head? → Joins cs ds

section Written
variable {t : Token} {ts : List Token} {cs : List Char}

/-- Only blanks are left behind the tokens. -/
theorem Written.isBlank_of_mem_ending (h : Written ts cs) : ∀ c ∈ ending cs, isBlank c = true := by
  induction h with
  | nil => simp [Written.nil.ending_nil]
  | @blank c ts cs hb h ih =>
    cases ts with
    | nil =>
      rw [h.ending_nil] at ih
      rw [(Written.blank hb h).ending_nil]
      exact List.forall_mem_cons.mpr ⟨hb, ih⟩
    | cons t ts => rwa [h.ending_blank (List.cons_ne_nil t ts) hb]
  | token hv he h ih => rwa [h.ending_token hv he]

/-- What is left behind the tokens stands behind the last of them. -/
theorem Written.suffix_of_getLast? (h : Written ts cs) (ht : t ∈ ts.getLast?) :
    t.lexeme.toList ++ ending cs <:+ cs := by
  induction h with
  | nil => cases ht
  | @blank c ts cs hb h ih =>
    have hne : ts ≠ [] := by
      rintro rfl
      cases ht
    rw [h.ending_blank hne hb]
    exact (ih ht).trans (List.suffix_cons c cs)
  | @token u ts cs hv he h ih =>
    rw [h.ending_token hv he]
    cases ts with
    | nil =>
      obtain rfl : u = t := by simpa using ht
      simp only [h.ending_nil, List.suffix_rfl]
    | cons u' ts => exact (ih (by simpa using ht)).trans (List.suffix_append _ cs)

/-- A text that ends with its last token ends with its lexeme. -/
theorem Written.getLast?_eq (h : Written ts cs) (ht : t ∈ ts.getLast?) (he : ending cs = []) :
    cs.getLast? = t.lexeme.toList.getLast? := by
  have hs := h.suffix_of_getLast? ht
  rw [he, List.append_nil] at hs
  obtain ⟨front, rfl⟩ := hs
  exact List.getLast?_append_of_ne_nil front (lexeme_ne_nil (h.valid t (List.mem_of_mem_getLast? ht)))

/-- A text whose last character is not blank ends with its last token. -/
theorem Written.exists_last {c : Char} (h : Written ts cs) (hc : c ∈ cs.getLast?)
    (hb : isBlank c = false) : ∃ t ∈ ts.getLast?, ending cs = [] := by
  have hblank := h.isBlank_of_mem_ending
  have hnot : c ∉ ending cs := fun hmem => by simp [hblank c hmem] at hb
  rcases hts : ts.getLast? with _ | t
  · obtain rfl := List.getLast?_eq_none_iff.mp hts
    rw [h.ending_nil] at hnot
    exact (hnot (List.mem_of_mem_getLast? hc)).elim
  · refine ⟨t, rfl, ?_⟩
    by_contra hne
    obtain ⟨front, hf⟩ := h.suffix_of_getLast? hts
    rw [← hf, ← List.append_assoc, List.getLast?_append_of_ne_nil _ hne] at hc
    exact hnot (List.mem_of_mem_getLast? hc)

end Written

/-- A token with a letter in it goes on with letters. -/
theorem absorbs_of_isLetter {t : Token} {c d : Char} (hv : t.Valid) (hc : c ∈ t.lexeme.toList)
    (hlc : isLetter c = true) (hld : isLetter d = true) : t.Absorbs d := by
  cases t with
  | symbol s => simp [(Symbol.classes_of_mem_text hc).1] at hlc
  | keyword k => exact hld
  | name x => exact hld
  | int digits => simp [(classes_of_isDigit (hv.2 c hc)).2] at hlc
  | illegal e =>
    obtain rfl : c = e := by simpa [lexeme] using hc
    simp [hv.2.1] at hlc

/-- A token with a digit in it goes on with digits. -/
theorem absorbs_of_isDigit {t : Token} {c d : Char} (hv : t.Valid) (hc : c ∈ t.lexeme.toList)
    (hdc : c.isDigit = true) (hdd : d.isDigit = true) : t.Absorbs d := by
  have hl := (classes_of_isDigit hdc).2
  cases t with
  | symbol s => simp [(Symbol.classes_of_mem_text hc).2] at hdc
  | keyword k => simp [Keyword.isLetter_of_mem_text hc] at hl
  | name x => simp [hv.2.1 c hc] at hl
  | int digits => exact hdd
  | illegal e =>
    obtain rfl : c = e := by simpa [lexeme] using hc
    simp [hv.2.2.1] at hdc

/-- Texts join where a token at the very end of the first one goes on in the second one. -/
theorem joins_iff {cs ds : List Char} : Joins cs ds ↔
    ∃ t ∈ (scanChars cs).getLast?, ending cs = [] ∧ ¬ t.EndsBefore ds := by
  have hw := written_scanChars cs
  have hvalid {t : Token} (ht : t ∈ (scanChars cs).getLast?) : t.Valid :=
    hw.valid t (List.mem_of_mem_getLast? ht)
  constructor
  · have hgoes {t : Token} {d : Char} (hd : d ∈ ds.head?) (ha : t.Absorbs d) : ¬ t.EndsBefore ds :=
      fun he => he d hd ha
    intro h
    cases h with
    | letters hc hd hlc hld =>
      obtain ⟨t, ht, he⟩ := hw.exists_last hc (isBlank_of_isLetter hlc)
      have hmem := List.mem_of_mem_getLast? (hw.getLast?_eq ht he ▸ hc)
      exact ⟨t, ht, he, hgoes hd (absorbs_of_isLetter (hvalid ht) hmem hlc hld)⟩
    | digits hc hd hdc hdd =>
      obtain ⟨t, ht, he⟩ := hw.exists_last hc (classes_of_isDigit hdc).1
      have hmem := List.mem_of_mem_getLast? (hw.getLast?_eq ht he ▸ hc)
      exact ⟨t, ht, he, hgoes hd (absorbs_of_isDigit (hvalid ht) hmem hdc hdd)⟩
    | equal hs ht he hd =>
      refine ⟨_, ht, he, hgoes hd ?_⟩
      rcases hs with rfl | rfl <;> rfl
  · rintro ⟨t, ht, he, hends⟩
    obtain ⟨d, hd, ha⟩ : ∃ d ∈ ds.head?, t.Absorbs d := by simpa [EndsBefore] using hends
    have hv := hvalid ht
    obtain ⟨c, hc⟩ := Option.isSome_iff_exists.mp (List.getLast?_isSome.mpr (lexeme_ne_nil hv))
    have hmem := List.mem_of_mem_getLast? hc
    rw [← hw.getLast?_eq ht he] at hc
    cases t with
    | symbol s =>
      cases s with
      | bang =>
        obtain rfl : d = '=' := ha
        exact .equal (.inr rfl) ht he hd
      | equal =>
        obtain rfl : d = '=' := ha
        exact .equal (.inl rfl) ht he hd
      | _ => exact ha.elim
    | keyword k => exact .letters hc hd (Keyword.isLetter_of_mem_text hmem) ha
    | name x => exact .letters hc hd (hv.2.1 c hmem) ha
    | int digits => exact .digits hc hd (hv.2 c hmem) ha
    | illegal e => exact ha.elim

theorem scan_append_iff (source later : String) :
    scan (source ++ later) = scan source ++ scan later ↔ ¬ Joins source.toList later.toList := by
  rw [scan, scan, scan, String.toList_append, (written_scanChars _).scanChars_append_iff, joins_iff]
  simp

/-- A token can be told from its kind and its lexeme. -/
theorem kind_lexeme_injective : Function.Injective fun t : Token => (t.kind, t.lexeme) := by
  intro t u h
  obtain ⟨hk, hl⟩ := Prod.mk.inj h
  cases t <;> cases u <;> simp_all [kind, lexeme]

/-- The tokens of two texts in a row, with the end of the input behind them, are those of the first
text without its end and then those of the second one, unless the texts join where they meet. -/
theorem entries_append_iff (source later : String) :
    entries (source ++ later).toList = (entries source.toList).dropLast ++ entries later.toList ↔
      ¬ Joins source.toList later.toList := by
  rw [← scan_append_iff, entries_eq, entries_eq, entries_eq, List.dropLast_concat,
    ← List.append_assoc, List.append_cancel_right_eq, ← List.map_append]
  exact kind_lexeme_injective.list_map.eq_iff

end MonkeyLang.Token
