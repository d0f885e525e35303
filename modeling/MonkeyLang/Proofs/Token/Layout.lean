import Mathlib.Data.List.Basic
import MonkeyLang.Proofs.Token.Written

/-! Putting written texts together. A text with a blank between any two lexemes is written from
them, and texts can be put in a row when the second one starts with something that no token
takes in. -/
namespace MonkeyLang.Token

/-- A text in front of which every token ends. -/
def Apart (cs : List Char) : Prop :=
  ∀ c ∈ cs.head?, isLetter c = false ∧ c.isDigit = false ∧ c ≠ '='

theorem endsBefore_of_apart {t : Token} {cs : List Char} (h : Apart cs) : t.EndsBefore cs := by
  intro c hc
  obtain ⟨hl, hd, he⟩ := h c hc
  unfold Absorbs
  split <;> simp [hl, hd, he]

theorem apart_blank {c : Char} (h : isBlank c = true) (cs : List Char) : Apart (c :: cs) := by
  intro d hd
  obtain rfl : c = d := by simpa using hd
  obtain ⟨hl, hn, -⟩ := classes_of_isBlank h
  refine ⟨hl, hn, ?_⟩
  rintro rfl
  revert h
  decide

theorem apart_symbol {s : Symbol} (hs : s ≠ .equal ∧ s ≠ .equalEqual) (cs : List Char) :
    Apart (s.text.toList ++ cs) := by
  intro c hc
  cases s with
  | equal => exact (hs.1 rfl).elim
  | equalEqual => exact (hs.2 rfl).elim
  | _ =>
    obtain rfl := Option.some.inj hc
    decide

/-- What is left of a text when all of its tokens are taken off. -/
def ending (cs : List Char) : List Char := pulls (scanChars cs).length cs

theorem pull_blank {c : Char} (h : isBlank c = true) (cs : List Char) : pull (c :: cs) = pull cs := by
  rw [pull, pull, next?_blank h]

theorem pull_lexeme {t : Token} {cs : List Char} (hv : t.Valid) (he : t.EndsBefore cs) :
    pull (t.lexeme.toList ++ cs) = (some t, cs) := by
  obtain ⟨c, ds, hl⟩ := List.exists_cons_of_ne_nil (lexeme_ne_nil hv)
  obtain ⟨hb, hs⟩ := split_lexeme hv he hl
  rw [hl, List.cons_append, pull, next?_of_not_blank hb, hs]

section Written
variable {t : Token} {ts us : List Token} {cs ds : List Char}

theorem Written.ending_eq (h : Written ts cs) : ending cs = pulls ts.length cs := by
  rw [ending, scanChars_of_written h]

theorem Written.ending_blank {c : Char} (h : Written ts cs) (ht : ts ≠ []) (hb : isBlank c = true) :
    ending (c :: cs) = ending cs := by
  obtain ⟨t, ts, rfl⟩ := List.exists_cons_of_ne_nil ht
  rw [h.ending_eq, (Written.blank hb h).ending_eq, List.length_cons, pulls, pulls, pull_blank hb]

theorem Written.ending_token (hv : t.Valid) (he : t.EndsBefore cs) (h : Written ts cs) :
    ending (t.lexeme.toList ++ cs) = ending cs := by
  rw [h.ending_eq, (Written.token hv he h).ending_eq, List.length_cons, pulls, pull_lexeme hv he]

/-- Without tokens a text is left as it is. -/
theorem Written.ending_nil (h : Written [] cs) : ending cs = cs := h.ending_eq

/-- A text is scanned off behind a lexeme exactly where the token ends. -/
theorem scanChars_lexeme_iff (hv : t.Valid) :
    scanChars (t.lexeme.toList ++ cs) = t :: scanChars cs ↔ t.EndsBefore cs := by
  refine ⟨?_, scanChars_lexeme hv⟩
  intro h
  obtain ⟨c, ds, hl⟩ := List.exists_cons_of_ne_nil (lexeme_ne_nil hv)
  have hnil : t.EndsBefore [] := nofun
  have hb : isBlank c = false := (split_lexeme hv hnil hl).1
  have hn := next?_of_not_blank hb (ds ++ cs)
  generalize hs : split c (ds ++ cs) = r at hn
  obtain ⟨u, rest⟩ := r
  rw [hl, List.cons_append, scanChars_of_some hn] at h
  obtain ⟨rfl, -⟩ := List.cons.inj h
  obtain ⟨-, he, happ⟩ := of_split hb hs
  rw [← List.cons_append, ← hl] at happ
  rwa [List.append_cancel_left happ]

/-- The tokens of a text stay apart from those of the next one exactly where the last token at the
very end, if there is one, ends before it. -/
theorem Written.scanChars_append_iff (h : Written ts cs) :
    scanChars (cs ++ ds) = ts ++ scanChars ds ↔
      ∀ t ∈ ts.getLast?, ending cs = [] → t.EndsBefore ds := by
  induction h with
  | nil => simp
  | @blank c ts cs hb h ih =>
    rw [List.cons_append, scanChars_blank hb, ih]
    cases ts with
    | nil => simp
    | cons t ts => rw [h.ending_blank (List.cons_ne_nil t ts) hb]
  | @token t ts cs hv he h ih =>
    rw [h.ending_token hv he, List.append_assoc]
    -- Only at the very end can the second text change where a token ends.
    cases cs with
    | nil =>
      obtain rfl : [] = ts := (scanChars_of_none rfl).symm.trans (scanChars_of_written h)
      simp [scanChars_lexeme_iff hv, h.ending_nil]
    | cons c cs =>
      have he : t.EndsBefore (c :: cs ++ ds) := he
      have hcancel : t :: scanChars (c :: cs ++ ds) = (t :: ts) ++ scanChars ds ↔
          scanChars (c :: cs ++ ds) = ts ++ scanChars ds := by simp
      rw [scanChars_lexeme hv he, hcancel, ih]
      cases ts with
      | nil => simp [h.ending_nil]
      | cons u ts => simp

/-- Texts can be put in a row where the last token of the first one ends before the second one. -/
theorem Written.append_of_last (h : Written ts cs) (hu : Written us ds)
    (hl : ∀ t ∈ ts.getLast?, t.EndsBefore ds) : Written (ts ++ us) (cs ++ ds) := by
  rw [written_iff, h.scanChars_append_iff.mpr fun t ht _ => hl t ht, scanChars_of_written hu]

end Written

theorem scan_append {source later : String}
    (h : ∀ t ∈ (scan source).getLast?, t.EndsBefore later.toList) :
    scan (source ++ later) = scan source ++ scan later := by
  rw [scan, String.toList_append]
  exact (written_scanChars _).scanChars_append_iff.mpr fun t ht _ => h t ht

theorem Written.append {ts us : List Token} {cs ds : List Char} (h : Written ts cs)
    (hu : Written us ds) (hd : Apart ds) : Written (ts ++ us) (cs ++ ds) :=
  h.append_of_last hu fun _ _ => endsBefore_of_apart hd

theorem Written.space {ts : List Token} {cs : List Char} (h : Written ts cs) :
    Written ts (' ' :: cs) :=
  .blank rfl h

theorem Written.spaced {t : Token} {c : Char} {ts : List Token} {cs : List Char} (hv : t.Valid)
    (hc : isBlank c = true) (h : Written ts cs) :
    Written (t :: ts) (t.lexeme.toList ++ c :: cs) :=
  .token hv (endsBefore_of_apart (apart_blank hc cs)) (.blank hc h)

/-- A lexeme as a text. -/
theorem Written.single {t : Token} (hv : t.Valid) : Written [t] t.lexeme.toList := by
  have h := Written.token hv (fun c hc => by cases hc) .nil
  rwa [List.append_nil] at h

/-- A symbol that is not the front of a longer one may be followed by anything. -/
theorem Written.symbol {s : Symbol} {ts : List Token} {cs : List Char} (h : Written ts cs)
    (hs : s ≠ .bang ∧ s ≠ .equal := by decide) :
    Written (.symbol s :: ts) (s.text.toList ++ cs) := by
  refine .token trivial ?_ h
  intro c _ hc
  cases s with
  | bang => exact hs.1 rfl
  | equal => exact hs.2 rfl
  | _ => exact hc

/-- A text with at least one blank between any two lexemes. -/
inductive Spaced : List Token → List Char → Prop
  | nil : Spaced [] []
  | blank {c ts cs} : isBlank c = true → Spaced ts cs → Spaced ts (c :: cs)
  | last {t} : Spaced [t] t.lexeme.toList
  | token {t c ts cs} : isBlank c = true → Spaced ts cs →
      Spaced (t :: ts) (t.lexeme.toList ++ c :: cs)

theorem Spaced.written {ts : List Token} {cs : List Char} (h : Spaced ts cs)
    (hv : ∀ t ∈ ts, t.Valid) : Written ts cs := by
  induction h with
  | nil => exact .nil
  | blank hc _ ih => exact .blank hc (ih hv)
  | last => exact .single (hv _ List.mem_cons_self)
  | token hc _ ih =>
    obtain ⟨ht, hts⟩ := List.forall_mem_cons.mp hv
    exact .spaced ht hc (ih hts)

theorem spaced_lexemes (ts : List Token) :
    Spaced ts (" ".intercalate (ts.map lexeme)).toList := by
  rw [String.toList_intercalate, List.map_map]
  induction ts with
  | nil => exact .nil
  | cons t ts ih =>
    cases ts with
    | nil => simpa using Spaced.last (t := t)
    | cons u ts =>
      rw [List.map_cons, List.map_cons, List.intercalate_cons_cons, List.append_assoc]
      exact .token rfl ih

/-- Texts that are separated by a symbol and a blank. -/
theorem written_intercalate {α : Type} {f : α → List Token} {g : α → String} {s : Symbol}
    (hs : s = .comma ∨ s = .semicolon) {as : List α}
    (h : ∀ a ∈ as, Written (f a) (g a).toList) :
    Written ([.symbol s].intercalate (as.map f))
      ((s.text ++ " ").intercalate (as.map g)).toList := by
  have hw : s ≠ .bang ∧ s ≠ .equal := by rcases hs with rfl | rfl <;> decide
  have ha : s ≠ .equal ∧ s ≠ .equalEqual := by rcases hs with rfl | rfl <;> decide
  rw [String.toList_intercalate, List.map_map]
  induction as with
  | nil => exact .nil
  | cons a as ih =>
    obtain ⟨hfirst, hrest⟩ := List.forall_mem_cons.mp h
    cases as with
    | nil => simpa using hfirst
    | cons b as =>
      have hb := (ih hrest).space.symbol hw
      simp only [List.map_cons, List.intercalate_cons_cons, String.toList_append,
        List.append_assoc] at hb ⊢
      exact hfirst.append hb (apart_symbol ha _)

end MonkeyLang.Token
