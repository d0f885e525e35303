import Mathlib.Data.List.Basic
import MonkeyLang.Dialogue.Transcript
import MonkeyLang.Proofs.Dialogue.Input

/-! Lines of a dialogue that are not run. The answers to the other lines are the same without them,
and a line that cannot be read ends the dialogue, whatever comes behind it. -/
namespace MonkeyLang

namespace Line
variable {line front : List UInt8}

/-- A line without a carriage return at its end. -/
def trimmed (line : Line) : Line := (dropReturn line.reverse).reverse

theorem splitFrom_of_not_mem (h : newline ∉ line) (read : List UInt8) :
    splitFrom read line = splitFrom (line.reverse ++ read) [] := by
  induction line generalizing read with
  | nil => rfl
  | cons b line ih =>
    obtain ⟨hb, hline⟩ := List.ne_and_not_mem_of_not_mem_cons h
    have hstep : splitFrom read (b :: line) = splitFrom (b :: read) line := if_neg (Ne.symm hb)
    rw [hstep, ih hline, List.reverse_cons, List.append_assoc]
    rfl

theorem splitFrom_newline (read front back : List UInt8) :
    splitFrom read (front ++ newline :: back) =
      splitFrom read (front ++ [newline]) ++ split back := by
  induction front generalizing read with
  | nil => simp [splitFrom, split]
  | cons b front ih =>
    rw [List.cons_append, List.cons_append, splitFrom, splitFrom]
    split
    · rw [ih, List.cons_append]
    · exact ih (b :: read)

/-- Behind the end of a line the next line begins. -/
theorem split_append (h : ∀ b ∈ front.getLast?, b = newline) (back : List UInt8) :
    split (front ++ back) = split front ++ split back := by
  obtain rfl | ⟨front, b, rfl⟩ := List.eq_nil_or_concat' front
  · rfl
  · obtain rfl : b = newline := h b (by simp)
    rw [List.append_assoc]
    exact splitFrom_newline [] front back

theorem split_line (h : newline ∉ line) (back : List UInt8) :
    split (line ++ newline :: back) = trimmed line :: split back := by
  rw [split, splitFrom_append h, List.append_nil]
  rfl

theorem split_last (h : newline ∉ line) (hne : line ≠ []) : split line = [line] := by
  rw [split, splitFrom_of_not_mem h, splitFrom, List.append_nil, if_neg (by simpa using hne),
    List.reverse_reverse]

end Line

namespace Dialogue

/-- A line that is not run, and the report on it: its errors, or nothing if it has no token. -/
inductive Rejected : String → String → Prop
  | errors {text : String} : (Reading.ofText text).errors ≠ [] →
      Rejected text ("parser errors:\n" ++ SyntaxError.lines (Reading.ofText text).errors)
  | blank {text : String} : Token.scan text = [] → Rejected text ""

/-- The answers to lines, one by one, and what ended the dialogue before its input did. -/
def answers? (depth : Nat) (s : Session) : List Line → Option (List String × Option ReadError)
  | [] => some ([], none)
  | line :: lines =>
    match line.decode? with
    | none => some ([], some .invalidText)
    | some text =>
      (answer? depth s text).bind fun (out, t) =>
      (answers? depth t lines).map fun later => (out :: later.1, later.2)

/-- What a dialogue writes that gives these answers: a prompt before each of them, and one at the
end. -/
def written (answers : List String) : String :=
  String.join (answers.map (prompt ++ ·)) ++ prompt

variable {depth : Nat} {s : Session} {text report : String} {line : Line} {lines : List Line}

theorem answers?_text (h : line.decode? = some text) (lines : List Line) :
    answers? depth s (line :: lines) = (answer? depth s text).bind fun r =>
      (answers? depth r.2 lines).map fun later => (r.1 :: later.1, later.2) := by
  rw [answers?, h]

theorem answers?_invalid (h : line.decode? = none) (lines : List Line) :
    answers? depth s (line :: lines) = some ([], some .invalidText) := by
  rw [answers?, h]

/-- What becomes of the answers to later lines in every session becomes of them behind the answer to
a line. -/
theorem answers?_cons_of_map {g g' : List String × Option ReadError → List String × Option ReadError}
    {later later' : List Line} (hline : line.decode? = some text)
    (h : ∀ t, answers? depth t later = (answers? depth t later').map g)
    (hg : ∀ out r, g' (out :: r.1, r.2) = (out :: (g r).1, (g r).2)) :
    answers? depth s (line :: later) = (answers? depth s (line :: later')).map g' := by
  rw [answers?_text hline, answers?_text hline, Option.map_bind]
  congr 1
  funext r
  rw [h, Function.comp_apply, Option.map_map, Option.map_map]
  congr 1
  funext later
  exact (hg r.1 later).symm

theorem transcript?_eq (lines : List Line) : transcript? depth s lines =
    (answers? depth s lines).map fun r => ⟨written r.1, r.2⟩ := by
  induction lines generalizing s with
  | nil => rfl
  | cons line lines ih =>
    rw [transcript?]
    cases h : line.decode? with
    | none =>
      rw [answers?_invalid h]
      rfl
    | some text =>
      rw [answers?_text h, Option.map_bind]
      dsimp only
      congr 1
      funext r
      rw [ih, Function.comp_apply, Option.map_map, Option.map_map]
      congr 1
      funext later
      simp [written, String.join_cons, String.append_assoc]

/-- A rejected line is answered by the report on it, and leaves the session as it was. -/
theorem Rejected.answer?_eq (h : Rejected text report) :
    answer? depth s text = some (report, s) := by
  cases h with
  | errors h => rw [answer?, if_neg (by simpa using h)]
  | blank h =>
    have hread : (Reading.ofText text) = ⟨[], .empty⟩ := by
      rw [Reading.ofText, h, Reading.ofTokens, Grammar.statements]
      rfl
    rw [answer?, hread]
    rfl

/-- The report on a rejected line is one more answer. It is missing where the dialogue has ended
before that line. -/
theorem answers?_rejected (hline : line.decode? = some text) (h : Rejected text report)
    (before after : List Line) : answers? depth s (before ++ line :: after) =
      (answers? depth s (before ++ after)).map fun r =>
        (r.1.insertIdx before.length report, r.2) := by
  induction before generalizing s with
  | nil =>
    rw [List.nil_append, List.nil_append, answers?_text hline, h.answer?_eq]
    rfl
  | cons first before ih =>
    rw [List.cons_append, List.cons_append]
    cases hfirst : first.decode? with
    | none =>
      rw [answers?_invalid hfirst, answers?_invalid hfirst]
      rfl
    | some text =>
      exact answers?_cons_of_map hfirst (fun _ => ih) fun _ _ => rfl

/-- The lines in front of one that is no text are answered as if nothing came behind them. -/
theorem answers?_append_invalid (hlines : ∀ l ∈ lines, l.decode?.isSome)
    (hline : line.decode? = none) (later : List Line) : answers? depth s (lines ++ line :: later) =
      (answers? depth s lines).map fun r => (r.1, some .invalidText) := by
  induction lines generalizing s with
  | nil =>
    rw [List.nil_append, answers?_invalid hline]
    rfl
  | cons first lines ih =>
    obtain ⟨hfirst, hlines⟩ := List.forall_mem_cons.mp hlines
    obtain ⟨text, htext⟩ := Option.isSome_iff_exists.mp hfirst
    exact answers?_cons_of_map htext (fun _ => ih hlines) fun _ _ => rfl

/-- Lines that are all texts are all answered. -/
theorem failure_eq_none {r : List String × Option ReadError} (hlines : ∀ l ∈ lines, l.decode?.isSome)
    (h : answers? depth s lines = some r) : r.2 = none := by
  induction lines generalizing s r with
  | nil =>
    cases h
    rfl
  | cons line lines ih =>
    obtain ⟨hline, hlines⟩ := List.forall_mem_cons.mp hlines
    obtain ⟨text, htext⟩ := Option.isSome_iff_exists.mp hline
    rw [answers?_text htext] at h
    obtain ⟨t, -, h⟩ := Option.bind_eq_some_iff.mp h
    obtain ⟨later, hlater, rfl⟩ := Option.map_eq_some_iff.mp h
    exact ih (r := later) hlines hlater

/-- A dialogue answers line by line, with a prompt before each answer and at the end. A line with
errors or without tokens adds the report on it to the answers, in its place if the dialogue comes to
it, and takes no part in the others. The first line that is no text ends the dialogue, which has
then written what it writes over the lines before. The lines of an input are what stands between its
newlines, less one carriage return in front of them, and what is left behind the last one. -/
theorem transcript?_of_rejected (depth : Nat) (s : Session) :
    (∀ lines, transcript? depth s lines =
      (answers? depth s lines).map fun r => ⟨written r.1, r.2⟩) ∧
    (∀ before line after text report, line.decode? = some text → Rejected text report →
      transcript? depth s (before ++ line :: after) =
        (answers? depth s (before ++ after)).map fun r =>
          ⟨written (r.1.insertIdx before.length report), r.2⟩) ∧
    (∀ lines line later, (∀ l ∈ lines, l.decode?.isSome) → line.decode? = none →
      (∀ t, transcript? depth s lines = some t → t.failure = none) ∧
      transcript? depth s (lines ++ line :: later) =
        (transcript? depth s lines).map fun t => { t with failure := some .invalidText }) ∧
    ∀ front : List UInt8, (∀ b ∈ front.getLast?, b = Line.newline) →
      (∀ back, Line.split (front ++ back) = Line.split front ++ Line.split back) ∧
      ∀ line : Line, Line.newline ∉ line →
        (∀ back, Line.split (front ++ (line ++ Line.newline :: back)) =
          Line.split front ++ line.trimmed :: Line.split back) ∧
        (line ≠ [] → Line.split (front ++ line) = Line.split front ++ [line]) := by
  refine ⟨transcript?_eq, ?_, ?_, ?_⟩
  · intro before line after text report hline h
    rw [transcript?_eq, answers?_rejected hline h, Option.map_map]
    rfl
  · intro lines line later hlines hline
    constructor
    · intro t ht
      rw [transcript?_eq] at ht
      obtain ⟨r, hr, rfl⟩ := Option.map_eq_some_iff.mp ht
      exact failure_eq_none hlines hr
    · rw [transcript?_eq, transcript?_eq, answers?_append_invalid hlines hline, Option.map_map,
        Option.map_map]
      rfl
  · intro front hfront
    refine ⟨Line.split_append hfront, ?_⟩
    intro line hline
    constructor
    · intro back
      rw [Line.split_append hfront, Line.split_line hline]
    · intro hne
      rw [Line.split_append hfront, Line.split_last hline hne]

/-- The report on a line of which only the first statement is broken. -/
def brokenLet : String := "parser errors:\n\texpected next token to be =, got INT instead\n"

/-- The session in which only `x` is bound. -/
def sessionWithX : Session := ⟨⟨#[⟨[("x", .bool true)], none⟩], 0⟩, 0⟩

theorem transcript?_of_rejected_brokenLet :
    Rejected "let x 2; let y = 3" brokenLet ∧
    transcript? 0 .start [Line.encode "let x = true", Line.encode "x"] =
      some ⟨">> null\n>> true\n>> ", none⟩ ∧
    transcript? 0 .start
        [Line.encode "let x = true", Line.encode "let x 2; let y = 3", Line.encode "x"] =
      some ⟨">> null\n>> " ++ brokenLet ++ ">> true\n>> ", none⟩ ∧
    Line.decode? [255] = none ∧
    transcript? 0 .start [Line.encode "let x = true", Line.encode "x", [255], Line.encode "y"] =
      some ⟨">> null\n>> true\n>> ", some .invalidText⟩ ∧
    Line.split [97, 10, 98, 13, 10, 99] = [[97], [98], [99]] := by
  obtain ⟨hall, hrejected, hinvalid, hsplit⟩ := transcript?_of_rejected 0 .start
  have hreport : Rejected "let x 2; let y = 3" brokenLet := by
    have herrors : (Reading.ofText "let x 2; let y = 3").errors =
        [.expected (.symbol .equal) .int] := by with_unfolding_all rfl
    have h : Rejected "let x 2; let y = 3" ("parser errors:\n" ++ SyntaxError.lines
        (Reading.ofText "let x 2; let y = 3").errors) := .errors (by simp [herrors])
    rw [herrors] at h
    exact h
  have hfirst : answer? 0 .start "let x = true" = some ("null\n", sessionWithX) := by
    have hread : Reading.ofText "let x = true" = ⟨[.define "x" (.bool true)], .empty⟩ := by
      with_unfolding_all rfl
    rw [answer?, hread]
    rfl
  have hlast : answer? 0 sessionWithX "x" = some ("true\n", sessionWithX) := by
    have hread : Reading.ofText "x" = ⟨[.expr (.name "x")], .empty⟩ := by with_unfolding_all rfl
    rw [answer?, hread]
    with_unfolding_all rfl
  have hanswers : answers? 0 .start [Line.encode "let x = true", Line.encode "x"] =
      some (["null\n", "true\n"], none) := by
    rw [answers?_text (Line.decode?_encode _), hfirst, Option.bind_some,
      answers?_text (Line.decode?_encode _), hlast]
    rfl
  have hbad : Line.decode? [255] = none := by
    rw [Line.decode?, String.fromUTF8?]
    refine dif_neg fun h => ?_
    -- no character begins with this byte
    have hbyte : UInt8.IsUTF8FirstByte 255 :=
      ByteArray.IsValidUTF8.isUTF8FirstByte_getElem_zero h (by decide)
    exact absurd hbyte (by decide)
  have htexts : ∀ l ∈ [Line.encode "let x = true", Line.encode "x"], (Line.decode? l).isSome := by
    simp
  have hclean : transcript? 0 .start [Line.encode "let x = true", Line.encode "x"] =
      some ⟨">> null\n>> true\n>> ", none⟩ := by
    rw [hall, hanswers]
    rfl
  refine ⟨hreport, hclean, ?_, hbad, ?_, ?_⟩
  · have h := hrejected [Line.encode "let x = true"] (Line.encode "let x 2; let y = 3")
      [Line.encode "x"] _ _ (Line.decode?_encode _) hreport
    rw [List.singleton_append, List.singleton_append, hanswers] at h
    exact h
  · have h := (hinvalid _ [255] [Line.encode "y"] htexts hbad).2
    rw [hclean] at h
    exact h
  · exact ((hsplit [97, 10] (by simp [Line.newline])).2 [98, 13] (by decide)).1 [99]

end Dialogue
end MonkeyLang
