import MonkeyLang.Dialogue.Line
import MonkeyLang.Proofs.Syntax.Printed

/-! Texts as bytes. Texts of printable characters, each ended by a newline, are the lines of an
input. -/
namespace MonkeyLang

theorem fromUTF8?_toByteArray (s : String) : String.fromUTF8? s.toByteArray = some s :=
  dif_pos s.isValidUTF8

namespace Line

/-- The bytes of a text in UTF-8. -/
def encode (s : String) : Line := s.toByteArray.data.toList

@[simp] theorem decode?_encode (s : String) : decode? (encode s) = some s :=
  fromUTF8?_toByteArray s

theorem splitFrom_append {line : Line} (h : newline ∉ line) (read rest : List UInt8) :
    splitFrom read (line ++ newline :: rest) =
      (dropReturn (line.reverse ++ read)).reverse :: splitFrom [] rest := by
  induction line generalizing read with
  | nil => exact if_pos rfl
  | cons b line ih =>
    have hb : b ≠ newline := fun hb => h (List.mem_cons.mpr (.inl hb.symm))
    rw [List.cons_append, splitFrom, if_neg hb, ih fun hn => h (List.mem_cons_of_mem b hn)]
    simp

end Line

/-- The input in which each text stands on a line of its own. -/
def Dialogue.input (texts : List String) : List UInt8 :=
  Line.encode (String.join (texts.map (· ++ "\n")))

end MonkeyLang
