import MonkeyLang.Proofs.Token.Longest
import MonkeyLang.Token.Cursor

/-! A cursor in the bytes of a text stands between two characters whenever it is asked for a token,
and cuts the text into the tokens that its characters are cut into. -/
namespace MonkeyLang

/-- The number of bytes of some characters. -/
def width (cs : List Char) : Nat := (String.ofList cs).utf8ByteSize

theorem width_eq_size (cs : List Char) : width cs = (String.ofList cs).toByteArray.size :=
  String.size_toByteArray.symm

@[simp] theorem width_nil : width [] = 0 := rfl

@[simp] theorem width_append (cs ds : List Char) : width (cs ++ ds) = width cs + width ds := by
  rw [width, String.ofList_append, String.utf8ByteSize_append, width, width]

@[simp] theorem width_cons (c : Char) (cs : List Char) : width (c :: cs) = c.utf8Size + width cs := by
  have h : width [c] = c.utf8Size := by
    rw [width_eq_size, String.toByteArray_ofList, List.utf8Encode_singleton]
    simp
  rw [← h, ← width_append, List.singleton_append]

theorem one_le_width_of_ne_nil {cs : List Char} (h : cs ≠ []) : 1 ≤ width cs := by
  obtain ⟨c, cs, rfl⟩ := List.exists_cons_of_ne_nil h
  have hc := c.utf8Size_pos
  rw [width_cons]
  omega

/-- The first byte of a character is that character, if it is an ASCII one, and else no ASCII
character. -/
theorem exists_firstByte (c : Char) : ∃ b bs, String.utf8EncodeChar c = b :: bs ∧
    (Char.ofUInt8 b = c ∧ c.utf8Size = 1 ∨ 128 ≤ (Char.ofUInt8 b).toNat ∧ 128 ≤ c.toNat) := by
  have htoNat (n : Nat) : (Char.ofUInt8 (.ofNat n)).toNat = n % 256 := by
    change (UInt8.ofNat n).toUInt32.toNat = n % 256
    rw [UInt8.toNat_toUInt32, UInt8.toNat_ofNat']
  by_cases h : c.val.toNat ≤ 127
  · refine ⟨.ofNat c.val.toNat, [], if_pos h, .inl ⟨?_, Char.utf8Size_eq_one_iff.mpr h⟩⟩
    rw [← Char.toNat_inj, htoNat]
    exact Nat.mod_eq_of_lt (by omega)
  · have hc : 128 ≤ c.toNat := Nat.lt_of_not_le h
    simp only [String.utf8EncodeChar, if_neg h]
    split
    · refine ⟨_, _, rfl, .inr ⟨?_, hc⟩⟩
      rw [htoNat]
      omega
    split
    · refine ⟨_, _, rfl, .inr ⟨?_, hc⟩⟩
      rw [htoNat]
      omega
    · refine ⟨_, _, rfl, .inr ⟨?_, hc⟩⟩
      rw [htoNat]
      omega

/-- Characters beyond ASCII belong to no class of characters that make up tokens. -/
theorem classes_of_not_ascii {c : Char} (h : 128 ≤ c.toNat) :
    isBlank c = false ∧ isLetter c = false ∧ c.isDigit = false ∧ Symbol.ofChar? c = none ∧ c ≠ '=' := by
  have hb : isBlank c = false := by
    rw [Bool.eq_false_iff]
    intro hb
    simp only [isBlank, Bool.or_eq_true, beq_iff_eq] at hb
    rcases hb with ((rfl | rfl) | rfl) | rfl <;> revert h <;> decide
  have hl : isLetter c = false := by
    rw [Bool.eq_false_iff, ne_eq, isLetter_iff_toNat]
    rintro (hl | hl | rfl)
    · omega
    · omega
    · revert h
      decide
  refine ⟨hb, hl, ?_, ?_, ?_⟩
  · rw [Bool.eq_false_iff, ne_eq, Char.isDigit_iff_toNat]
    change ¬ (48 ≤ c.toNat ∧ c.toNat ≤ 57)
    omega
  · unfold Symbol.ofChar?
    split <;> first | rfl | (revert h; decide)
  · rintro rfl
    revert h
    decide

theorem Symbol.ofChar?_or (s : Symbol) :
    (∃ c, ofChar? c = some s ∧ s.text.toList = [c]) ∨ s = bangEqual ∨ s = equalEqual := by
  have hfront (hs : s ≠ bangEqual ∧ s ≠ equalEqual) :
      ofChar? (s.text.toList.headD ' ') = some s ∧ s.text.toList = [s.text.toList.headD ' '] := by
    revert hs
    cases s <;> decide
  grind

namespace Cursor
variable {source : String} {a m b cs : List Char}

/-- A cursor on the byte at a place. -/
def onByte (source : String) (i : Nat) : Cursor :=
  ⟨source, i, min (i + 1) source.utf8ByteSize, byte? source i⟩

theorem advance_onByte {i : Nat} (h : i < source.utf8ByteSize) :
    (onByte source i).advance = onByte source (i + 1) := by
  have hmin : min (i + 1) source.utf8ByteSize = i + 1 := Nat.min_eq_left h
  by_cases hi : i + 1 < source.utf8ByteSize
  · simp only [onByte, advance, hmin, if_pos hi, Nat.min_eq_left (Nat.succ_le_of_lt hi)]
  · have he : i + 1 = source.utf8ByteSize := by omega
    simp [onByte, advance, he]

theorem start_eq (source : String) : start source = onByte source 0 := by
  by_cases h : 0 < source.utf8ByteSize
  · simp [start, advance, onByte, h, Nat.min_eq_left (Nat.succ_le_of_lt h)]
  · simp [start, advance, onByte, Nat.eq_zero_of_not_pos h]

theorem advanceBy_onByte {i n : Nat} (h : i + n ≤ source.utf8ByteSize) :
    (onByte source i).advanceBy n = onByte source (i + n) := by
  induction n generalizing i with
  | zero => rfl
  | succ n ih =>
    rw [advanceBy, advance_onByte (by omega), ih (by omega), Nat.add_right_comm, Nat.add_assoc]

theorem size_eq (h : source.toList = a ++ b) : source.utf8ByteSize = width a + width b := by
  rw [← width_append, ← h, width, String.ofList_toList]

theorem isValid_width (h : source.toList = a ++ b) :
    String.Pos.Raw.IsValid source ⟨width a⟩ := by
  rw [String.Pos.Raw.isValid_iff_exists_append]
  refine ⟨String.ofList a, String.ofList b, ?_, rfl⟩
  rw [← String.ofList_append, ← h, String.ofList_toList]

theorem byte?_width (h : source.toList = a ++ b) :
    byte? source (width a) = (b.flatMap String.utf8EncodeChar).head? := by
  have hbytes (cs : List Char) :
      (String.ofList cs).toByteArray.data.toList = cs.flatMap String.utf8EncodeChar := by
    rw [String.toByteArray_ofList, List.utf8Encode, List.toList_data_toByteArray]
  have hwidth : width a = (a.flatMap String.utf8EncodeChar).length := by
    rw [← hbytes, Array.length_toList, width_eq_size]
    rfl
  rw [byte?, ← Array.getElem?_toList, ← String.ofList_toList (s := source), h, hbytes,
    List.flatMap_append, hwidth, List.getElem?_append_right le_rfl, Nat.sub_self, List.head?_eq_getElem?]

theorem slice?_width (h : source.toList = a ++ m ++ b) :
    slice? source (width a) (width (a ++ m)) = some (String.ofList m) := by
  have hleft : source.toList = a ++ (m ++ b) := by rw [h, List.append_assoc]
  have hle : width a ≤ width (a ++ m) := by simp
  rw [slice?, if_pos ⟨hle, isValid_width hleft, isValid_width h⟩]
  have hbytes : source.toByteArray.extract (width a) (width (a ++ m)) =
      (String.ofList m).toByteArray := by
    rw [← String.ofList_toList (s := source), hleft, String.ofList_append, String.ofList_append,
      String.toByteArray_append, String.toByteArray_append, width_append, width_eq_size, width_eq_size,
      ← Nat.add_zero (String.ofList a).toByteArray.size, Nat.add_assoc, Nat.zero_add,
      ByteArray.extract_append_size_add, ByteArray.extract_append_eq_left rfl]
  rw [hbytes]
  exact dif_pos (String.ofList m).isValidUTF8

theorem exists_byte {c : Char} (h : source.toList = a ++ c :: cs) :
    ∃ u, byte? source (width a) = some u ∧
      (Char.ofUInt8 u = c ∧ c.utf8Size = 1 ∨ 128 ≤ (Char.ofUInt8 u).toNat ∧ 128 ≤ c.toNat) := by
  obtain ⟨u, us, hu, hc⟩ := exists_firstByte c
  refine ⟨u, ?_, hc⟩
  rw [byte?_width h, List.flatMap_cons, hu, List.cons_append, List.head?_cons]

theorem advance_width {c : Char} (h : source.toList = a ++ c :: cs) (hc : c.utf8Size = 1) :
    (onByte source (width a)).advance = onByte source (width (a ++ [c])) := by
  have hsize := size_eq h
  rw [width_cons] at hsize
  rw [advance_onByte (by omega), width_append, width_cons, hc, width_nil]

/-- A cursor skips the characters of a class that only has ASCII characters. -/
theorem skipWhile_onByte {p : Char → Bool} (hp : ∀ c, 128 ≤ c.toNat → p c = false)
    (h : source.toList = a ++ b) :
    (onByte source (width a)).skipWhile p = onByte source (width (a ++ b.takeWhile p)) := by
  induction b generalizing a with
  | nil =>
    have hn : byte? source (width a) = none := byte?_width h
    rw [skipWhile]
    split
    · simp
    · rename_i hu
      simp [onByte, hn] at hu
  | cons c cs ih =>
    obtain ⟨u, hu, hc⟩ := exists_byte h
    rw [skipWhile]
    split
    · rename_i hn
      simp [onByte, hu] at hn
    rename_i v hv
    obtain rfl : u = v := Option.some.inj (hu.symm.trans hv)
    rcases hc with ⟨hc, hsize⟩ | ⟨hu, hc⟩
    · rw [hc, List.takeWhile_cons]
      split
      · rw [advance_width h hsize, ih (by simp [h]), List.append_assoc, List.singleton_append]
      · rw [List.append_nil]
    · rw [hp _ hu, List.takeWhile_cons, hp _ hc]
      simp

theorem cut?_onByte (h : source.toList = a ++ m ++ b) (kind : String → Kind) :
    (onByte source (width a)).cut? (onByte source (width (a ++ m))) kind =
      some ((kind (String.ofList m), String.ofList m), onByte source (width (a ++ m))) := by
  rw [cut?]
  simp only [onByte]
  rw [slice?_width h, Option.map_some]

theorem peek?_onByte {c : Char} (h : source.toList = a ++ c :: cs) (hc : c.utf8Size = 1) :
    (onByte source (width a)).peek?.map Char.ofUInt8 = some '=' ↔ cs.head? = some '=' := by
  have hsize := size_eq h
  have hleft : source.toList = a ++ [c] ++ cs := by simp [h]
  have hnext : min (width a + 1) source.utf8ByteSize = width (a ++ [c]) := by
    simp only [width_append, width_cons, width_nil, hc] at hsize ⊢
    omega
  rw [peek?, onByte, hnext]
  cases cs with
  | nil =>
    have hn : byte? source (width (a ++ [c])) = none := byte?_width hleft
    rw [hn]
    simp
  | cons d ds =>
    obtain ⟨u, hu, hd⟩ := exists_byte hleft
    rw [hu, List.head?_cons, Option.map_some, Option.some_inj, Option.some_inj]
    rcases hd with ⟨hd, -⟩ | ⟨hu, hd⟩
    · rw [hd]
    · simp [(classes_of_not_ascii hu).2.2.2.2, (classes_of_not_ascii hd).2.2.2.2]

/-- What a cursor takes at a token is the token. -/
def Takes (source : String) (a : List Char) (t : Token) : Prop :=
  (onByte source (width a)).lexeme? =
    some ((t.kind, t.lexeme), onByte source (width (a ++ t.lexeme.toList)))

/-- A byte that starts a symbol is an ASCII character of its own. -/
theorem byte_of_ofChar? {c : Char} {s : Symbol} (h : source.toList = a ++ c :: b)
    (hs : Symbol.ofChar? c = some s) :
    ∃ u, byte? source (width a) = some u ∧ Char.ofUInt8 u = c ∧ c.utf8Size = 1 := by
  obtain ⟨u, hu, hc | ⟨-, hc⟩⟩ := exists_byte h
  · exact ⟨u, hu, hc⟩
  · simp [(classes_of_not_ascii hc).2.2.2.1] at hs

theorem symbol?_onByte {c : Char} {one two : Symbol} (h : source.toList = a ++ c :: b)
    (hc : c.utf8Size = 1) (hb : b.head? ≠ some '=') :
    (onByte source (width a)).symbol? one two =
      some ((.symbol one, String.ofList [c]), onByte source (width (a ++ [c]))) := by
  have hleft : source.toList = a ++ [c] ++ b := by simp [h]
  rw [symbol?, if_neg (by rwa [peek?_onByte h hc]), advance_width h hc, cut?_onByte hleft]

theorem symbol?_onByte_equal {c : Char} {one two : Symbol} (h : source.toList = a ++ c :: '=' :: b)
    (hc : c.utf8Size = 1) :
    (onByte source (width a)).symbol? one two =
      some ((.symbol two, String.ofList [c, '=']), onByte source (width (a ++ [c, '=']))) := by
  have hnext : source.toList = a ++ [c] ++ '=' :: b := by simp [h]
  have hleft : source.toList = a ++ [c, '='] ++ b := by simp [h]
  rw [symbol?, if_pos (by rw [peek?_onByte h hc]; rfl), advance_width h hc,
    advance_width hnext (by decide), List.append_assoc, List.singleton_append, cut?_onByte hleft]

theorem lexeme?_of_ofChar? {c : Char} {s : Symbol} (h : source.toList = a ++ c :: b)
    (hs : Symbol.ofChar? c = some s) :
    (onByte source (width a)).lexeme? = (onByte source (width a)).symbolOf? s := by
  obtain ⟨u, hu, hc, -⟩ := byte_of_ofChar? h hs
  have hcur : (onByte source (width a)).current = some u := hu
  rw [lexeme?, hcur]
  simp only [hc, hs]

theorem takes_symbol {s : Symbol} (he : (Token.symbol s).EndsBefore b)
    (h : source.toList = a ++ s.text.toList ++ b) : Takes source a (.symbol s) := by
  rw [List.append_assoc] at h
  obtain ⟨c, hs, ht⟩ | rfl | rfl := s.ofChar?_or
  · have hfront : source.toList = a ++ c :: b := by simp [h, ht]
    have hleft : source.toList = a ++ [c] ++ b := by simp [hfront]
    obtain ⟨-, -, -, hsize⟩ := byte_of_ofChar? hfront hs
    have hlexeme : (Token.symbol s).lexeme = String.ofList [c] := by
      rw [← ht, String.ofList_toList]
      rfl
    rw [Takes, lexeme?_of_ofChar? hfront hs, hlexeme, String.toList_ofList]
    unfold symbolOf?
    split
    · exact symbol?_onByte hfront hsize fun hb => he '=' hb rfl
    · exact symbol?_onByte hfront hsize fun hb => he '=' hb rfl
    · rw [advance_width hfront hsize, cut?_onByte hleft]
      rfl
  · rw [Takes, lexeme?_of_ofChar? (c := '!') h rfl]
    exact symbol?_onByte_equal h rfl
  · rw [Takes, lexeme?_of_ofChar? (c := '=') h rfl]
    exact symbol?_onByte_equal h rfl

/-- What starts with no symbol is told apart by its first character, as by its first byte. -/
theorem lexeme?_of_no_symbol {c : Char} (h : source.toList = a ++ c :: b)
    (hs : Symbol.ofChar? c = none) :
    (onByte source (width a)).lexeme? =
      if isLetter c then
        (onByte source (width a)).cut? ((onByte source (width a)).skipWhile isLetter)
          fun word => ((Keyword.ofText? word).map Kind.keyword).getD .name
      else if c.isDigit then
        (onByte source (width a)).cut? ((onByte source (width a)).skipWhile Char.isDigit) fun _ => .int
      else (onByte source (width a)).illegal? := by
  obtain ⟨u, hu, hc⟩ := exists_byte h
  have hcur : (onByte source (width a)).current = some u := hu
  rw [lexeme?, hcur]
  rcases hc with ⟨hc, -⟩ | ⟨hu, hc⟩
  · simp only [hc, hs]
  · obtain ⟨-, hul, hud, hus, -⟩ := classes_of_not_ascii hu
    obtain ⟨-, hcl, hcd, -, -⟩ := classes_of_not_ascii hc
    simp only [hul, hud, hus, hcl, hcd]

theorem symbol_none_of_class {c : Char} (hc : isLetter c = true ∨ c.isDigit = true) :
    Symbol.ofChar? c = none := by
  rw [Option.eq_none_iff_forall_ne_some]
  intro s hs
  obtain ⟨-, hl, hd, -⟩ := Symbol.classes_of_ofChar? hs
  simp [hl, hd] at hc

theorem cut?_run {p : Char → Bool} (hp : ∀ c, 128 ≤ c.toNat → p c = false)
    (hl : ∀ c ∈ m, p c = true) (hb : ∀ c ∈ b.head?, p c ≠ true) (h : source.toList = a ++ m ++ b)
    (kind : String → Kind) :
    (onByte source (width a)).cut? ((onByte source (width a)).skipWhile p) kind =
      some ((kind (String.ofList m), String.ofList m), onByte source (width (a ++ m))) := by
  have hleft : source.toList = a ++ (m ++ b) := by rw [h, List.append_assoc]
  rw [skipWhile_onByte hp hleft, (Token.span_append hl hb).1, cut?_onByte h]

theorem takes_word {t : Token} (hm : m ≠ []) (hl : ∀ c ∈ m, isLetter c = true)
    (hb : ∀ c ∈ b.head?, isLetter c ≠ true) (ht : t.lexeme = String.ofList m)
    (hk : t.kind = ((Keyword.ofText? t.lexeme).map Kind.keyword).getD .name)
    (h : source.toList = a ++ m ++ b) : Takes source a t := by
  have hrun := cut?_run (fun c hc => (classes_of_not_ascii hc).2.1) hl hb h
  obtain ⟨c, cs, rfl⟩ := List.exists_cons_of_ne_nil hm
  have hc := hl c List.mem_cons_self
  have hfront : source.toList = a ++ (c :: cs ++ b) := by rw [h, List.append_assoc]
  rw [Takes, lexeme?_of_no_symbol hfront (symbol_none_of_class (.inl hc)), if_pos hc, hrun, hk, ht,
    String.toList_ofList]

theorem takes_digits (hm : m ≠ []) (hl : ∀ c ∈ m, c.isDigit = true)
    (hb : ∀ c ∈ b.head?, c.isDigit ≠ true) (h : source.toList = a ++ m ++ b) :
    Takes source a (.int (String.ofList m)) := by
  have hrun := cut?_run (fun c hc => (classes_of_not_ascii hc).2.2.1) hl hb h
  obtain ⟨c, cs, rfl⟩ := List.exists_cons_of_ne_nil hm
  have hc := hl c List.mem_cons_self
  have hfront : source.toList = a ++ (c :: cs ++ b) := by rw [h, List.append_assoc]
  rw [Takes, lexeme?_of_no_symbol hfront (symbol_none_of_class (.inr hc)),
    if_neg (by simp [(classes_of_isDigit hc).2]), if_pos hc, hrun]
  simp [Token.kind, Token.lexeme]

theorem takes_illegal {c : Char} (hv : (Token.illegal c).Valid) (h : source.toList = a ++ c :: b) :
    Takes source a (.illegal c) := by
  obtain ⟨-, hl, hd, hs⟩ := hv
  have hfront : source.toList = a ++ [c] ++ b := by simp [h]
  have hall : source.toList = a ++ (c :: b) ++ [] := by simp [h]
  have hwidth : width a + c.utf8Size = width (a ++ [c]) := by simp
  have hsize := size_eq hfront
  have hrest : slice? source (width a) source.utf8ByteSize = some (String.ofList (c :: b)) := by
    rw [← slice?_width hall, size_eq hall, width_append, width_nil, Nat.add_zero]
  have hchar : slice? source (width a) (width (a ++ [c])) = some (String.ofList [c]) :=
    slice?_width hfront
  rw [Takes, lexeme?_of_no_symbol h hs, if_neg (by simp [hl]), if_neg (by simp [hd]), illegal?]
  have hadvance : (onByte source (width a)).advanceBy c.utf8Size = onByte source (width (a ++ [c])) := by
    rw [advanceBy_onByte (by simp [hsize]), hwidth]
  change (slice? source (width a) source.utf8ByteSize).bind _ = _
  simp only [hrest, Option.bind_some, String.toList_ofList, List.head?_cons, Option.map_some,
    Option.getD_some, hadvance]
  change (slice? source (width a) (width a + c.utf8Size)).map _ = _
  rw [hwidth, hchar]
  simp [Token.kind, Token.lexeme]

theorem takes_of_valid {t : Token} (hv : t.Valid) (he : t.EndsBefore b)
    (h : source.toList = a ++ t.lexeme.toList ++ b) : Takes source a t := by
  have hne := Token.lexeme_ne_nil hv
  cases t with
  | symbol s => exact takes_symbol he h
  | keyword k =>
    refine takes_word hne (fun _ => Keyword.isLetter_of_mem_text) he (String.ofList_toList).symm ?_ h
    simp [Token.kind, Token.lexeme]
  | name x =>
    refine takes_word hne hv.2.1 he (String.ofList_toList).symm ?_ h
    simp [Token.kind, Token.lexeme, hv.2.2]
  | int digits =>
    have ht := takes_digits hne hv.2 he h
    rwa [String.ofList_toList] at ht
  | illegal c => exact takes_illegal hv (by simpa [Token.lexeme] using h)

/-- Blanks in front of a token do not matter. -/
theorem token?_blanks {w : List Char} (hw : ∀ c ∈ w, isBlank c = true)
    (h : source.toList = a ++ (w ++ b)) :
    (onByte source (width a)).token? = (onByte source (width (a ++ w))).token? := by
  have hblank : ∀ c, 128 ≤ c.toNat → isBlank c = false := fun c hc => (classes_of_not_ascii hc).1
  have hleft : source.toList = a ++ w ++ b := by rw [h, List.append_assoc]
  rw [token?, token?, skipWhile_onByte hblank h, skipWhile_onByte hblank hleft,
    List.takeWhile_append_of_pos hw, List.append_assoc]

theorem token?_end (h : source.toList = a) :
    (onByte source (width a)).token? = some ((.endOfInput, ""), onByte source (width a)) := by
  have hleft : source.toList = a ++ [] := by rw [h, List.append_nil]
  have hn : (onByte source (width a)).current = none := byte?_width hleft
  rw [token?, skipWhile_onByte (fun c hc => (classes_of_not_ascii hc).1) hleft, List.takeWhile_nil,
    List.append_nil, lexeme?, hn]

theorem token?_lexeme {t : Token} (hv : t.Valid) (he : t.EndsBefore b)
    (h : source.toList = a ++ (t.lexeme.toList ++ b)) :
    (onByte source (width a)).token? =
      some ((t.kind, t.lexeme), onByte source (width (a ++ t.lexeme.toList))) := by
  obtain ⟨c, cs, hl⟩ := List.exists_cons_of_ne_nil (Token.lexeme_ne_nil hv)
  obtain ⟨hb, -⟩ := Token.split_lexeme hv he hl
  have hleft : source.toList = a ++ t.lexeme.toList ++ b := by rw [h, List.append_assoc]
  rw [token?, skipWhile_onByte (fun c hc => (classes_of_not_ascii hc).1) h, hl, List.cons_append,
    List.takeWhile_cons_of_neg (by simp [hb]), List.append_nil]
  exact hl ▸ takes_of_valid hv he hleft

/-- A cursor in front of a text that is cut into some tokens. -/
def StandsBefore (source : String) (ts : List Token) (c : Cursor) : Prop :=
  ∃ a b, source.toList = a ++ b ∧ c = onByte source (width a) ∧ Token.Munched ts b

/-- The entry for the first of some tokens: with none left that is the end. -/
def entry (ts : List Token) : Kind × String :=
  (ts.head?.map fun t => (t.kind, t.lexeme)).getD (.endOfInput, "")

variable {ts : List Token} {c : Cursor}

theorem standsBefore_start (source : String) :
    StandsBefore source (Token.scan source) (start source) := by
  obtain ⟨hmunched, -, -⟩ := Token.munched_iff_scan source
  exact ⟨[], source.toList, rfl, start_eq source, (hmunched _).mpr rfl⟩

/-- Taking a token takes the first one and leaves the others. -/
theorem StandsBefore.token? (h : StandsBefore source ts c) :
    ∃ later, c.token? = some (entry ts, later) ∧ StandsBefore source ts.tail later ∧
      (ts ≠ [] → (entry ts).1 ≠ .endOfInput ∧ 1 ≤ (entry ts).2.utf8ByteSize ∧
        c.position + (entry ts).2.utf8ByteSize ≤ later.position) := by
  obtain ⟨a, b, hs, rfl, hb⟩ := h
  cases hb with
  | done hw =>
    refine ⟨onByte source (width (a ++ b)), ?_, ?_, fun hne => (hne rfl).elim⟩
    · rw [token?_blanks (b := []) hw (by simpa using hs), token?_end hs]
      rfl
    · exact ⟨a ++ b, [], by simpa using hs, rfl, .done nofun⟩
  | @token w t ts cs hw ht hcs =>
    obtain ⟨hv, he⟩ := Token.leads_iff.mp ht
    have hleft : source.toList = a ++ w ++ (t.lexeme.toList ++ cs) := by rw [hs, List.append_assoc]
    refine ⟨onByte source (width (a ++ w ++ t.lexeme.toList)), ?_, ?_, ?_⟩
    · rw [token?_blanks hw hs, token?_lexeme hv he hleft]
      rfl
    · exact ⟨a ++ w ++ t.lexeme.toList, cs, by simp [hleft], rfl, hcs⟩
    · intro _
      have hlexeme : t.lexeme.utf8ByteSize = width t.lexeme.toList := by
        rw [width, String.ofList_toList]
      refine ⟨by cases t <;> nofun, ?_, ?_⟩
      · change 1 ≤ t.lexeme.utf8ByteSize
        rw [hlexeme]
        exact one_le_width_of_ne_nil (Token.lexeme_ne_nil hv)
      · change width a + t.lexeme.utf8ByteSize ≤ width (a ++ w ++ t.lexeme.toList)
        rw [hlexeme, width_append, width_append]
        omega

/-- Requests take one token each. -/
theorem StandsBefore.requests? (h : StandsBefore source ts c) (rs : List Request) :
    ∃ later, Cursor.requests? rs c = some later ∧ StandsBefore source (ts.drop rs.length) later := by
  induction rs generalizing ts c with
  | nil => exact ⟨c, rfl, h⟩
  | cons r rs ih =>
    obtain ⟨next, hnext, hstands, -⟩ := h.token?
    obtain ⟨later, hlater, hdrop⟩ := ih hstands
    refine ⟨later, ?_, ?_⟩
    · rw [Cursor.requests?, request?, hnext]
      exact hlater
    · rwa [List.drop_tail] at hdrop

theorem StandsBefore.lists (h : StandsBefore source ts c) :
    c.Lists (ts.map (fun t => (t.kind, t.lexeme)) ++ [(.endOfInput, "")]) := by
  induction ts generalizing c with
  | nil =>
    obtain ⟨later, hlater, -, -⟩ := h.token?
    exact .last hlater rfl
  | cons t ts ih =>
    obtain ⟨later, hlater, hstands, hne⟩ := h.token?
    exact .more hlater (hne (List.cons_ne_nil t ts)).1 (ih hstands)

/-- What holds of a cursor between two requests. -/
structure Sound (source : String) (c : Cursor) : Prop where
  source_eq : c.source = source
  position_le : c.position ≤ source.utf8ByteSize
  boundary : String.Pos.Raw.IsValid source ⟨c.position⟩
  current_eq : c.current = byte? source c.position
  readPosition_eq : c.readPosition = min (c.position + 1) source.utf8ByteSize

theorem StandsBefore.sound (h : StandsBefore source ts c) : Sound source c := by
  obtain ⟨a, b, hs, rfl, -⟩ := h
  refine ⟨rfl, ?_, isValid_width hs, rfl, rfl⟩
  rw [size_eq hs]
  exact Nat.le_add_right _ _

theorem entry_drop (source : String) (k : Nat) :
    entry ((Token.scan source).drop k) =
      (Token.entries source.toList)[k]?.getD (.endOfInput, "") := by
  rw [Token.entries_eq, entry, List.head?_drop, ← Token.scan]
  rcases Nat.lt_or_ge k (Token.scan source).length with hk | hk
  · rw [List.getElem?_append_left (by simpa using hk), List.getElem?_map]
  · rw [List.getElem?_append_right (by simpa using hk), List.getElem?_eq_none hk]
    cases k - ((Token.scan source).map fun t => (t.kind, t.lexeme)).length <;> rfl

/-- However a text is asked for its tokens, the requests come upon the tokens that are listed for it
in turn, and upon the end from there on. No request cuts a character, each leaves the cursor
between two characters, and each that does not come upon the end goes on by a token at least. -/
theorem requests?_start (source : String) :
    ∃ es, (start source).Lists es ∧ es = Token.entries source.toList ∧
      ∀ rs, ∃ c, Cursor.requests? rs (start source) = some c ∧ Sound source c ∧
        ∀ r, ∃ e later, e = es[rs.length]?.getD (.endOfInput, "") ∧
          request? r c = some (r.answer e, later) ∧
          (e.1 ≠ .endOfInput →
            1 ≤ e.2.utf8ByteSize ∧ c.position + e.2.utf8ByteSize ≤ later.position) := by
  have hstart := standsBefore_start source
  refine ⟨Token.entries source.toList, ?_, rfl, ?_⟩
  · rw [Token.entries_eq]
    exact hstart.lists
  · intro rs
    obtain ⟨c, hc, hstands⟩ := hstart.requests? rs
    refine ⟨c, hc, hstands.sound, ?_⟩
    intro r
    obtain ⟨later, hlater, -, hstep⟩ := hstands.token?
    refine ⟨_, later, (entry_drop source rs.length), ?_, ?_⟩
    · rw [request?, hlater]
      rfl
    · intro he
      have hne : (Token.scan source).drop rs.length ≠ [] := by
        intro hnil
        rw [hnil] at he
        exact he rfl
      exact (hstep hne).2

theorem requests?_start_accented :
    ∃ c later, Cursor.requests? [.next] (start "a\té ") = some c ∧
      request? .token c = some (some (.illegal, "é"), later) ∧ c.position + 2 ≤ later.position := by
  have hscan : Token.scan "a\té " = [.name "a", .illegal 'é'] := by with_unfolding_all rfl
  obtain ⟨es, -, hes, hall⟩ := requests?_start "a\té "
  rw [Token.entries_eq, ← Token.scan, hscan] at hes
  obtain ⟨c, hc, -, hrequest⟩ := hall [.next]
  obtain ⟨e, later, he, hlater, hmoves⟩ := hrequest .token
  obtain rfl : e = (.illegal, "é") := by rw [he, hes]; rfl
  exact ⟨c, later, hc, hlater, (hmoves (by decide)).2⟩

end Cursor
end MonkeyLang
