import DotLang.Proofs.Bytes.Strings
import DotLang.Proofs.Lexical.Calls

/-!
# Lexemes, byte by byte

The bytes of a lexeme tell what those of its characters tell, and what is sliced out of the text is the lexeme.
-/

namespace DotLang

namespace Cursor

/-! ## Slices behind a text -/

section
variable {text passed front rest : List Char} {loc : Location}

theorem past_eq_right (h : ∀ c ∈ front, isBreak c = false) :
    loc.past front rest = loc.right (byteLength front) := by
  induction front generalizing loc with
  | nil => rfl
  | cons c front ih =>
    rw [List.forall_mem_cons] at h
    rw [Location.past, after_eq_right h.1, ih h.2, right_right, byteLength_cons]

theorem slice_past (ht : text = passed ++ (front ++ rest)) (hl : loc.offset = byteLength passed) :
    slice (utf8 text) loc.offset (loc.past front rest).offset = .ok (String.ofList front) := by
  rw [offset_past, hl, ← byteLength_append, ht, ← List.append_assoc]
  exact slice_utf8 passed front rest

/-! ## Words -/

theorem readWord_bytes (ht : text = passed ++ (front ++ rest)) (hl : loc.offset = byteLength passed)
    (hf : front.all isNameChar = true) (hr : ∀ c ∈ rest.head?, isNameChar c = false) :
    readWord (utf8 text) (Lexer.bytes ⟨front ++ rest, loc⟩) =
      .ok (.ok (.ofWord (String.ofList front)), Lexer.bytes ⟨rest, loc.past front rest⟩) := by
  have hskip : skipWhile (fun b => IsNameByte b ∨ IsDigitByte b) (Lexer.bytes ⟨front ++ rest, loc⟩) =
      Lexer.bytes ⟨rest, loc.past front rest⟩ := by
    apply skipWhile_bytes
    · intro c hc
      have hname := List.all_eq_true.1 hf c hc
      refine ⟨?_, fun b hb => decide_eq_true ((isNameChar_iff hb).2 hname)⟩
      rw [Bool.eq_false_iff]
      intro hbreak
      rw [isBreak_iff] at hbreak
      rcases hbreak with rfl | rfl <;> cases hname
    · intro b hb
      cases rest with
      | nil => cases hb
      | cons c rest =>
        obtain ⟨first, more, hmem, hbytes⟩ := exists_utf8_cons c rest
        rw [hbytes] at hb
        obtain rfl : first = b := by simpa using hb
        have hname := hr c rfl
        rw [decide_eq_false_iff_not, isNameChar_iff hmem, hname]
        decide
  unfold readWord
  rw [hskip]
  show (slice (utf8 text) loc.offset (loc.past front rest).offset >>= _) = _
  rw [slice_past ht hl]
  rfl

/-! ## Numerals -/

theorem toNat_of_isDigit {c : Char} (hc : c.isDigit = true) : c.toNat < 128 := by
  rw [isDigit_iff_toNat] at hc
  omega

theorem digitsLength_utf8 (text : List Char) : digitsLength (utf8 text) = (text.takeWhile Char.isDigit).length := by
  induction text with
  | nil => rfl
  | cons c text ih =>
    obtain ⟨b, more, hb, hbytes⟩ := exists_utf8_cons c text
    rw [List.takeWhile_cons]
    cases hc : c.isDigit with
    | true =>
      have hlt := toNat_of_isDigit hc
      have hdigit : IsDigitByte (ascii c) := by
        rw [isDigitByte_iff (by rw [utf8EncodeChar_of_lt hlt]; exact List.mem_singleton_self _), hc]
      rw [utf8_cons_of_lt hlt, digitsLength, if_pos hdigit, ih]
      rfl
    | false =>
      have hdigit : ¬ IsDigitByte b := by
        rw [isDigitByte_iff hb, hc]
        decide
      rw [hbytes, digitsLength, if_neg hdigit]
      rfl

theorem drop_digits (text : List Char) :
    (utf8 text).drop (text.takeWhile Char.isDigit).length = utf8 (text.dropWhile Char.isDigit) := by
  have hlt : ∀ c ∈ text.takeWhile Char.isDigit, c.toNat < 128 := fun c hc =>
    toNat_of_isDigit (List.all_eq_true.1 List.all_takeWhile c hc)
  have h := drop_utf8 hlt (text.dropWhile Char.isDigit)
  rwa [List.takeWhile_append_dropWhile] at h

theorem unsignedLength?_fraction (text : List Char) :
    unsignedLength? (utf8 ('.' :: text)) = (unsignedNumeral? ('.' :: text)).map List.length := by
  have hread : unsignedNumeral? ('.' :: text) =
      if (text.takeWhile Char.isDigit).isEmpty then none else some ('.' :: text.takeWhile Char.isDigit) := rfl
  have htail : (utf8 ('.' :: text)).tail = utf8 text := rfl
  rw [unsignedLength?, if_pos ((head?_utf8_eq_iff (by decide)).2 rfl), htail, digitsLength_utf8, hread]
  cases text.takeWhile Char.isDigit with
  | nil => rfl
  | cons c digits => simp [Nat.add_comm]

theorem unsignedLength?_whole {text : List Char} (hpoint : text.head? ≠ some '.') :
    unsignedLength? (utf8 text) = (unsignedNumeral? text).map List.length := by
  have hnone : text.takeWhile Char.isDigit = [] → text.dropWhile Char.isDigit = text := by
    intro hwhole
    have hsplit := List.takeWhile_append_dropWhile (p := Char.isDigit) (l := text)
    rwa [hwhole, List.nil_append] at hsplit
  rw [unsignedLength?, if_neg (by rwa [head?_utf8_eq_iff (by decide)]), digitsLength_utf8, unsignedNumeral?]
  dsimp only
  rw [← List.drop_drop, drop_digits]
  generalize text.takeWhile Char.isDigit = whole at hnone ⊢
  generalize text.dropWhile Char.isDigit = behind at hnone ⊢
  by_cases hwhole : whole = []
  · subst hwhole
    rw [hnone rfl, if_pos List.length_nil]
    split
    · exact absurd rfl hpoint
    · rfl
  · have hlength : whole.length ≠ 0 := by rwa [Ne, List.length_eq_zero_iff]
    rw [if_neg hlength]
    by_cases hhead : behind.head? = some '.'
    · obtain ⟨rest, rfl⟩ := List.head?_eq_some_iff.1 hhead
      rw [if_pos ((head?_utf8_eq_iff (by decide)).2 hhead)]
      show some (whole.length + 1 + digitsLength (utf8 rest)) = _
      rw [digitsLength_utf8]
      simp [hwhole, Nat.add_assoc, Nat.add_comm 1]
    · rw [if_neg (by rwa [head?_utf8_eq_iff (by decide)])]
      split
      · exact absurd rfl hhead
      · simp [hwhole]

theorem unsignedLength?_utf8 (text : List Char) :
    unsignedLength? (utf8 text) = (unsignedNumeral? text).map List.length := by
  by_cases hpoint : text.head? = some '.'
  · obtain ⟨rest, rfl⟩ := List.head?_eq_some_iff.1 hpoint
    exact unsignedLength?_fraction rest
  · exact unsignedLength?_whole hpoint

theorem numeralLength?_utf8 (text : List Char) : numeralLength? (utf8 text) = (numeral? text).map List.length := by
  unfold numeralLength?
  by_cases hsign : text.head? = some '-'
  · obtain ⟨rest, rfl⟩ := List.head?_eq_some_iff.1 hsign
    rw [if_pos ((head?_utf8_eq_iff (by decide)).2 hsign)]
    show (unsignedLength? (utf8 rest)).map _ = ((unsignedNumeral? rest).map _).map _
    rw [unsignedLength?_utf8, Option.map_map, Option.map_map]
    congr 1
    funext digits
    exact Nat.add_comm ..
  · rw [if_neg (by rwa [head?_utf8_eq_iff (by decide)]), unsignedLength?_utf8, numeral?]
    rintro rest rfl
    exact hsign rfl

theorem toNat_of_isNumeralChar {c : Char} (hc : isNumeralChar c = true) : c.toNat < 128 ∧ isBreak c = false := by
  simp only [isNumeralChar, Bool.or_eq_true, beq_iff_eq] at hc
  rcases hc with (hc | rfl) | rfl
  · refine ⟨toNat_of_isDigit hc, ?_⟩
    rw [Bool.eq_false_iff]
    intro hbreak
    rw [isBreak_iff] at hbreak
    rcases hbreak with rfl | rfl <;> cases hc
  · decide
  · decide

theorem readNumeral_bytes (ht : text = passed ++ rest) (hl : loc.offset = byteLength passed) (c : Char) :
    readNumeral (utf8 text) (ascii c) (Lexer.bytes ⟨rest, loc⟩) =
      match numeral? rest with
      | some digits => .ok (.ok (.numeral (String.ofList digits)), (Lexer.skip digits.length ⟨rest, loc⟩).bytes)
      | none => .ok (.error (.strayCharacter (charOf (ascii c))), Lexer.bytes ⟨rest, loc⟩) := by
  unfold readNumeral
  rw [show (Lexer.bytes ⟨rest, loc⟩).rest = utf8 rest from rfl, numeralLength?_utf8]
  cases hn : numeral? rest with
  | none => rfl
  | some digits =>
    obtain ⟨tail, rfl⟩ := eq_of_numeral? hn
    have hall := List.all_eq_true.1 (all_of_numeral? hn)
    have hlt : ∀ c ∈ digits, c.toNat < 128 := fun c hc => (toNat_of_isNumeralChar (hall c hc)).1
    have hpast : loc.right digits.length = loc.past digits tail := by
      rw [past_eq_right fun c hc => (toNat_of_isNumeralChar (hall c hc)).2, byteLength_of_lt hlt]
    dsimp only [Lexer.bytes, Option.map_some]
    rw [hpast, slice_past ht hl, drop_utf8 hlt, skip_append]
    rfl

/-! ## Strings and markup -/

/-- The bytes that are gathered are a text. -/
theorem readString_bytes (rest : List Char) (loc : Location) :
    readString (Lexer.bytes ⟨rest, loc.right 1⟩) =
      .ok ((Lexeme.ofQuoted rest).outcome, (Lexer.skip (Lexeme.ofQuoted rest).length ⟨'"' :: rest, loc⟩).bytes) := by
  unfold readString Lexeme.ofQuoted
  cases hb : Quoted.body? rest with
  | none =>
    rw [closeString_unterminated hb]
    show Except.ok _ = Except.ok (_, (Lexer.skip ('"' :: rest).length ⟨'"' :: rest, loc⟩).bytes)
    rw [skip_all, Location.past, List.append_nil]
    rfl
  | some body =>
    obtain ⟨rest, rfl, hclose⟩ := @closeString_body (loc.right 1) _ _ hb []
    have hlength : body.length + 2 = ('"' :: (body ++ ['"'])).length := by simp
    have hquoted : '"' :: (body ++ '"' :: rest) = '"' :: (body ++ ['"']) ++ rest := by simp
    rw [hclose]
    dsimp only
    rw [List.nil_append, textOf_utf8]
    show Except.ok _ = Except.ok (_, (Lexer.skip (body.length + 2) ⟨'"' :: (body ++ '"' :: rest), loc⟩).bytes)
    rw [hlength, hquoted, skip_append]
    rfl

theorem readMarkup_bytes (ht : text = passed ++ '<' :: rest) (hl : loc.offset = byteLength passed) :
    readMarkup (utf8 text) (Lexer.bytes ⟨rest, loc.right 1⟩) =
      .ok ((Lexeme.ofMarkup rest).outcome, (Lexer.skip (Lexeme.ofMarkup rest).length ⟨'<' :: rest, loc⟩).bytes) := by
  unfold readMarkup Lexeme.ofMarkup
  cases hb : bracketed? 0 rest with
  | none =>
    rw [closeMarkup_unterminated hb]
    show Except.ok _ = Except.ok (_, (Lexer.skip ('<' :: rest).length ⟨'<' :: rest, loc⟩).bytes)
    rw [skip_all, Location.past, List.append_nil]
    rfl
  | some content =>
    obtain ⟨rest, rfl⟩ := eq_of_bracketed? hb
    rw [closeMarkup_content (isBalanced_of_bracketed? hb)]
    -- The slice ends in front of the last bracket, which is one byte.
    have hstop : ((loc.right 1).past (content ++ ['>']) rest).offset - 1 =
        ((loc.right 1).past content ('>' :: rest)).offset := by
      rw [offset_past, offset_past, byteLength_append]
      rfl
    have hinside : text = passed ++ ['<'] ++ (content ++ '>' :: rest) := by rw [ht, List.append_assoc]; rfl
    have hoffset : (loc.right 1).offset = byteLength (passed ++ ['<']) := by
      rw [byteLength_append, ← hl]
      rfl
    have hslice : slice (utf8 text) (loc.right 1).offset (((loc.right 1).past (content ++ ['>']) rest).offset - 1) =
        .ok (String.ofList content) := by
      rw [hstop]
      exact slice_past hinside hoffset
    have hskip : Lexer.skip (content.length + 2) ⟨'<' :: (content ++ '>' :: rest), loc⟩ =
        ⟨rest, (loc.right 1).past (content ++ ['>']) rest⟩ := by
      have hlength : content.length + 2 = ('<' :: (content ++ ['>'])).length := by simp
      have hmarkup : '<' :: (content ++ '>' :: rest) = '<' :: (content ++ ['>']) ++ rest := by simp
      rw [hlength, hmarkup, skip_append]
      rfl
    dsimp only [Lexer.bytes]
    rw [hslice]
    dsimp only [bind, Except.bind]
    rw [String.toList_ofList]
    cases Markup.validate content with
    | ok _ => exact congrArg (fun next => Except.ok (_, Lexer.bytes next)) hskip.symm
    | error problem => exact congrArg (fun next => Except.ok (_, Lexer.bytes next)) hskip.symm

end

/-! ## All lexemes -/

theorem begins_name_of_beyond {c : Char} (hc : ¬ c.toNat < 128) : c.isDigit = false ∧ isNameStart c = true := by
  rw [isNameStart_iff_toNat, Bool.eq_false_iff]
  exact ⟨fun h => hc (toNat_of_isDigit h), by omega⟩

/-- No byte of a character beyond ASCII is in ASCII, so it can only begin a name. -/
theorem readLexeme_beyond (bytes : List UInt8) {c : Char} (hc : ¬ c.toNat < 128) (rest : List Char) (loc : Location) :
    readLexeme bytes (Lexer.bytes ⟨c :: rest, loc⟩) = readWord bytes (Lexer.bytes ⟨c :: rest, loc⟩) := by
  obtain ⟨b, more, hmem, hbytes⟩ := exists_bytes c rest loc
  have hne {d : Char} (hd : d.toNat < 128) : b ≠ ascii d := by
    rw [Ne, eq_ascii_iff hmem hd]
    intro he
    exact hc (he ▸ hd)
  obtain ⟨hdigit, hname⟩ := begins_name_of_beyond hc
  rw [hbytes, readLexeme]
  simp only [hne (show '-'.toNat < 128 by decide), hne (show '.'.toNat < 128 by decide),
    hne (show '"'.toNat < 128 by decide), hne (show '<'.toNat < 128 by decide), isDigitByte_iff hmem,
    isNameByte_iff hmem, hdigit, hname, Bool.false_eq_true, false_and, or_self, if_false, if_true]

theorem readLexeme_cons (bytes : List UInt8) (c : Char) (rest : List Char) (loc : Location) :
    readLexeme bytes (Lexer.bytes ⟨c :: rest, loc⟩) =
      if c = '-' ∧ rest.head? = some '>' then .ok (.ok .arrow, Lexer.bytes ⟨rest.tail, loc.right 2⟩)
      else if c = '-' ∧ rest.head? = some '-' then .ok (.ok .line, Lexer.bytes ⟨rest.tail, loc.right 2⟩)
      else if c = '-' ∨ c = '.' ∨ c.isDigit = true then readNumeral bytes (ascii c) (Lexer.bytes ⟨c :: rest, loc⟩)
      else if c = '"' then readString (Lexer.bytes ⟨rest, loc.right 1⟩)
      else if c = '<' then readMarkup bytes (Lexer.bytes ⟨rest, loc.right 1⟩)
      else if isNameStart c = true then readWord bytes (Lexer.bytes ⟨c :: rest, loc⟩)
      else match Token.ofSign? c with
        | some token => .ok (.ok token, Lexer.bytes ⟨rest, loc.right 1⟩)
        | none => .ok (.error (.strayByte c), Lexer.bytes ⟨c :: rest, loc⟩) := by
  by_cases hc : c.toNat < 128
  · have hmem : ascii c ∈ String.utf8EncodeChar c := by
      rw [utf8EncodeChar_of_lt hc]
      exact List.mem_singleton_self _
    have heq {d : Char} (hd : d.toNat < 128) : ascii c = ascii d ↔ c = d := eq_ascii_iff hmem hd
    have hbytes : Lexer.bytes ⟨c :: rest, loc⟩ = ⟨ascii c :: utf8 rest, loc⟩ := by
      rw [Lexer.bytes, utf8_cons_of_lt hc]
    rw [hbytes, readLexeme]
    simp only [heq (show '-'.toNat < 128 by decide), heq (show '.'.toNat < 128 by decide),
      heq (show '"'.toNat < 128 by decide), heq (show '<'.toNat < 128 by decide),
      head?_utf8_eq_iff (show '>'.toNat < 128 by decide), head?_utf8_eq_iff (show '-'.toNat < 128 by decide),
      isDigitByte_iff hmem, isNameByte_iff hmem, charOf_of_lt hc]
    have htail {d : Char} (hd : d.toNat < 128) (h : rest.head? = some d) : (utf8 rest).tail = utf8 rest.tail := by
      obtain ⟨rest, rfl⟩ := List.head?_eq_some_iff.1 h
      rw [utf8_cons_of_lt hd]
      rfl
    refine ite_congr rfl (fun h => ?_) fun _ => ite_congr rfl (fun h => ?_) fun _ => rfl
    · rw [htail (by decide) h.2]
      rfl
    · rw [htail (by decide) h.2]
      rfl
  · have hne {d : Char} (hd : d.toNat < 128) : c ≠ d := by
      intro he
      exact hc (he ▸ hd)
    obtain ⟨hdigit, hname⟩ := begins_name_of_beyond hc
    rw [readLexeme_beyond bytes hc]
    simp only [hne (show '-'.toNat < 128 by decide), hne (show '.'.toNat < 128 by decide),
      hne (show '"'.toNat < 128 by decide), hne (show '<'.toNat < 128 by decide), hdigit, hname,
      Bool.false_eq_true, false_and, or_self, if_false, if_true]

section
variable {text passed rest : List Char} {loc : Location}

theorem readNumeral_ofChar {c : Char} (ht : text = passed ++ c :: rest) (hl : loc.offset = byteLength passed)
    (hn : c = '-' ∨ c = '.' ∨ c.isDigit = true) :
    readNumeral (utf8 text) (ascii c) (Lexer.bytes ⟨c :: rest, loc⟩) =
      .ok ((Lexeme.ofChar c rest).outcome, (Lexer.skip (Lexeme.ofChar c rest).length ⟨c :: rest, loc⟩).bytes) := by
  have hlt : c.toNat < 128 := by
    rcases hn with rfl | rfl | hd
    · decide
    · decide
    · exact toNat_of_isDigit hd
  have hnumeral : (c = '-' || c = '.' || c.isDigit) = true := by simpa [or_assoc] using hn
  rw [readNumeral_bytes ht hl, charOf_of_lt hlt, Lexeme.ofChar, isNameStart_eq_false hn, hnumeral]
  cases numeral? (c :: rest) with
  | none => rfl
  | some digits => rfl

theorem readWord_ofChar {c : Char} (ht : text = passed ++ c :: rest) (hl : loc.offset = byteLength passed)
    (hname : isNameStart c = true) :
    readWord (utf8 text) (Lexer.bytes ⟨c :: rest, loc⟩) =
      .ok ((Lexeme.ofChar c rest).outcome, (Lexer.skip (Lexeme.ofChar c rest).length ⟨c :: rest, loc⟩).bytes) := by
  have hsplit : c :: rest = c :: rest.takeWhile isNameChar ++ rest.dropWhile isNameChar := by simp
  have hall : (c :: rest.takeWhile isNameChar).all isNameChar = true :=
    all_isNameChar_cons hname List.all_takeWhile
  have hhead : ∀ d ∈ (rest.dropWhile isNameChar).head?, isNameChar d = false := by
    intro d hd
    have hno := List.head?_dropWhile_not isNameChar rest
    rw [Option.mem_def.1 hd] at hno
    simpa using hno
  rw [Lexeme.ofChar, if_pos hname, Lexeme.ok]
  rw [hsplit] at ht ⊢
  rw [readWord_bytes ht hl hall hhead, skip_append]

/-- What stands behind the tests for edge operators, strings and markup. -/
theorem readLexeme_ofChar {c : Char} (ht : text = passed ++ c :: rest) (hl : loc.offset = byteLength passed)
    (he : ¬ BeginsEdgeOp (c :: rest)) (hq : c ≠ '"') (hm : c ≠ '<') :
    readLexeme (utf8 text) (Lexer.bytes ⟨c :: rest, loc⟩) =
      .ok ((Lexeme.ofChar c rest).outcome, (Lexer.skip (Lexeme.ofChar c rest).length ⟨c :: rest, loc⟩).bytes) := by
  have harrow : ¬ (c = '-' ∧ rest.head? = some '>') := by
    rintro ⟨rfl, hhead⟩
    obtain ⟨rest, rfl⟩ := List.head?_eq_some_iff.1 hhead
    exact he (Or.inr ⟨rest, rfl⟩)
  have hline : ¬ (c = '-' ∧ rest.head? = some '-') := by
    rintro ⟨rfl, hhead⟩
    obtain ⟨rest, rfl⟩ := List.head?_eq_some_iff.1 hhead
    exact he (Or.inl ⟨rest, rfl⟩)
  rw [readLexeme_cons, if_neg harrow, if_neg hline]
  by_cases hn : c = '-' ∨ c = '.' ∨ c.isDigit = true
  · rw [if_pos hn]
    exact readNumeral_ofChar ht hl hn
  · rw [if_neg hn, if_neg hq, if_neg hm]
    by_cases hname : isNameStart c = true
    · rw [if_pos hname]
      exact readWord_ofChar ht hl hname
    · have hnumeral : (c = '-' || c = '.' || c.isDigit) = false := by simpa [and_assoc] using hn
      rw [if_neg hname, Lexeme.ofChar, if_neg hname, hnumeral]
      cases hs : Token.ofSign? c with
      | none => rfl
      | some token =>
        have hafter : loc.right 1 = loc.after c rest := by
          unfold Token.ofSign? at hs
          split at hs <;> first | rfl | cases hs
        dsimp only
        rw [hafter]
        rfl

theorem readLexeme_bytes (ht : text = passed ++ rest) (hl : loc.offset = byteLength passed) :
    readLexeme (utf8 text) (Lexer.bytes ⟨rest, loc⟩) =
      .ok ((Lexeme.ofText rest).outcome, (Lexer.skip (Lexeme.ofText rest).length ⟨rest, loc⟩).bytes) := by
  cases rest with
  | nil => rfl
  | cons c rest =>
    by_cases he : BeginsEdgeOp (c :: rest)
    · rw [readLexeme_cons]
      rcases he with ⟨rest, he⟩ | ⟨rest, he⟩ <;> cases he <;> rfl
    · by_cases hq : c = '"'
      · subst hq
        exact readString_bytes rest loc
      · by_cases hm : c = '<'
        · subst hm
          exact readMarkup_bytes ht hl
        · rw [Lexeme.ofText_eq_ofChar he hq hm]
          exact readLexeme_ofChar ht hl he hq hm

end

end Cursor

end DotLang
