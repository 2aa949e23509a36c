import DotLang.Proofs.Bytes.Gaps

/-!
# Strings and markup, byte by byte

A quoted string falls into pieces: a character, a line break, or one of them behind a backslash. Behind a piece the
bytes that are gathered are those of the characters that the pieces stand for, although the bytes of a character that
a backslash protects are not gathered all at once.
-/

namespace DotLang

/-! ## Pieces of a quoted string -/

/-- One line break in front of a text. -/
inductive LineBreak (rest : List Char) : List Char → Prop
  | pair : LineBreak rest ['\r', '\n']
  | feed : LineBreak rest ['\n']
  | carriage (h : rest.head? ≠ some '\n') : LineBreak rest ['\r']

/-- What is read of a quoted string at once, in front of `rest`, and what it stands for. -/
inductive Piece (rest : List Char) : List Char → List Char → Prop
  | quote : Piece rest ['\\', '"'] ['"']
  | joint {ends : List Char} (h : LineBreak rest ends) : Piece rest ('\\' :: ends) []
  | escaped {c : Char} (hq : c ≠ '"') (hb : isBreak c = false) : Piece rest ['\\', c] ['\\', c]
  | newline {ends : List Char} (h : LineBreak rest ends) : Piece rest ends ['\n']
  | plain {c : Char} (hq : c ≠ '"') (hs : c ≠ '\\') (hb : isBreak c = false) : Piece rest [c] [c]

section
variable {rest piece out : List Char}

theorem exists_lineBreak {c : Char} (hc : isBreak c = true) (text : List Char) :
    ∃ ends rest, c :: text = ends ++ rest ∧ ends ≠ [] ∧ LineBreak rest ends := by
  rw [isBreak_iff] at hc
  rcases hc with rfl | rfl
  · exact ⟨_, text, rfl, by simp, .feed⟩
  · by_cases hhead : text.head? = some '\n'
    · obtain ⟨rest, rfl⟩ := List.head?_eq_some_iff.1 hhead
      exact ⟨_, rest, rfl, by simp, .pair⟩
    · exact ⟨_, text, rfl, by simp, .carriage hhead⟩

/-- A quoted string goes on with a piece unless it ends. -/
theorem exists_piece {c : Char} (hq : c ≠ '"') (text : List Char) :
    (c = '\\' ∧ text = []) ∨ ∃ piece out rest, c :: text = piece ++ rest ∧ piece ≠ [] ∧ Piece rest piece out := by
  cases hb : isBreak c with
  | true =>
    obtain ⟨ends, rest, he, hne, h⟩ := exists_lineBreak hb text
    exact Or.inr ⟨_, _, rest, he, hne, .newline h⟩
  | false =>
    by_cases hs : c = '\\'
    · subst hs
      cases text with
      | nil => exact Or.inl ⟨rfl, rfl⟩
      | cons c text =>
        right
        by_cases hq : c = '"'
        · subst hq
          exact ⟨_, _, text, rfl, by simp, .quote⟩
        · cases hb : isBreak c with
          | true =>
            obtain ⟨ends, rest, he, -, h⟩ := exists_lineBreak hb text
            exact ⟨_, _, rest, by rw [he]; rfl, by simp, .joint h⟩
          | false => exact ⟨_, _, text, rfl, by simp, .escaped hq hb⟩
    · exact Or.inr ⟨_, _, text, rfl, by simp, .plain hq hs hb⟩

theorem body?_newline {ends : List Char} (h : LineBreak rest ends) :
    Quoted.body? (ends ++ rest) = (Quoted.body? rest).map (ends ++ ·) := by
  cases h with
  | pair =>
    show Quoted.body? ('\r' :: '\n' :: rest) = _
    rw [Quoted.body?_cons_of_ne (by decide) (by decide), Quoted.body?_cons_of_ne (by decide) (by decide),
      Option.map_map]
    rfl
  | feed => exact Quoted.body?_cons_of_ne (by decide) (by decide) rest
  | carriage => exact Quoted.body?_cons_of_ne (by decide) (by decide) rest

theorem body?_piece (h : Piece rest piece out) :
    Quoted.body? (piece ++ rest) = (Quoted.body? rest).map (piece ++ ·) := by
  cases h with
  | quote => rfl
  | escaped => rfl
  | plain hq hs => exact Quoted.body?_cons_of_ne hq hs rest
  | newline h => exact body?_newline h
  | joint h =>
    cases h with
    | pair =>
      show (Quoted.body? ('\n' :: rest)).map _ = _
      rw [Quoted.body?_cons_of_ne (by decide) (by decide), Option.map_map]
      rfl
    | feed => rfl
    | carriage => rfl

theorem decode_newline {ends : List Char} (h : LineBreak rest ends) :
    Quoted.decode (ends ++ rest) = '\n' :: Quoted.decode rest := by
  cases h with
  | pair => exact Quoted.decode_pair rest
  | feed => exact Quoted.decode_cons_of_ne (by decide) (by decide) rest
  | carriage hr => exact Quoted.decode_return hr

theorem decode_joint {ends : List Char} (h : LineBreak rest ends) :
    Quoted.decode ('\\' :: (ends ++ rest)) = Quoted.decode rest := by
  cases h with
  | pair => exact Quoted.decode_joinedPair rest
  | feed => exact Quoted.decode_joinedFeed rest
  | carriage hr => exact Quoted.decode_joinedReturn hr

theorem decode_piece (h : Piece rest piece out) : Quoted.decode (piece ++ rest) = out ++ Quoted.decode rest := by
  cases h with
  | quote => exact Quoted.decode_quote rest
  | joint h => exact decode_joint h
  | newline h => exact decode_newline h
  | escaped hq hb =>
    rw [isBreak_eq_false_iff] at hb
    exact Quoted.decode_protected hq hb.2 hb.1 rest
  | plain hq hs hb =>
    rw [isBreak_eq_false_iff] at hb
    exact Quoted.decode_cons_of_ne hs hb.2 rest

/-- A piece is one in front of each text that begins the same. -/
theorem LineBreak.left {ends more : List Char} (h : LineBreak (rest ++ more) ends) : LineBreak rest ends := by
  cases h with
  | pair => exact .pair
  | feed => exact .feed
  | carriage h =>
    refine .carriage fun hr => h ?_
    rw [List.head?_append, hr]
    rfl

theorem Piece.left {more : List Char} (h : Piece (rest ++ more) piece out) : Piece rest piece out := by
  cases h with
  | quote => exact .quote
  | joint h => exact .joint h.left
  | escaped hq hb => exact .escaped hq hb
  | newline h => exact .newline h.left
  | plain hq hs hb => exact .plain hq hs hb

end

namespace Cursor

/-! ## The bytes that are gathered -/

section
variable {rest piece out : List Char} {loc : Location}

theorem newline?_bytes {ends : List Char} (h : LineBreak rest ends) :
    newline? (Lexer.bytes ⟨ends ++ rest, loc⟩) = some (Lexer.bytes ⟨rest, loc.past ends rest⟩) := by
  cases h with
  | pair => exact newline?_pair rest loc
  | feed => exact newline?_feed rest loc
  | carriage h => exact newline?_return h loc

theorem closeString_newline {gathered : List UInt8} {cursor next : Cursor} (h : newline? cursor = some next) :
    closeString gathered cursor = closeString (gathered ++ [ascii '\n']) next := by
  obtain ⟨b, rest, loc, rfl, hb⟩ := exists_of_newline? h
  have hq : b ≠ ascii '"' := by
    rcases hb with rfl | rfl <;> decide
  rw [closeString, if_neg hq]
  split <;> simp_all

theorem closeString_plain {gathered : List UInt8} {b : UInt8} (hq : b ≠ ascii '"') (hs : b ≠ ascii '\\')
    (rest : List UInt8) (loc : Location) (hn : newline? ⟨b :: rest, loc⟩ = none) :
    closeString gathered ⟨b :: rest, loc⟩ = closeString (gathered ++ [b]) ⟨rest, loc.right 1⟩ := by
  rw [closeString, if_neg hq]
  split <;> simp_all

/-- What a backslash does is told by the byte behind it. -/
theorem closeString_backslash (gathered : List UInt8) (b : UInt8) (rest : List UInt8) (loc : Location) :
    closeString gathered ⟨ascii '\\' :: b :: rest, loc⟩ =
      if b = ascii '"' then closeString (gathered ++ [b]) ⟨rest, loc.right 2⟩
      else match newline? ⟨b :: rest, loc.right 1⟩ with
        | some next => closeString gathered next
        | none => closeString (gathered ++ [ascii '\\', b]) ⟨rest, loc.right 2⟩ := by
  have hn : newline? ⟨ascii '\\' :: b :: rest, loc⟩ = none := newline?_of_ne (by decide) (by decide) _ _
  rw [closeString, if_neg (by decide)]
  split
  · simp_all
  · rw [if_pos rfl]
    dsimp only
    split
    · rfl
    · split <;> simp_all

theorem closeString_escaped {c : Char} (hq : c ≠ '"') (hb : isBreak c = false) (gathered : List UInt8) :
    closeString gathered (Lexer.bytes ⟨'\\' :: c :: rest, loc⟩) =
      closeString (gathered ++ utf8 ['\\', c]) (Lexer.bytes ⟨rest, loc.past ['\\', c] rest⟩) := by
  obtain ⟨b, more, hu⟩ := exists_utf8 c
  have hmem : b ∈ String.utf8EncodeChar c := by rw [hu]; exact List.mem_cons_self ..
  have hquote : b ≠ ascii '"' := by rwa [Ne, eq_ascii_iff hmem (by decide)]
  -- The bytes behind the first are gathered one by one, like those of a character that nothing protects.
  have hmore : ∀ d ∈ more, ∀ gathered rest loc,
      closeString gathered ⟨d :: rest, loc⟩ = closeString (gathered ++ [d]) ⟨rest, loc.right 1⟩ := by
    intro d hd gathered rest loc
    have hhigh := toNat_of_mem_tail hu d hd
    have hne (e : Char) (he : e.toNat < 128) : d ≠ ascii e := by
      rintro rfl
      rw [toNat_ascii he] at hhigh
      omega
    have hn := newline?_of_ne (hne '\r' (by decide)) (hne '\n' (by decide)) rest loc
    exact closeString_plain (hne '"' (by decide)) (hne '\\' (by decide)) rest loc hn
  have hbytes : Lexer.bytes ⟨'\\' :: c :: rest, loc⟩ = ⟨ascii '\\' :: b :: (more ++ utf8 rest), loc⟩ := by
    show Cursor.mk (utf8 ('\\' :: c :: rest)) loc = _
    rw [utf8_cons, utf8_cons, hu]
    rfl
  have hlength : more.length + 1 = c.utf8Size := by rw [← String.length_utf8EncodeChar, hu, List.length_cons]
  have hpast : loc.past ['\\', c] rest = (loc.right 2).right more.length := by
    show (loc.right 1).after c rest = _
    rw [after_eq_right hb, right_right, right_right, ← hlength, Nat.add_left_comm, Nat.add_comm]
  have hout : utf8 ['\\', c] = [ascii '\\', b] ++ more := by
    rw [utf8_cons, utf8_cons, hu, utf8_nil, List.append_nil]
    rfl
  rw [hbytes, closeString_backslash, if_neg hquote, newline?_of_isBreak hmem hb]
  dsimp only
  rw [gather_bytes hmore, hpast, hout, List.append_assoc]
  rfl

theorem closeString_joint {ends : List Char} (h : LineBreak rest ends) (gathered : List UInt8) :
    closeString gathered (Lexer.bytes ⟨'\\' :: (ends ++ rest), loc⟩) =
      closeString gathered (Lexer.bytes ⟨rest, loc.past ('\\' :: ends) rest⟩) := by
  have hn : newline? ⟨utf8 (ends ++ rest), loc.right 1⟩ = some (Lexer.bytes ⟨rest, (loc.right 1).past ends rest⟩) :=
    newline?_bytes h
  show closeString gathered ⟨ascii '\\' :: utf8 (ends ++ rest), loc⟩ = _
  cases hu : utf8 (ends ++ rest) with
  | nil =>
    rw [hu] at hn
    cases hn
  | cons b more =>
    rw [hu] at hn
    have hquote : b ≠ ascii '"' := by
      rcases eq_ascii_of_newline? hn with rfl | rfl <;> decide
    rw [closeString_backslash, if_neg hquote, hn]
    rfl

/-- Behind a piece the bytes that it stands for are gathered. -/
theorem closeString_piece (h : Piece rest piece out) (gathered : List UInt8) :
    closeString gathered (Lexer.bytes ⟨piece ++ rest, loc⟩) =
      closeString (gathered ++ utf8 out) (Lexer.bytes ⟨rest, loc.past piece rest⟩) := by
  cases h with
  | quote =>
    show closeString gathered ⟨ascii '\\' :: ascii '"' :: utf8 rest, loc⟩ = _
    rw [closeString_backslash, if_pos rfl]
    rfl
  | joint h =>
    rw [utf8_nil, List.append_nil]
    exact closeString_joint h gathered
  | newline h => exact closeString_newline (newline?_bytes h)
  | escaped hq hb => exact closeString_escaped hq hb gathered
  | @plain c hq hs hb =>
    have hchar : utf8 [c] = String.utf8EncodeChar c := by rw [utf8_cons, utf8_nil, List.append_nil]
    rw [hchar]
    refine gather_char hb (fun b hmem gathered rest loc => ?_) gathered
    apply closeString_plain
    · rwa [Ne, eq_ascii_iff hmem (by decide)]
    · rwa [Ne, eq_ascii_iff hmem (by decide)]
    · exact newline?_of_isBreak hmem hb rest loc

/-- The string ends where it does for the characters, and its bytes are those of the text that it stands for. -/
theorem closeString_body {text body : List Char} (h : Quoted.body? text = some body) (gathered : List UInt8) :
    ∃ rest, text = body ++ '"' :: rest ∧ closeString gathered (Lexer.bytes ⟨text, loc⟩) =
      (some (gathered ++ utf8 (Quoted.decode body)), Lexer.bytes ⟨rest, loc.past (body ++ ['"']) rest⟩) := by
  induction hn : text.length using Nat.strongRecOn generalizing text body loc gathered with
  | _ n ih =>
    subst hn
    cases text with
    | nil => cases h
    | cons c text =>
      by_cases hq : c = '"'
      · subst hq
        obtain rfl : [] = body := Option.some.inj h
        refine ⟨text, rfl, ?_⟩
        show closeString gathered ⟨ascii '"' :: utf8 text, loc⟩ = _
        rw [closeString, if_pos rfl, Quoted.decode, utf8_nil, List.append_nil]
        rfl
      · rcases exists_piece hq text with ⟨rfl, rfl⟩ | ⟨piece, out, behind, he, hne, hp⟩
        · cases h
        · rw [he, body?_piece hp] at h
          obtain ⟨body, hb, rfl⟩ := Option.map_eq_some_iff.1 h
          have hpos := List.length_pos_iff.2 hne
          have hlength : behind.length < (c :: text).length := by
            rw [he, List.length_append]
            omega
          obtain ⟨rest, rfl, hclose⟩ := @ih _ hlength (loc.past piece behind) behind body hb (gathered ++ utf8 out) rfl
          refine ⟨rest, by rw [he, List.append_assoc], ?_⟩
          have hbody : body ++ '"' :: rest = body ++ ['"'] ++ rest := by simp
          rw [he, closeString_piece hp, hclose, decode_piece hp.left, utf8_append, List.append_assoc gathered,
            List.append_assoc piece, past_append loc piece, hbody]

theorem closeString_unterminated {text : List Char} (h : Quoted.body? text = none) (gathered : List UInt8) :
    closeString gathered (Lexer.bytes ⟨text, loc⟩) = (none, Lexer.bytes ⟨[], loc.past text []⟩) := by
  induction hn : text.length using Nat.strongRecOn generalizing text loc gathered with
  | _ n ih =>
    subst hn
    cases text with
    | nil =>
      show closeString gathered ⟨[], loc⟩ = _
      rw [closeString]
      rfl
    | cons c text =>
      by_cases hq : c = '"'
      · subst hq
        cases h
      · rcases exists_piece hq text with ⟨rfl, rfl⟩ | ⟨piece, out, rest, he, hne, hp⟩
        · have hnone : newline? ⟨[ascii '\\'], loc⟩ = none := newline?_of_ne (by decide) (by decide) _ _
          show closeString gathered ⟨[ascii '\\'], loc⟩ = _
          rw [closeString, if_neg (by decide)]
          split
          · simp_all
          · rfl
        · have hpos := List.length_pos_iff.2 hne
          have hrest : Quoted.body? rest = none := by
            rw [he, body?_piece hp] at h
            simpa using h
          have hlength : rest.length < (c :: text).length := by
            rw [he, List.length_append]
            omega
          rw [he, closeString_piece hp, ih _ hlength hrest _ rfl, past_append, List.append_nil]

end

/-! ## Markup -/

section
variable {text content rest : List Char} {loc : Location}

/-- Characters that are no angle brackets do not change the depth. -/
theorem closeMarkup_char {c : Char} (hl : c ≠ '<') (hr : c ≠ '>') (depth : Nat) :
    closeMarkup depth (Lexer.bytes ⟨c :: text, loc⟩) = closeMarkup depth (Lexer.bytes ⟨text, loc.after c text⟩) := by
  have key (b : UInt8) (hl : b ≠ ascii '<') (hr : b ≠ ascii '>') (rest : List UInt8) (loc : Location) :
      closeMarkup depth ⟨b :: rest, loc⟩ = closeMarkup depth (pass ⟨b :: rest, loc⟩) := by
    rw [closeMarkup, if_neg hl, if_neg hr]
  apply pass_char
  · intro cursor next hn
    obtain ⟨b, rest, loc, rfl, hb⟩ := exists_of_newline? hn
    apply key
    · rcases hb with rfl | rfl <;> decide
    · rcases hb with rfl | rfl <;> decide
  · intro b hb rest loc
    apply key
    · rwa [Ne, eq_ascii_iff hb (by decide)]
    · rwa [Ne, eq_ascii_iff hb (by decide)]

theorem closeMarkup_open (depth : Nat) :
    closeMarkup depth (Lexer.bytes ⟨'<' :: text, loc⟩) =
      closeMarkup (depth + 1) (Lexer.bytes ⟨text, loc.after '<' text⟩) := by
  show closeMarkup depth ⟨ascii '<' :: utf8 text, loc⟩ = _
  rw [closeMarkup, if_pos rfl]
  rfl

theorem closeMarkup_close (depth : Nat) :
    closeMarkup (depth + 1) (Lexer.bytes ⟨'>' :: text, loc⟩) =
      if depth = 0 then (true, Lexer.bytes ⟨text, loc.after '>' text⟩)
      else closeMarkup depth (Lexer.bytes ⟨text, loc.after '>' text⟩) := by
  show closeMarkup (depth + 1) ⟨ascii '>' :: utf8 text, loc⟩ = _
  rw [closeMarkup, if_neg (by decide), if_pos rfl, Nat.add_sub_cancel]
  rfl

theorem closeMarkup_content {depth : Nat} (h : isBalanced depth content = true) :
    closeMarkup (depth + 1) (Lexer.bytes ⟨content ++ '>' :: rest, loc⟩) =
      (true, Lexer.bytes ⟨rest, loc.past (content ++ ['>']) rest⟩) := by
  have hsplit (content : List Char) : content ++ '>' :: rest = content ++ ['>'] ++ rest := by simp
  fun_induction isBalanced depth content generalizing loc with
  | case1 depth =>
    obtain rfl : depth = 0 := by simpa using h
    exact closeMarkup_close 0
  | case2 depth content ih =>
    rw [List.cons_append, closeMarkup_open, ih h, hsplit]
    rfl
  | case3 => cases h
  | case4 depth content ih =>
    rw [List.cons_append, closeMarkup_close, if_neg (Nat.succ_ne_zero depth), ih h, hsplit]
    rfl
  | case5 depth c content hl h0 hs ih =>
    rw [List.cons_append, closeMarkup_char hl (ne_close h0 hs), ih h, hsplit]
    rfl

theorem closeMarkup_unterminated {depth : Nat} (h : bracketed? depth text = none) :
    closeMarkup (depth + 1) (Lexer.bytes ⟨text, loc⟩) = (false, Lexer.bytes ⟨[], loc.past text []⟩) := by
  fun_induction bracketed? depth text generalizing loc with
  | case1 =>
    show closeMarkup _ ⟨[], loc⟩ = _
    rw [closeMarkup]
    rfl
  | case2 => cases h
  | case3 depth rest ih =>
    rw [closeMarkup_close, if_neg (Nat.succ_ne_zero depth), ih (by simpa using h), Location.past, List.append_nil]
  | case4 depth rest ih =>
    rw [closeMarkup_open, ih (by simpa using h), Location.past, List.append_nil]
  | case5 depth c rest h0 hs hl ih =>
    rw [closeMarkup_char hl (ne_close h0 hs), ih (by simpa using h), Location.past, List.append_nil]

end

end Cursor

end DotLang
