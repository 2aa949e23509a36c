import DotLang.Proofs.Bytes.Slices

/-!
# Gaps, byte by byte

A loop that passes the bytes of a character one after the other is behind the character then, where a lexer is that
has passed it. So both pass the same gaps.
-/

namespace DotLang

/-- Where the lexer stands, with the bytes of its rest. -/
def Lexer.bytes (lexer : Lexer) : Cursor := ⟨utf8 lexer.rest, lexer.loc⟩

theorem exists_bytes (c : Char) (rest : List Char) (loc : Location) :
    ∃ b more, b ∈ String.utf8EncodeChar c ∧ Lexer.bytes ⟨c :: rest, loc⟩ = ⟨b :: more, loc⟩ := by
  obtain ⟨b, more, hb, hbytes⟩ := exists_utf8_cons c rest
  exact ⟨b, more, hb, by rw [Lexer.bytes, hbytes]⟩

theorem skip_append (a rest : List Char) (loc : Location) :
    Lexer.skip a.length ⟨a ++ rest, loc⟩ = ⟨rest, loc.past a rest⟩ := by
  induction a generalizing loc with
  | nil => rfl
  | cons c a ih => exact ih _

theorem skip_all (text : List Char) (loc : Location) :
    Lexer.skip text.length ⟨text, loc⟩ = ⟨[], loc.past text []⟩ := by
  have h := skip_append text [] loc
  rwa [List.append_nil] at h

namespace Cursor

/-! ## Characters -/

theorem right_right (loc : Location) (m n : Nat) : (loc.right m).right n = loc.right (m + n) := by
  simp [Location.right, Nat.add_assoc]

theorem after_eq_right {c : Char} (hc : isBreak c = false) (loc : Location) (rest : List Char) :
    loc.after c rest = loc.right c.utf8Size := by
  rw [isBreak_eq_false_iff] at hc
  unfold Location.after Location.endsLine
  rw [decide_eq_false hc.1, decide_eq_false hc.2]
  rfl

section
variable {α : Type} {c : Char} {rest : List Char} {loc : Location}

/-- What gathers the bytes that it passes. -/
theorem gather_bytes {f : List UInt8 → Cursor → α} {front : List UInt8}
    (h : ∀ b ∈ front, ∀ gathered rest loc, f gathered ⟨b :: rest, loc⟩ = f (gathered ++ [b]) ⟨rest, loc.right 1⟩)
    (gathered rest : List UInt8) (loc : Location) :
    f gathered ⟨front ++ rest, loc⟩ = f (gathered ++ front) ⟨rest, loc.right front.length⟩ := by
  induction front generalizing gathered loc with
  | nil => rw [List.append_nil]; rfl
  | cons b front ih =>
    rw [List.forall_mem_cons] at h
    rw [List.cons_append, h.1, ih h.2, right_right, List.append_assoc, List.length_cons, Nat.add_comm 1]
    rfl

theorem gather_char {f : List UInt8 → Cursor → α} (hc : isBreak c = false)
    (h : ∀ b ∈ String.utf8EncodeChar c, ∀ gathered rest loc,
      f gathered ⟨b :: rest, loc⟩ = f (gathered ++ [b]) ⟨rest, loc.right 1⟩) (gathered : List UInt8) :
    f gathered (Lexer.bytes ⟨c :: rest, loc⟩) =
      f (gathered ++ String.utf8EncodeChar c) (Lexer.bytes ⟨rest, loc.after c rest⟩) := by
  show f gathered ⟨String.utf8EncodeChar c ++ utf8 rest, loc⟩ = _
  rw [gather_bytes h, String.length_utf8EncodeChar, ← after_eq_right hc loc rest]
  rfl

theorem step_char {f : Cursor → α} (hc : isBreak c = false)
    (h : ∀ b ∈ String.utf8EncodeChar c, ∀ rest loc, f ⟨b :: rest, loc⟩ = f ⟨rest, loc.right 1⟩) :
    f (Lexer.bytes ⟨c :: rest, loc⟩) = f (Lexer.bytes ⟨rest, loc.after c rest⟩) :=
  gather_char (f := fun _ => f) hc (fun b hb _ => h b hb) []

/-! ## Line breaks -/

theorem newline?_feed (rest : List Char) (loc : Location) :
    newline? (Lexer.bytes ⟨'\n' :: rest, loc⟩) = some (Lexer.bytes ⟨rest, loc.after '\n' rest⟩) := rfl

theorem newline?_pair (rest : List Char) (loc : Location) :
    newline? (Lexer.bytes ⟨'\r' :: '\n' :: rest, loc⟩) =
      some (Lexer.bytes ⟨rest, (loc.after '\r' ('\n' :: rest)).after '\n' rest⟩) := rfl

theorem newline?_return (h : rest.head? ≠ some '\n') (loc : Location) :
    newline? (Lexer.bytes ⟨'\r' :: rest, loc⟩) = some (Lexer.bytes ⟨rest, loc.after '\r' rest⟩) := by
  have hhead : (utf8 rest).head? ≠ some (ascii '\n') := by rwa [Ne, head?_utf8_eq_iff (by decide)]
  have hends : Location.endsLine '\r' rest = true := by simp [Location.endsLine, h]
  show (if (utf8 rest).head? = some (ascii '\n') then _ else some (Cursor.mk (utf8 rest) (loc.down 1))) = _
  rw [if_neg hhead, Location.after, hends]
  rfl

theorem newline?_of_ne {b : UInt8} (hr : b ≠ ascii '\r') (hn : b ≠ ascii '\n') (rest : List UInt8)
    (loc : Location) : newline? ⟨b :: rest, loc⟩ = none := by
  rw [newline?, if_neg hr, if_neg hn]

theorem eq_ascii_of_newline? {b : UInt8} {rest : List UInt8} {next : Cursor}
    (h : newline? ⟨b :: rest, loc⟩ = some next) : b = ascii '\r' ∨ b = ascii '\n' := by
  by_cases hr : b = ascii '\r'
  · exact Or.inl hr
  · by_cases hn : b = ascii '\n'
    · exact Or.inr hn
    · rw [newline?_of_ne hr hn] at h
      cases h

/-- A line break begins with its byte. -/
theorem exists_of_newline? {cursor next : Cursor} (h : newline? cursor = some next) :
    ∃ b rest loc, cursor = ⟨b :: rest, loc⟩ ∧ (b = ascii '\r' ∨ b = ascii '\n') := by
  obtain ⟨rest, loc⟩ := cursor
  cases rest with
  | nil => cases h
  | cons b rest => exact ⟨b, rest, loc, rfl, eq_ascii_of_newline? h⟩

theorem newline?_of_isBreak {b : UInt8} (hb : b ∈ String.utf8EncodeChar c) (hc : isBreak c = false)
    (rest : List UInt8) (loc : Location) : newline? ⟨b :: rest, loc⟩ = none := by
  rw [isBreak_eq_false_iff] at hc
  apply newline?_of_ne
  · rw [Ne, eq_ascii_iff hb (by decide)]
    exact hc.2
  · rw [Ne, eq_ascii_iff hb (by decide)]
    exact hc.1

/-- What goes on behind any line break does so if the two characters of a line break are passed alone. -/
theorem newline_char {f : Cursor → α} (h : ∀ cursor next, newline? cursor = some next → f cursor = f next)
    (hc : isBreak c = true) : f (Lexer.bytes ⟨c :: rest, loc⟩) = f (Lexer.bytes ⟨rest, loc.after c rest⟩) := by
  rw [isBreak_iff] at hc
  rcases hc with rfl | rfl
  · exact h _ _ (newline?_feed rest loc)
  · by_cases hhead : rest.head? = some '\n'
    · obtain ⟨rest, rfl⟩ := List.head?_eq_some_iff.1 hhead
      rw [h _ _ (newline?_pair rest loc), h _ _ (newline?_feed rest _)]
    · exact h _ _ (newline?_return hhead loc)

theorem pass_of_newline? {cursor next : Cursor} (h : newline? cursor = some next) : pass cursor = next := by
  rw [pass, h, Option.getD_some]

theorem pass_of_isBreak {b : UInt8} (hb : b ∈ String.utf8EncodeChar c) (hc : isBreak c = false) (rest : List UInt8)
    (loc : Location) : pass ⟨b :: rest, loc⟩ = ⟨rest, loc.right 1⟩ := by
  rw [pass, newline?_of_isBreak hb hc]
  rfl

/-- What passes the bytes of line breaks, and those of a character, is behind the character then. -/
theorem pass_char {f : Cursor → α} (hbreak : ∀ cursor next, newline? cursor = some next → f cursor = f (pass cursor))
    (h : ∀ b ∈ String.utf8EncodeChar c, ∀ rest loc, f ⟨b :: rest, loc⟩ = f (pass ⟨b :: rest, loc⟩)) :
    f (Lexer.bytes ⟨c :: rest, loc⟩) = f (Lexer.bytes ⟨rest, loc.after c rest⟩) := by
  cases hc : isBreak c with
  | true =>
    refine newline_char (fun cursor next hn => ?_) hc
    rw [hbreak _ _ hn, pass_of_newline? hn]
  | false =>
    refine step_char hc fun b hb rest loc => ?_
    rw [h b hb, pass_of_isBreak hb hc]

end

/-! ## One turn of the loop -/

section
variable {cursor next : Cursor}

theorem skipGap_of_error {start : Location} (h : skipComment cursor = (.error start, next)) :
    skipGap cursor = (.error start, next) := by
  rw [skipGap]
  split <;> simp_all

theorem skipGap_of_comment (h : skipComment cursor = (.ok true, next)) : skipGap cursor = skipGap next := by
  rw [skipGap]
  split <;> simp_all

theorem skipGap_of_blanks (h : skipComment cursor = (.ok false, cursor)) (hb : skipBlanks false cursor = (true, next)) :
    skipGap cursor = skipGap next := by
  rw [skipGap]
  split
  · simp_all
  · simp_all
  · split <;> simp_all

theorem skipGap_of_neither (h : skipComment cursor = (.ok false, cursor))
    (hb : skipBlanks false cursor = (false, cursor)) : skipGap cursor = (.ok (), cursor) := by
  rw [skipGap]
  split
  · simp_all
  · simp_all
  · split <;> simp_all

end

/-! ## Blanks -/

theorem fst_skipBlanks {changed : Bool} (hc : changed = true) (cursor : Cursor) :
    (skipBlanks changed cursor).1 = true := by
  fun_induction skipBlanks changed cursor with
  | case1 => exact hc
  | case2 _ _ _ _ _ ih => exact ih rfl
  | case3 _ _ _ _ _ _ _ ih => exact ih rfl
  | case4 => exact hc

theorem skipComment_of_ne {b : UInt8} (hh : b ≠ ascii '#') (hs : b ≠ ascii '/') (rest : List UInt8) (loc : Location) :
    skipComment ⟨b :: rest, loc⟩ = (.ok false, ⟨b :: rest, loc⟩) := by
  simp [skipComment, hh, hs]

/-- Blanks are no comments, and where there are none the cursor stays. -/
theorem skipBlanks_cases (cursor : Cursor) :
    (skipBlanks false cursor = (false, cursor) ∧ skipBlanks true cursor = (true, cursor)) ∨
      (skipBlanks false cursor = skipBlanks true cursor ∧ skipComment cursor = (.ok false, cursor)) := by
  obtain ⟨rest, loc⟩ := cursor
  cases rest with
  | nil => exact Or.inl ⟨by rw [skipBlanks], by rw [skipBlanks]⟩
  | cons b rest =>
    by_cases hb : b = ascii ' ' ∨ b = ascii '\t'
    · refine Or.inr ⟨by rw [skipBlanks, skipBlanks, if_pos hb, if_pos hb], ?_⟩
      rcases hb with rfl | rfl
      · exact skipComment_of_ne (by decide) (by decide) rest loc
      · exact skipComment_of_ne (by decide) (by decide) rest loc
    · rw [skipBlanks, skipBlanks, if_neg hb, if_neg hb]
      cases hn : newline? ⟨b :: rest, loc⟩ with
      | none => exact Or.inl ⟨rfl, rfl⟩
      | some next =>
        refine Or.inr ⟨rfl, ?_⟩
        rcases eq_ascii_of_newline? hn with rfl | rfl
        · exact skipComment_of_ne (by decide) (by decide) rest loc
        · exact skipComment_of_ne (by decide) (by decide) rest loc

theorem skipGap_skipBlanks (cursor : Cursor) : skipGap (skipBlanks true cursor).2 = skipGap cursor := by
  rcases skipBlanks_cases cursor with ⟨-, ht⟩ | ⟨hf, hc⟩
  · rw [ht]
  · have hn : skipBlanks false cursor = (true, (skipBlanks true cursor).2) := by
      rw [hf]
      exact Prod.ext (fst_skipBlanks rfl cursor) rfl
    rw [skipGap_of_blanks hc hn]

theorem skipBlanks_newline {cursor next : Cursor} (h : newline? cursor = some next) :
    skipBlanks true cursor = skipBlanks true next := by
  obtain ⟨b, rest, loc, rfl, hb⟩ := exists_of_newline? h
  have hblank : ¬ (b = ascii ' ' ∨ b = ascii '\t') := by
    rcases hb with rfl | rfl <;> decide
  rw [skipBlanks, if_neg hblank]
  split <;> simp_all

section
variable {c : Char} {rest : List Char} {loc : Location}

theorem skipGap_blank (hc : isBlank c = true) :
    skipGap (Lexer.bytes ⟨c :: rest, loc⟩) = skipGap (Lexer.bytes ⟨rest, loc.after c rest⟩) := by
  have hskip : skipBlanks true (Lexer.bytes ⟨c :: rest, loc⟩) =
      skipBlanks true (Lexer.bytes ⟨rest, loc.after c rest⟩) := by
    cases hbreak : isBreak c with
    | true => exact newline_char (fun _ _ => skipBlanks_newline) hbreak
    | false =>
      refine step_char hbreak fun b hb rest loc => ?_
      have hblank : b = ascii ' ' ∨ b = ascii '\t' := by
        rw [eq_ascii_iff hb (by decide), eq_ascii_iff hb (by decide)]
        simpa [isBlank, hbreak] using hc
      rw [skipBlanks, if_pos hblank]
  rw [← skipGap_skipBlanks, hskip, skipGap_skipBlanks]

end

/-! ## Comments -/

section
variable {front rest : List Char} {loc : Location}

theorem skipWhile_bytes {p : UInt8 → Bool}
    (h : ∀ c ∈ front, isBreak c = false ∧ ∀ b ∈ String.utf8EncodeChar c, p b = true)
    (hr : ∀ b ∈ (utf8 rest).head?, p b = false) :
    skipWhile p (Lexer.bytes ⟨front ++ rest, loc⟩) = Lexer.bytes ⟨rest, loc.past front rest⟩ := by
  induction front generalizing loc with
  | nil =>
    show skipWhile p ⟨utf8 rest, loc⟩ = ⟨utf8 rest, loc⟩
    cases hu : utf8 rest with
    | nil => rw [skipWhile]
    | cons b more =>
      rw [hu] at hr
      rw [skipWhile, hr b rfl]
      rfl
  | cons c front ih =>
    rw [List.forall_mem_cons] at h
    obtain ⟨⟨hc, hp⟩, h⟩ := h
    have hstep : skipWhile p (Lexer.bytes ⟨c :: (front ++ rest), loc⟩) =
        skipWhile p (Lexer.bytes ⟨front ++ rest, loc.after c (front ++ rest)⟩) := by
      refine step_char hc fun b hb rest loc => ?_
      rw [skipWhile, hp b hb]
      rfl
    rw [List.cons_append, hstep, ih h]
    rfl

theorem skipWhile_line (hl : ∀ c ∈ front, isBreak c = false) (hr : AtLineEnd rest) :
    skipWhile (fun b => b ≠ ascii '\n' ∧ b ≠ ascii '\r') (Lexer.bytes ⟨front ++ rest, loc⟩) =
      Lexer.bytes ⟨rest, loc.past front rest⟩ := by
  apply skipWhile_bytes
  · intro c hc
    refine ⟨hl c hc, fun b hb => ?_⟩
    have hbreak := hl c hc
    rw [isBreak_eq_false_iff] at hbreak
    rw [decide_eq_true_iff, Ne, Ne, eq_ascii_iff hb (by decide), eq_ascii_iff hb (by decide)]
    exact hbreak
  · intro b hb
    cases rest with
    | nil => cases hb
    | cons c rest =>
      have hbreak := hr c rfl
      rw [isBreak_iff] at hbreak
      rcases hbreak with rfl | rfl
      · cases hb
        decide
      · cases hb
        decide

theorem closeComment_char {c : Char} {text : List Char} (hc : ¬ (c = '*' ∧ text.head? = some '/')) :
    closeComment (Lexer.bytes ⟨c :: text, loc⟩) = closeComment (Lexer.bytes ⟨text, loc.after c text⟩) := by
  by_cases hstar : c = '*'
  · subst hstar
    have hhead : (utf8 text).head? ≠ some (ascii '/') := by
      rw [Ne, head?_utf8_eq_iff (by decide)]
      exact fun h => hc ⟨rfl, h⟩
    show closeComment ⟨ascii '*' :: utf8 text, loc⟩ = _
    rw [closeComment, if_neg fun h => hhead h.2]
    rfl
  · apply pass_char
    · intro cursor next hn
      obtain ⟨b, rest, loc, rfl, hb⟩ := exists_of_newline? hn
      have hne : b ≠ ascii '*' := by
        rcases hb with rfl | rfl <;> decide
      rw [closeComment, if_neg fun h => hne h.1]
    · intro b hb rest loc
      rw [closeComment, if_neg]
      intro h
      exact hstar ((eq_ascii_iff hb (by decide)).1 h.1)

/-- The comment is closed where it first can be. -/
theorem closeComment_body (hb : ¬ ['*', '/'] <:+: front ++ ['*']) :
    closeComment (Lexer.bytes ⟨front ++ '*' :: '/' :: rest, loc⟩) =
      (true, Lexer.bytes ⟨rest, loc.past (front ++ ['*', '/']) rest⟩) := by
  induction front generalizing loc with
  | nil =>
    show closeComment ⟨ascii '*' :: ascii '/' :: utf8 rest, loc⟩ = _
    rw [closeComment, if_pos ⟨rfl, rfl⟩]
    rfl
  | cons c front ih =>
    obtain ⟨hc, hb⟩ := not_infix_cons hb
    have hhead : (front ++ '*' :: '/' :: rest).head? = (front ++ ['*']).head? := by
      cases front <;> rfl
    have hbody : front ++ '*' :: '/' :: rest = front ++ ['*', '/'] ++ rest := by simp
    rw [List.cons_append, closeComment_char (by rwa [hhead]), ih hb, hbody]
    rfl

theorem closeComment_unterminated {text : List Char} (h : ¬ ['*', '/'] <:+: text) :
    closeComment (Lexer.bytes ⟨text, loc⟩) = (false, Lexer.bytes ⟨[], loc.past text []⟩) := by
  induction text generalizing loc with
  | nil =>
    show closeComment ⟨[], loc⟩ = _
    rw [closeComment]
    rfl
  | cons c text ih =>
    obtain ⟨hc, h⟩ := not_infix_cons h
    rw [closeComment_char hc, ih h, Location.past, List.append_nil]

end

theorem skipComment_open (text : List Char) (loc : Location) :
    skipComment (Lexer.bytes ⟨'/' :: '*' :: text, loc⟩) =
      match closeComment (Lexer.bytes ⟨text, loc.right 2⟩) with
      | (true, next) => (.ok true, next)
      | (false, next) => (.error loc, next) := by
  have hno : ¬ ((ascii '/' = ascii '#' ∧ loc.column = 1) ∨
      (ascii '/' = ascii '/' ∧ some (ascii '*') = some (ascii '/'))) := by
    rintro (⟨h, -⟩ | ⟨-, h⟩)
    · exact absurd h (by decide)
    · exact absurd h (by decide)
  show skipComment ⟨ascii '/' :: ascii '*' :: utf8 text, loc⟩ = _
  rw [skipComment, List.head?_cons, if_neg hno, if_pos ⟨rfl, rfl⟩]
  rfl

/-- A comment is passed as a whole. -/
theorem skipGap_comment {passed comment rest : List Char} (h : Comment passed comment rest) {loc : Location}
    (hloc : loc = .behind passed) :
    skipGap (Lexer.bytes ⟨comment ++ rest, loc⟩) = skipGap (Lexer.bytes ⟨rest, loc.past comment rest⟩) := by
  apply skipGap_of_comment
  cases h with
  | @hash line _ hc hl hr =>
    rw [← hloc] at hc
    have hline : ∀ c ∈ '#' :: line, isBreak c = false := List.forall_mem_cons.2 ⟨rfl, hl⟩
    show skipComment ⟨ascii '#' :: utf8 (line ++ rest), loc⟩ = _
    rw [skipComment, if_pos (Or.inl ⟨rfl, hc⟩)]
    exact congrArg (Prod.mk _) (skipWhile_line hline hr)
  | @line line _ hl hr =>
    have hline : ∀ c ∈ '/' :: '/' :: line, isBreak c = false :=
      List.forall_mem_cons.2 ⟨rfl, List.forall_mem_cons.2 ⟨rfl, hl⟩⟩
    show skipComment ⟨ascii '/' :: ascii '/' :: utf8 (line ++ rest), loc⟩ = _
    rw [skipComment, if_pos (Or.inr ⟨rfl, rfl⟩)]
    exact congrArg (Prod.mk _) (skipWhile_line hline hr)
  | @block body _ hb =>
    have hopen := skipComment_open (body ++ '*' :: '/' :: rest) loc
    rw [closeComment_body hb] at hopen
    have hbody : '/' :: '*' :: (body ++ ['*', '/']) ++ rest = '/' :: '*' :: (body ++ '*' :: '/' :: rest) := by simp
    rw [hbody, hopen]
    rfl

/-! ## Whole gaps -/

theorem head?_comment {passed comment rest : List Char} (h : Comment passed comment rest) (more : List Char) :
    (comment ++ more).head? ≠ some '\n' := by
  cases h <;> simp

theorem skipGap_gap {passed gap rest : List Char} (h : Gap passed gap rest) {loc : Location}
    (hloc : loc = Location.past {} passed (gap ++ rest)) :
    skipGap (Lexer.bytes ⟨gap ++ rest, loc⟩) = skipGap (Lexer.bytes ⟨rest, loc.past gap rest⟩) := by
  induction h generalizing loc with
  | nil => rfl
  | @blank passed gap rest c hc _ ih =>
    rw [List.cons_append, skipGap_blank hc, ih]
    · rfl
    · rw [past_append, hloc]
      rfl
  | @comment passed comment gap rest hc _ ih =>
    rw [List.append_assoc] at hloc
    have hbehind : loc = .behind passed := by
      rw [hloc, past_eq_behind (settled_of_head (head?_comment hc _))]
    rw [List.append_assoc, skipGap_comment hc hbehind, ih, past_append]
    rw [past_append, hloc]

section
variable {passed rest : List Char} {loc : Location}

theorem skipComment_false {c : Char} (hh : ¬ (c = '#' ∧ loc.column = 1)) (hl : ¬ (c = '/' ∧ rest.head? = some '/'))
    (ho : ¬ (c = '/' ∧ rest.head? = some '*')) :
    skipComment (Lexer.bytes ⟨c :: rest, loc⟩) = (.ok false, Lexer.bytes ⟨c :: rest, loc⟩) := by
  by_cases hs : c = '/'
  · subst hs
    rw [← head?_utf8_eq_iff (by decide)] at hl ho
    show skipComment ⟨ascii '/' :: utf8 rest, loc⟩ = _
    rw [skipComment, if_neg, if_neg fun h => ho ⟨rfl, h.2⟩]
    · rfl
    · rintro (⟨h, -⟩ | ⟨-, h⟩)
      · exact absurd h (by decide)
      · exact hl ⟨rfl, h⟩
  · obtain ⟨b, more, hb, hbytes⟩ := exists_bytes c rest loc
    have hslash : b ≠ ascii '/' := by rwa [Ne, eq_ascii_iff hb (by decide)]
    rw [hbytes, skipComment, if_neg, if_neg fun h => hslash h.1]
    rintro (⟨h, hc⟩ | ⟨h, -⟩)
    · exact hh ⟨(eq_ascii_iff hb (by decide)).1 h, hc⟩
    · exact hslash h

theorem skipBlanks_false {c : Char} (hc : isBlank c = false) :
    skipBlanks false (Lexer.bytes ⟨c :: rest, loc⟩) = (false, Lexer.bytes ⟨c :: rest, loc⟩) := by
  obtain ⟨b, more, hb, hbytes⟩ := exists_bytes c rest loc
  simp only [isBlank, Bool.or_eq_false_iff, decide_eq_false_iff_not] at hc
  obtain ⟨⟨hspace, htab⟩, hbreak⟩ := hc
  have hblank : ¬ (b = ascii ' ' ∨ b = ascii '\t') := by
    rw [eq_ascii_iff hb (by decide), eq_ascii_iff hb (by decide)]
    exact not_or.2 ⟨hspace, htab⟩
  rw [hbytes, skipBlanks, if_neg hblank, newline?_of_isBreak hb hbreak]

/-- Where a gap does not go on, no other gap begins. -/
theorem eq_nil_of_stops {gap : List Char} (hs : Stops passed (gap ++ rest)) (hg : Gap passed gap rest) : gap = [] := by
  have hlongest := Gap.nil.longest (show Stops (passed ++ []) (gap ++ rest) by rwa [List.append_nil])
  exact List.length_eq_zero_iff.1 (Nat.le_zero.1 (hlongest.le gap rest rfl hg))

theorem not_comment_of_stops {comment : List Char} (hs : Stops passed (comment ++ rest))
    (hc : Comment passed comment rest) : comment = [] := by
  have hg : Gap passed (comment ++ []) rest := .comment hc .nil
  rw [List.append_nil] at hg
  exact eq_nil_of_stops hs hg

theorem skipGap_here (h : ∀ n, gapLength (.behind passed) n rest = .ok n) (hloc : loc = .behind passed) :
    skipGap (Lexer.bytes ⟨rest, loc⟩) = (.ok (), Lexer.bytes ⟨rest, loc⟩) := by
  have hs : Stops passed rest := .here h
  cases rest with
  | nil =>
    apply skipGap_of_neither
    · rfl
    · show skipBlanks false ⟨[], loc⟩ = _
      rw [skipBlanks]
      rfl
  | cons c text =>
    have hblank : isBlank c = false := by
      rw [Bool.eq_false_iff]
      intro hc
      have hg : Gap passed [c] text := .blank hc .nil
      cases eq_nil_of_stops hs hg
    have hhash : ¬ (c = '#' ∧ loc.column = 1) := by
      rintro ⟨rfl, hc⟩
      rw [hloc] at hc
      obtain ⟨line, rest, rfl, hl, hr⟩ := exists_line text
      cases not_comment_of_stops hs (.hash hc hl hr)
    have hline : ¬ (c = '/' ∧ text.head? = some '/') := by
      rintro ⟨rfl, hhead⟩
      obtain ⟨text, rfl⟩ := List.head?_eq_some_iff.1 hhead
      obtain ⟨line, rest, rfl, hl, hr⟩ := exists_line text
      cases not_comment_of_stops hs (.line hl hr)
    have hopen : ¬ (c = '/' ∧ text.head? = some '*') := by
      rintro ⟨rfl, hhead⟩
      obtain ⟨text, rfl⟩ := List.head?_eq_some_iff.1 hhead
      exact not_prefix_of_gapLength (h 0) ⟨text, rfl⟩
    exact skipGap_of_neither (skipComment_false hhash hline hopen) (skipBlanks_false hblank)

theorem skipGap_unterminated {more : List Char} (h : ¬ ['*', '/'] <:+: more) :
    skipGap (Lexer.bytes ⟨'/' :: '*' :: more, loc⟩) =
      (.error loc, Lexer.bytes ⟨[], loc.past ('/' :: '*' :: more) []⟩) := by
  have hopen := skipComment_open more loc
  rw [closeComment_unterminated h] at hopen
  rw [skipGap_of_error hopen, Location.past, Location.past]
  rfl

end

/-- Both pass the gap that is there, or fail at the same comment. -/
theorem skipGap_bytes {text passed : List Char} {lexer : Lexer} (h : Placed text passed lexer) :
    skipGap lexer.bytes = match gapLength (.blank (lexer.loc.column = 1)) 0 lexer.rest with
      | .ok n => (.ok (), (lexer.skip n).bytes)
      | .error n => (.error (lexer.skip n).loc, (lexer.skip lexer.rest.length).bytes) := by
  obtain ⟨rest, loc⟩ := lexer
  have hpast : loc = Location.past {} passed rest := h.loc.trans (past_eq_behind h.settled).symm
  obtain rfl : loc = .behind passed := h.loc
  obtain ⟨gap, rest, rfl, hg, hs⟩ := exists_gap passed rest
  have hread : gapLength (.behind passed) 0 (gap ++ rest) = gapLength (.behind (passed ++ gap)) gap.length rest := by
    rw [hg.gapLength, Nat.zero_add]
  have hbehind (hr : rest.head? ≠ some '\n') : (Location.behind passed).past gap rest = .behind (passed ++ gap) := by
    rw [hpast, ← past_append, past_eq_behind (settled_of_head hr)]
  show skipGap (Lexer.bytes ⟨gap ++ rest, .behind passed⟩) = match gapLength (.behind passed) 0 (gap ++ rest) with
    | .ok n => _
    | .error n => _
  rw [skipGap_gap hg hpast, hread]
  cases hs with
  | here hstop =>
    rw [hstop, skipGap_here hstop (hbehind (head?_of_gapLength (hstop 0)))]
    dsimp only
    rw [skip_append]
  | @unterminated more hopen =>
    rw [skipGap_unterminated hopen, gapLength_open, gapLength_unterminated hopen]
    dsimp only
    rw [skip_append, skip_all, past_append, List.append_nil]

end Cursor

end DotLang
