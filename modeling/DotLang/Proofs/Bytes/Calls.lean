import DotLang.Proofs.Bytes.Lexemes

/-!
# What a walk over bytes comes to

In each call it reads what the lexer reads, without a mishap, and stands between two characters before and afterwards.
-/

namespace DotLang.Cursor

/-- The cursor has the text from its position on, where no character is cut in two. -/
structure Between (bytes : List UInt8) (cursor : Cursor) : Prop where
  rest : cursor.rest = bytes.drop cursor.loc.offset
  boundary : isBoundary bytes cursor.loc.offset = true

theorem between_of_placed {text passed : List Char} {lexer : Lexer} (h : Placed text passed lexer) :
    Between (utf8 text) lexer.bytes := by
  have hoffset : lexer.bytes.loc.offset = byteLength passed := congrArg Location.offset h.loc
  constructor
  · rw [hoffset, h.text, utf8_append, ← length_utf8, List.drop_left]
    rfl
  · rw [hoffset, h.text]
    exact isBoundary_utf8 passed lexer.rest

theorem next_bytes {text passed : List Char} {lexer : Lexer} (h : Placed text passed lexer) :
    next (utf8 text) lexer.bytes = .ok (lexer.next.1, lexer.next.2.bytes) := by
  unfold next Lexer.next
  rw [skipGap_bytes h]
  cases gapLength (.blank (lexer.loc.column = 1)) 0 lexer.rest with
  | error n => rfl
  | ok n =>
    have ht : text = passed ++ lexer.rest.take n ++ (lexer.skip n).rest := by
      rw [Lexer.rest_skip, List.append_assoc, List.take_append_drop]
      exact h.text
    have hl : (lexer.skip n).loc.offset = byteLength (passed ++ lexer.rest.take n) := by
      rw [Lexer.offset_skip, h.loc, byteLength_append]
      rfl
    show (readLexeme (utf8 text) (lexer.skip n).bytes >>= _) = _
    rw [show readLexeme (utf8 text) (lexer.skip n).bytes = _ from readLexeme_bytes ht hl]
    dsimp only
    cases (Lexeme.ofText (lexer.skip n).rest).outcome with
    | ok token => rfl
    | error fault => rfl

theorem after_bytes (text : String) : ∀ calls : Nat,
    after (utf8 text.toList) calls = .ok ((Lexer.ofString text).moved calls).bytes
  | 0 => rfl
  | calls + 1 => by
    obtain ⟨passed, h⟩ := placed_moved text calls
    rw [after, after_bytes text calls]
    show (next (utf8 text.toList) _ >>= _) = _
    rw [next_bytes h]
    rfl

/-- However many calls were made before, none of which came to a mishap, the next does not either: no slice but between
characters, and no string but of a text. It reads what the lexer reads, and both stand in the same place. -/
theorem calls_without_mishap (text : String) (calls : Nat) :
    ∃ here behind,
      after (bytesOf text) calls = .ok here ∧
      next (bytesOf text) here = .ok (((Lexer.ofString text).moved calls).next.1, behind) ∧
      here.loc = ((Lexer.ofString text).moved calls).loc ∧ Between (bytesOf text) here ∧
      behind.loc = ((Lexer.ofString text).moved (calls + 1)).loc ∧ Between (bytesOf text) behind := by
  obtain ⟨passed, h⟩ := placed_moved text calls
  obtain ⟨more, hnext⟩ := h.next.placed
  rw [bytesOf_eq]
  exact ⟨_, _, after_bytes text calls, next_bytes h, rfl, between_of_placed h, rfl, between_of_placed hnext⟩

end DotLang.Cursor
