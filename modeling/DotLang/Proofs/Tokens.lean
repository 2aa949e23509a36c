import DotLang.Proofs.Quoting
import DotLang.Token.Lexer

/-!
# The tokens of a text

The tokens that a lexer has in front of it, up to the end of the text or to the first failure, and what can
stand in them: the text of a token is `Readable`, and markup is well formed and has its angle brackets
balanced.
-/

namespace DotLang

/-! ## Angle brackets -/

/-- Whether the angle brackets of a text close those that it opens and `depth` more, none too early. -/
def isBalanced : (depth : Nat) → List Char → Bool
  | depth, [] => depth == 0
  | depth, '<' :: rest => isBalanced (depth + 1) rest
  | 0, '>' :: _ => false
  | depth + 1, '>' :: rest => isBalanced depth rest
  | depth, _ :: rest => isBalanced depth rest

/-- What closes no bracket, be one open or not, is not the closing one. -/
theorem ne_close {depth : Nat} {c : Char} (h0 : depth = 0 → c = '>' → False)
    (hs : ∀ n, depth = n + 1 → c = '>' → False) : c ≠ '>' := by
  intro hc
  cases depth with
  | zero => exact h0 rfl hc
  | succ n => exact hs n rfl hc

theorem bracketed?_of_isBalanced (rest : List Char) {depth : Nat} {content : List Char}
    (h : isBalanced depth content = true) : bracketed? depth (content ++ '>' :: rest) = some content := by
  fun_induction isBalanced depth content with
  | case1 depth =>
    obtain rfl : depth = 0 := by simpa using h
    rfl
  | case2 depth text ih => simp [bracketed?, ih h]
  | case3 => cases h
  | case4 depth text ih => simp [bracketed?, ih h]
  | case5 depth c text hl h0 hs ih =>
    have hc := ne_close h0 hs
    simp [bracketed?, ih h]

theorem isBalanced_of_bracketed? {depth : Nat} {text content : List Char} (h : bracketed? depth text = some content) :
    isBalanced depth content = true := by
  fun_induction bracketed? depth text generalizing content with
  | case1 => cases h
  | case2 => cases h; rfl
  | case3 depth rest ih =>
    obtain ⟨content, hc, rfl⟩ := Option.map_eq_some_iff.1 h
    exact ih hc
  | case4 depth rest ih =>
    obtain ⟨content, hc, rfl⟩ := Option.map_eq_some_iff.1 h
    simpa [isBalanced] using ih hc
  | case5 depth c rest h0 hs hl ih =>
    obtain ⟨content, hb, rfl⟩ := Option.map_eq_some_iff.1 h
    have hne := ne_close h0 hs
    rw [isBalanced] <;> first | exact ih hb | simp_all

theorem eq_of_bracketed? {depth : Nat} {text content : List Char} (h : bracketed? depth text = some content) :
    ∃ rest, text = content ++ '>' :: rest := by
  fun_induction bracketed? depth text generalizing content with
  | case1 => cases h
  | case2 rest =>
    cases h
    exact ⟨rest, rfl⟩
  | case3 depth rest ih =>
    obtain ⟨content, hc, rfl⟩ := Option.map_eq_some_iff.1 h
    obtain ⟨more, rfl⟩ := ih hc
    exact ⟨more, rfl⟩
  | case4 depth rest ih =>
    obtain ⟨content, hc, rfl⟩ := Option.map_eq_some_iff.1 h
    obtain ⟨more, rfl⟩ := ih hc
    exact ⟨more, rfl⟩
  | case5 depth c rest _ _ _ ih =>
    obtain ⟨content, hc, rfl⟩ := Option.map_eq_some_iff.1 h
    obtain ⟨more, rfl⟩ := ih hc
    exact ⟨more, rfl⟩

/-! ## Characters -/

theorem isNameChar_backslash : isNameChar '\\' = false := by decide

theorem isNameChar_return : isNameChar '\r' = false := by decide

/-- The characters of numerals. -/
def isNumeralChar (c : Char) : Bool := c.isDigit || c == '.' || c == '-'

theorem all_takeWhile_isDigit (text : List Char) : (text.takeWhile Char.isDigit).all isNumeralChar = true := by
  have h : (text.takeWhile Char.isDigit).all Char.isDigit = true := List.all_takeWhile
  rw [List.all_eq_true] at h ⊢
  intro c hc
  unfold isNumeralChar
  rw [h c hc]
  rfl

theorem all_of_unsignedNumeral? {text numeral : List Char} (h : unsignedNumeral? text = some numeral) :
    numeral.all isNumeralChar = true := by
  unfold unsignedNumeral? at h
  dsimp only at h
  split at h
  · split at h
    · cases h
    · cases h
      rw [List.all_append, List.all_cons, all_takeWhile_isDigit, all_takeWhile_isDigit]
      rfl
  · split at h
    · cases h
    · cases h
      exact all_takeWhile_isDigit text

theorem all_of_numeral? {text numeral : List Char} (h : numeral? text = some numeral) :
    numeral.all isNumeralChar = true := by
  unfold numeral? at h
  split at h
  · obtain ⟨numeral, hn, rfl⟩ := Option.map_eq_some_iff.1 h
    rw [List.all_cons, all_of_unsignedNumeral? hn]
    rfl
  · exact all_of_unsignedNumeral? h

theorem eq_of_unsignedNumeral? {text digits : List Char} (h : unsignedNumeral? text = some digits) :
    ∃ rest, text = digits ++ rest := by
  have hsplit : text = text.takeWhile Char.isDigit ++ text.dropWhile Char.isDigit := List.takeWhile_append_dropWhile.symm
  unfold unsignedNumeral? at h
  dsimp only at h
  split at h
  · rename_i rest hd
    split at h
    · cases h
    · cases h
      refine ⟨rest.dropWhile Char.isDigit, ?_⟩
      rw [List.append_assoc, List.cons_append, List.takeWhile_append_dropWhile, ← hd]
      exact hsplit
  · split at h
    · cases h
    · cases h
      exact ⟨_, hsplit⟩

theorem eq_of_numeral? {text digits : List Char} (h : numeral? text = some digits) : ∃ rest, text = digits ++ rest := by
  unfold numeral? at h
  split at h
  · obtain ⟨digits, hn, rfl⟩ := Option.map_eq_some_iff.1 h
    obtain ⟨rest, rfl⟩ := eq_of_unsignedNumeral? hn
    exact ⟨rest, rfl⟩
  · exact eq_of_unsignedNumeral? h

theorem readable_of_all {p : Char → Bool} (hb : p '\\' = false) (hr : p '\r' = false) {text : List Char}
    (h : text.all p = true) : Readable (String.ofList text) := by
  rw [List.all_eq_true] at h
  refine readable_of_plain (fun hm => ?_) fun hm => ?_
  · rw [h _ hm] at hb; cases hb
  · rw [h _ hm] at hr; cases hr

/-! ## Lexemes of names -/

theorem ne_of_isNameStart {c d : Char} (h : isNameStart c = true) (hd : isNameStart d = false) : c ≠ d := by
  rintro rfl
  rw [h] at hd
  cases hd

theorem ofText_of_isNameStart {c : Char} (h : isNameStart c = true) (text : List Char) :
    Lexeme.ofText (c :: text) = Lexeme.ofChar c text := by
  have hm : c ≠ '-' := ne_of_isNameStart h (by decide)
  have hq : c ≠ '"' := ne_of_isNameStart h (by decide)
  have hl : c ≠ '<' := ne_of_isNameStart h (by decide)
  unfold Lexeme.ofText
  split <;> simp_all

/-! ## What tokens hold -/

/-- Markup that is read back as it is when it stands in angle brackets. -/
structure Markup.Sound (markup : String) : Prop where
  valid : Markup.validate markup.toList = .ok ()
  balanced : isBalanced 0 markup.toList = true

instance (markup : String) : Decidable (Markup.Sound markup) :=
  match h : Markup.validate markup.toList with
  | .ok () => decidable_of_iff (isBalanced 0 markup.toList = true) ⟨fun hb => ⟨h, hb⟩, Markup.Sound.balanced⟩
  | .error _ => .isFalse fun hs => by cases h.symm.trans hs.valid

/-- Whether a text has such a token. -/
def Token.Clean : Token → Prop
  | identifier text | numeral text | quoted text => Readable text
  | html markup => Markup.Sound markup
  | _ => True

theorem Token.clean_ofWord {word : String} (h : Readable word) : (Token.ofWord word).Clean := by
  unfold ofWord
  split
  · trivial
  · exact h

theorem Token.clean_ofSign? {c : Char} {token : Token} (h : ofSign? c = some token) : token.Clean := by
  unfold ofSign? at h
  split at h <;> cases h <;> trivial

namespace Lexeme

theorem clean_ofQuoted {text : List Char} {token : Token} (h : (ofQuoted text).outcome = .ok token) :
    token.Clean := by
  unfold ofQuoted at h
  split at h
  · rename_i body hb
    cases h
    exact readable_decode hb
  · cases h

theorem clean_ofMarkup {text : List Char} {token : Token} (h : (ofMarkup text).outcome = .ok token) :
    token.Clean := by
  unfold ofMarkup at h
  split at h
  · rename_i content hc
    split at h
    · rename_i hv
      cases h
      exact ⟨by rwa [String.toList_ofList], by rw [String.toList_ofList]; exact isBalanced_of_bracketed? hc⟩
    · cases h
  · cases h

theorem clean_ofChar {c : Char} {text : List Char} {token : Token} (h : (ofChar c text).outcome = .ok token) :
    token.Clean := by
  unfold ofChar at h
  split at h
  · rename_i hc
    cases h
    refine Token.clean_ofWord (readable_of_all isNameChar_backslash isNameChar_return ?_)
    rw [List.all_cons, List.all_takeWhile, Bool.and_true]
    unfold isNameChar
    rw [hc]
    rfl
  · split at h
    · split at h
      · rename_i numeral hn
        cases h
        exact readable_of_all (by decide) (by decide) (all_of_numeral? hn)
      · cases h
    · split at h
      · rename_i token hs
        cases h
        exact Token.clean_ofSign? hs
      · cases h

theorem clean_ofText {text : List Char} {token : Token} (h : (ofText text).outcome = .ok token) : token.Clean := by
  unfold ofText at h
  split at h
  · cases h; trivial
  · cases h; trivial
  · cases h; trivial
  · exact clean_ofQuoted h
  · exact clean_ofMarkup h
  · exact clean_ofChar h

end Lexeme

/-! ## All tokens -/

namespace Lexer

theorem clean_next {lexer : Lexer} {token : Token} {loc : Location} (h : lexer.next.1 = .ok (token, loc)) :
    token.Clean := by
  unfold next at h
  split at h
  · cases h
  · dsimp only at h
    split at h
    · rename_i hl
      cases h
      exact Lexeme.clean_ofText hl
    · cases h

/-- The tokens in front of a lexer, without their positions. -/
def tokens (lexer : Lexer) : List (Except Error Token) := lexer.readAll.map (Except.map Prod.fst)

theorem tokens_of_error {lexer rest : Lexer} {error : Error} (h : lexer.next = (.error error, rest)) :
    lexer.tokens = [.error error] := by
  unfold tokens readAll
  split
  · rename_i e he
    rw [h] at he
    cases he
    rfl
  · rename_i he
    rw [h] at he
    cases he

theorem tokens_of_ok {lexer rest : Lexer} {token : Token} {loc : Location}
    (h : lexer.next = (.ok (token, loc), rest)) :
    lexer.tokens = .ok token :: if token = .eof then [] else rest.tokens := by
  unfold tokens
  rw [readAll]
  split
  · rename_i he
    rw [h] at he
    cases he
  · rename_i he
    rw [h] at he
    cases he
    rw [h]
    split <;> rfl

theorem length_of_next {lexer rest : Lexer} {token : Token} {loc : Location}
    (h : lexer.next = (.ok (token, loc), rest)) (hne : token ≠ .eof) : rest.rest.length < lexer.rest.length := by
  have hl := length_rest_next (by rw [h]) hne
  rwa [h] at hl

theorem length_tokens_le (lexer : Lexer) : lexer.tokens.length ≤ lexer.rest.length + 1 := by
  match hn : lexer.next with
  | (.error error, rest) => rw [tokens_of_error hn]; simp
  | (.ok (token, loc), rest) =>
    rw [tokens_of_ok hn]
    split
    · simp
    · rename_i hne
      have hl := length_of_next hn hne
      have ih := length_tokens_le rest
      rw [List.length_cons]
      omega
termination_by lexer.rest.length
decreasing_by exact hl

theorem clean_of_mem_tokens {lexer : Lexer} {token : Token} (h : .ok token ∈ lexer.tokens) : token.Clean := by
  match hn : lexer.next with
  | (.error error, rest) =>
    rw [tokens_of_error hn, List.mem_singleton] at h
    cases h
  | (.ok (first, loc), rest) =>
    rw [tokens_of_ok hn, List.mem_cons] at h
    rcases h with h | h
    · cases h
      exact clean_next (by rw [hn])
    · split at h
      · cases h
      · rename_i hne
        have hl := length_of_next hn hne
        exact clean_of_mem_tokens h
termination_by lexer.rest.length
decreasing_by exact hl

end Lexer

end DotLang
