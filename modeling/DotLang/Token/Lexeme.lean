import DotLang.Error
import DotLang.Text.Quoted
import DotLang.Token.Basic

/-!
# The shapes of tokens

What stands at the front of a text: first a gap of blanks and comments, then a lexeme. Both are found
from the text alone and measured in characters, so that where they stand is no concern of theirs; only
whether a gap begins at the start of a line matters, since `#` begins a comment there.
-/

namespace DotLang

/-! ## Gaps -/

inductive GapMode
  /-- Between comments, at the start of a line or not. -/
  | blank (lineStart : Bool)
  | lineComment
  /-- In a comment that began `start` characters into the gap. -/
  | blockComment (start : Nat)

/-- The length of the gap in front of a text, `n` characters of which are passed already. A block
comment that does not end is a fault, and its start is returned. -/
def gapLength : GapMode → (n : Nat) → List Char → Except Nat Nat
  | .blank _, n, ' ' :: rest => gapLength (.blank false) (n + 1) rest
  | .blank _, n, '\t' :: rest => gapLength (.blank false) (n + 1) rest
  | .blank _, n, '\n' :: rest => gapLength (.blank true) (n + 1) rest
  | .blank _, n, '\r' :: rest => gapLength (.blank true) (n + 1) rest
  | .blank true, n, '#' :: rest => gapLength .lineComment (n + 1) rest
  | .blank _, n, '/' :: '/' :: rest => gapLength .lineComment (n + 2) rest
  | .blank _, n, '/' :: '*' :: rest => gapLength (.blockComment n) (n + 2) rest
  | .blank _, n, _ => .ok n
  | .lineComment, n, '\n' :: rest => gapLength (.blank true) (n + 1) rest
  | .lineComment, n, '\r' :: rest => gapLength (.blank true) (n + 1) rest
  | .lineComment, n, _ :: rest => gapLength .lineComment (n + 1) rest
  | .lineComment, n, [] => .ok n
  | .blockComment _, n, '*' :: '/' :: rest => gapLength (.blank false) (n + 2) rest
  | .blockComment start, n, _ :: rest => gapLength (.blockComment start) (n + 1) rest
  | .blockComment start, _, [] => .error start

-- Evaluated before the equations below are proved: otherwise they all wait for what is generated from `gapLength`.
example : gapLength (.blank true) 0 ['#', 'a', '\n', ' ', '/', '*', '*', '/', '/', '/', 'b', '\r', 'c'] = .ok 12 := by cbv

section
variable {c : Char} {rest : List Char}

theorem gapLength_lineComment_cons (hfeed : c ≠ '\n') (hreturn : c ≠ '\r') (n : Nat) :
    gapLength .lineComment n (c :: rest) = gapLength .lineComment (n + 1) rest := by
  rw [gapLength]
  · exact hfeed
  · exact hreturn

theorem gapLength_blockComment_cons (hc : ¬ (c = '*' ∧ rest.head? = some '/')) (start n : Nat) :
    gapLength (.blockComment start) n (c :: rest) = gapLength (.blockComment start) (n + 1) rest := by
  rw [gapLength]
  rintro more rfl rfl
  exact hc ⟨rfl, rfl⟩

/-- The gap ends in front of what is neither a blank nor the start of a comment. -/
theorem gapLength_stop {lineStart : Bool} (hblank : c ≠ ' ' ∧ c ≠ '\t' ∧ c ≠ '\n' ∧ c ≠ '\r')
    (hhash : c = '#' → lineStart = false) (hslash : c = '/' → rest.head? ≠ some '/' ∧ rest.head? ≠ some '*') (n : Nat) :
    gapLength (.blank lineStart) n (c :: rest) = .ok n := by
  obtain ⟨hspace, htab, hfeed, hreturn⟩ := hblank
  rw [gapLength]
  · exact fun _ he => hspace (List.cons.inj he).1
  · exact fun _ he => htab (List.cons.inj he).1
  · exact fun _ he => hfeed (List.cons.inj he).1
  · exact fun _ he => hreturn (List.cons.inj he).1
  · exact fun _ he hc => Bool.false_ne_true ((hhash (List.cons.inj he).1).symm.trans hc)
  · intro more he
    obtain ⟨rfl, rfl⟩ := List.cons.inj he
    exact (hslash rfl).1 rfl
  · intro more he
    obtain ⟨rfl, rfl⟩ := List.cons.inj he
    exact (hslash rfl).2 rfl

end

/-! ## Names, numerals and markup -/

def isNameStart (c : Char) : Bool :=
  c.isAlpha || c = '_' || 0x80 ≤ c.toNat

def isNameChar (c : Char) : Bool :=
  isNameStart c || c.isDigit

/-- The token that a word of name characters is. -/
def Token.ofWord (word : String) : Token :=
  match Keyword.ofName? word with
  | some known => .keyword known
  | none => .identifier word

/-- The longest numeral without a sign in front of a text: digits, with a point among, before or
behind them. -/
def unsignedNumeral? (text : List Char) : Option (List Char) :=
  let whole := text.takeWhile Char.isDigit
  match text.dropWhile Char.isDigit with
  | '.' :: rest =>
    let fraction := rest.takeWhile Char.isDigit
    if whole.isEmpty && fraction.isEmpty then none else some (whole ++ '.' :: fraction)
  | _ => if whole.isEmpty then none else some whole

def numeral? : List Char → Option (List Char)
  | '-' :: rest => (unsignedNumeral? rest).map ('-' :: ·)
  | text => unsignedNumeral? text

/-- What stands before the angle bracket that closes one more than were opened, of which `depth` are
passed already. -/
def bracketed? : (depth : Nat) → List Char → Option (List Char)
  | _, [] => none
  | 0, '>' :: _ => some []
  | depth + 1, '>' :: rest => (bracketed? depth rest).map ('>' :: ·)
  | depth, '<' :: rest => (bracketed? (depth + 1) rest).map ('<' :: ·)
  | depth, c :: rest => (bracketed? depth rest).map (c :: ·)

/-! ## Lexemes -/

/-- What stands in front of a text without a gap: a token or a fault, and the number of characters to
move on by. -/
structure Lexeme where
  outcome : Except LexicalFault Token
  length : Nat

namespace Lexeme

def ok (token : Token) (length : Nat) : Lexeme := ⟨.ok token, length⟩

def fault (fault : LexicalFault) (length : Nat) : Lexeme := ⟨.error fault, length⟩

/-- A quoted string; `text` is what follows its first quote. Without a last one it runs to the end. -/
def ofQuoted (text : List Char) : Lexeme :=
  match Quoted.body? text with
  | some body => ok (.quoted (String.ofList (Quoted.decode body))) (body.length + 2)
  | none => fault .unterminatedString (text.length + 1)

/-- Markup in angle brackets; `text` is what follows the first of them. -/
def ofMarkup (text : List Char) : Lexeme :=
  match bracketed? 0 text with
  | some content =>
    match Markup.validate content with
    | .ok _ => ok (.html (String.ofList content)) (content.length + 2)
    | .error problem => fault (.malformedMarkup problem) (content.length + 2)
  | none => fault .unterminatedMarkup (text.length + 1)

/-- What the characters that are no edge operator, string or markup begin. A stray character is left
where it is. -/
def ofChar (c : Char) (text : List Char) : Lexeme :=
  if isNameStart c then
    let word := c :: text.takeWhile isNameChar
    ok (.ofWord (String.ofList word)) word.length
  else if c = '-' || c = '.' || c.isDigit then
    match numeral? (c :: text) with
    | some numeral => ok (.numeral (String.ofList numeral)) numeral.length
    | none => fault (.strayCharacter c) 0
  else
    match Token.ofSign? c with
    | some token => ok token 1
    | none => fault (.strayByte c) 0

def ofText : List Char → Lexeme
  | [] => ok .eof 0
  | '-' :: '>' :: _ => ok .arrow 2
  | '-' :: '-' :: _ => ok .line 2
  | '"' :: text => ofQuoted text
  | '<' :: text => ofMarkup text
  | c :: text => ofChar c text

theorem unsignedNumeral?_ne_nil {text numeral : List Char} (h : unsignedNumeral? text = some numeral) :
    numeral ≠ [] := by
  unfold unsignedNumeral? at h
  simp only at h
  split at h
  all_goals
    split at h
    · simp at h
    · simp only [Option.some.injEq] at h
      subst h
      simp_all

theorem numeral?_ne_nil {text numeral : List Char} (h : numeral? text = some numeral) : numeral ≠ [] := by
  unfold numeral? at h
  split at h
  · obtain ⟨_, _, rfl⟩ := Option.map_eq_some_iff.1 h; simp
  · exact unsignedNumeral?_ne_nil h

theorem length_ofChar {c : Char} {text : List Char} {token : Token} (h : (ofChar c text).outcome = .ok token) :
    0 < (ofChar c text).length := by
  unfold ofChar at h ⊢
  split
  · simp [ok]
  · rename_i hn
    simp only [hn] at h
    split
    · rename_i hd
      simp only [hd] at h
      split
      · rename_i hs; exact List.length_pos_iff.2 (numeral?_ne_nil hs)
      · rename_i hs; simp [hs, fault] at h
    · rename_i hd
      simp only [hd] at h
      split
      · simp [ok]
      · rename_i hs; simp [hs, fault] at h

/-- A token other than the end takes up characters. -/
theorem length_pos {text : List Char} {token : Token} (h : (ofText text).outcome = .ok token)
    (hne : token ≠ .eof) : text ≠ [] ∧ 0 < (ofText text).length := by
  unfold ofText at h ⊢
  split
  · simp_all [ok]
  · exact ⟨by simp, by simp [ok]⟩
  · exact ⟨by simp, by simp [ok]⟩
  · refine ⟨by simp, ?_⟩
    unfold ofQuoted; split <;> simp [ok, fault]
  · refine ⟨by simp, ?_⟩
    unfold ofMarkup
    split
    · split <;> simp [ok, fault]
    · simp [fault]
  · refine ⟨by simp, ?_⟩
    split at h <;> simp_all [length_ofChar]

end Lexeme

end DotLang
