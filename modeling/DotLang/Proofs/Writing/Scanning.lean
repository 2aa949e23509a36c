import DotLang.Proofs.Positions
import DotLang.Written

/-!
# Reading written text

A text `Scans` as tokens in front of another when the lexer reads it so wherever it stands, and goes on right
behind it. Texts that scan are put together; what a graph is written with scans piece by piece.
-/

namespace DotLang

/-! ## Reading tokens -/

theorem Lexer.skip_add (m n : Nat) (lexer : Lexer) : lexer.skip (m + n) = (lexer.skip m).skip n := by
  fun_induction skip m lexer with
  | case1 lexer => rw [Nat.zero_add]
  | case2 m loc => cases n <;> simp [skip]
  | case3 m c rest loc ih => rw [Nat.succ_add, skip, ih]

/-- The lexer reads tokens, and goes on as another does. -/
inductive Lexer.Reads : Lexer → List Token → Lexer → Prop
  | gap {a b : Lexer} (h : a.next = b.next) : Reads a [] b
  | token {a b c : Lexer} {t : Token} {loc : Location} {ts : List Token} (h : a.next = (.ok (t, loc), b))
    (hne : t ≠ .eof) (hr : Reads b ts c) : Reads a (t :: ts) c

theorem tokens_of_next {a b : Lexer} (h : a.next = b.next) : a.tokens = b.tokens := by
  match hn : b.next with
  | (.error error, rest) => rw [Lexer.tokens_of_error hn, Lexer.tokens_of_error (h.trans hn)]
  | (.ok (token, loc), rest) => rw [Lexer.tokens_of_ok hn, Lexer.tokens_of_ok (h.trans hn)]

theorem Lexer.Reads.tokens {a b : Lexer} {ts : List Token} (h : a.Reads ts b) : a.tokens = ts.map .ok ++ b.tokens := by
  induction h with
  | gap h => exact tokens_of_next h
  | token h hne _ ih =>
    rw [tokens_of_ok h, if_neg hne, ih]
    rfl

theorem Lexer.Reads.trans {a b c : Lexer} {ts us : List Token} (h : a.Reads ts b) (h' : b.Reads us c) :
    a.Reads (ts ++ us) c := by
  induction h with
  | gap h =>
    cases h' with
    | gap hb => exact .gap (h.trans hb)
    | token hb hne hr => exact .token (h.trans hb) hne hr
  | token h hne _ ih => exact .token h hne (ih h')

/-- In front of `rest`, a text is read as tokens, wherever it stands. -/
def Scans (text : List Char) (ts : List Token) (rest : List Char) : Prop :=
  ∀ loc : Location, 0 < loc.column →
    (Lexer.mk (text ++ rest) loc).Reads ts ((Lexer.mk (text ++ rest) loc).skip text.length)

theorem scans_nil (rest : List Char) : Scans [] [] rest := fun _ _ => .gap rfl

/-! ## Positions -/

theorem Location.column_after {loc : Location} (h : 0 < loc.column) (c : Char) (rest : List Char) :
    0 < (loc.after c rest).column := by
  unfold after
  split
  · exact Nat.one_pos
  · exact Nat.add_pos_left h _

theorem Lexer.column_skip (n : Nat) (lexer : Lexer) (h : 0 < lexer.loc.column) : 0 < (lexer.skip n).loc.column := by
  fun_induction skip n lexer with
  | case1 => exact h
  | case2 => exact h
  | case3 n c rest loc ih => exact ih (Location.column_after h c rest)

/-! ## Texts in a row -/

theorem Scans.append {a b rest : List Char} {ts us : List Token} (ha : Scans a ts (b ++ rest)) (hb : Scans b us rest) :
    Scans (a ++ b) (ts ++ us) rest := by
  intro loc h
  let here := Lexer.mk (a ++ (b ++ rest)) loc
  have hrest : (here.skip a.length).rest = b ++ rest := by
    rw [Lexer.rest_skip]
    exact List.drop_left
  have hmid : here.skip a.length = ⟨b ++ rest, (here.skip a.length).loc⟩ := by rw [← hrest]
  have hfirst : here.Reads ts (here.skip a.length) := ha loc h
  have hsecond := hb (here.skip a.length).loc (Lexer.column_skip _ _ h)
  rw [← hmid, ← Lexer.skip_add, ← List.length_append] at hsecond
  rw [List.append_assoc]
  exact hfirst.trans hsecond

/-- A text that scans to the end has its tokens and no more. -/
theorem tokens_of_scans {text : String} {ts : List Token} (h : Scans text.toList ts []) :
    (Lexer.ofString text).tokens = (ts ++ [Token.eof]).map .ok := by
  have hreads := h {} Nat.one_pos
  rw [List.append_nil] at hreads
  generalize hb : (Lexer.mk text.toList {}).skip text.toList.length = behind at hreads
  have hrest : behind.rest = [] := by rw [← hb, Lexer.rest_skip, List.drop_length]
  obtain ⟨rest, loc⟩ := behind
  subst hrest
  have hnext : (Lexer.mk [] loc).next = (.ok (.eof, loc), ⟨[], loc⟩) := rfl
  have hend : (Lexer.mk [] loc).tokens = [.ok .eof] := Lexer.tokens_of_ok hnext
  rw [List.map_append]
  exact hreads.tokens.trans (congrArg _ hend)

/-! ## Blanks -/

/-- The mode of a reader that is one character further into a gap. -/
def GapMode.shift : GapMode → GapMode
  | .blank lineStart => .blank lineStart
  | .lineComment => .lineComment
  | .blockComment start => .blockComment (start + 1)

theorem gapLength_shift (mode : GapMode) (n : Nat) (text : List Char) :
    gapLength mode.shift (n + 1) text =
      match gapLength mode n text with
      | .ok m => .ok (m + 1)
      | .error m => .error (m + 1) := by
  fun_induction gapLength mode n text <;> simp_all [GapMode.shift, gapLength]

theorem gapLength_space (lineStart : Bool) (n : Nat) (rest : List Char) :
    gapLength (.blank lineStart) n (' ' :: rest) = gapLength (.blank false) (n + 1) rest := by
  cases lineStart <;> rfl

theorem gapLength_newline (lineStart : Bool) (n : Nat) (rest : List Char) :
    gapLength (.blank lineStart) n ('\n' :: rest) = gapLength (.blank true) (n + 1) rest := by
  cases lineStart <;> rfl

/-- A blank in front of a text is passed, and the lexer goes on behind it. -/
theorem next_of_blank {c : Char} {rest : List Char} {loc : Location}
    (h : gapLength (.blank (loc.column = 1)) 0 (c :: rest) =
      gapLength (.blank ((loc.after c rest).column = 1)) 1 rest) :
    (Lexer.mk (c :: rest) loc).next = (Lexer.mk rest (loc.after c rest)).next := by
  unfold Lexer.next
  rw [show gapLength (.blank (loc.column = 1)) 0 (c :: rest) = _ from h]
  have hs := gapLength_shift (.blank ((loc.after c rest).column = 1)) 0 rest
  rw [GapMode.shift] at hs
  rw [hs]
  cases gapLength (.blank ((loc.after c rest).column = 1)) 0 rest <;> rfl

theorem scans_space (rest : List Char) : Scans [' '] [] rest := by
  intro loc h
  refine .gap (next_of_blank ?_)
  have hc : (loc.after ' ' rest).column ≠ 1 := by
    show loc.column + 1 ≠ 1
    omega
  rw [gapLength_space]
  exact congrArg (fun lineStart => gapLength (.blank lineStart) 1 rest) (decide_eq_false hc).symm

theorem scans_newline (rest : List Char) : Scans ['\n'] [] rest := by
  intro loc h
  exact .gap (next_of_blank (gapLength_newline ..))

theorem scans_spaces (n : Nat) (rest : List Char) : Scans (List.replicate n ' ') [] rest := by
  induction n with
  | zero => exact scans_nil rest
  | succ n ih => exact (scans_space _).append ih

/-! ## Lexemes -/

/-- Whether a character can neither be passed as a blank nor begin a comment. -/
def beginsLexeme (c : Char) : Bool :=
  c != ' ' && c != '\t' && c != '\n' && c != '\r' && c != '#' && c != '/'

theorem gapLength_of_beginsLexeme {c : Char} (h : beginsLexeme c = true) (lineStart : Bool) (rest : List Char) :
    gapLength (.blank lineStart) 0 (c :: rest) = .ok 0 := by
  simp only [beginsLexeme, Bool.and_eq_true, bne_iff_ne] at h
  obtain ⟨⟨⟨⟨⟨hspace, htab⟩, hfeed⟩, hreturn⟩, hhash⟩, hslash⟩ := h
  exact gapLength_stop ⟨hspace, htab, hfeed, hreturn⟩ (fun h => absurd h hhash) (fun h => absurd h hslash) 0

/-- Without a gap in front, a lexeme is read where the lexer stands. -/
theorem next_of_lexeme {c : Char} {text : List Char} {token : Token} {length : Nat} (hc : beginsLexeme c = true)
    (h : Lexeme.ofText (c :: text) = .ok token length) (loc : Location) :
    (Lexer.mk (c :: text) loc).next = (.ok (token, loc), (Lexer.mk (c :: text) loc).skip length) := by
  unfold Lexer.next
  rw [gapLength_of_beginsLexeme hc]
  simp only [Lexer.skip, h, Lexeme.ok]

/-- A lexeme that takes up a text scans as its token. -/
theorem scans_lexeme {c : Char} {text rest : List Char} {token : Token} (hc : beginsLexeme c = true)
    (h : Lexeme.ofText (c :: (text ++ rest)) = .ok token (text.length + 1)) (hne : token ≠ .eof) :
    Scans (c :: text) [token] rest := by
  exact fun loc _ => .token (next_of_lexeme hc h loc) hne (.gap rfl)

theorem scans_sign {c : Char} {token : Token} (h : Token.ofSign? c = some token) (rest : List Char) :
    Scans [c] [token] rest := by
  unfold Token.ofSign? at h
  split at h <;> cases h <;> exact scans_lexeme rfl rfl (by simp)

theorem scans_edgeOp (directed : Bool) (rest : List Char) :
    Scans (if directed then "->" else "--").toList [.edgeOp directed] rest := by
  cases directed with
  | true => exact scans_lexeme rfl rfl (by decide)
  | false => exact scans_lexeme rfl rfl (by decide)

/-- What follows the first quote of a readable text ends at the last one, and stands for the text. -/
theorem ofText_quote {text : String} (h : Readable text) (rest : List Char) :
    Lexeme.ofText ('"' :: (Quoted.encode text.toList ++ ['"'] ++ rest)) =
      .ok (.quoted text) ((Quoted.encode text.toList ++ ['"']).length + 1) := by
  rw [List.append_assoc, List.length_append]
  show Lexeme.ofQuoted (Quoted.encode text.toList ++ '"' :: rest) = _
  unfold Lexeme.ofQuoted
  rw [h.body?]
  dsimp only
  rw [h.decode]
  rfl

theorem scans_quote {text : String} (h : Readable text) (rest : List Char) :
    Scans (quote text).toList [.quoted text] rest := by
  rw [quote, String.toList_ofList, List.cons_append]
  exact scans_lexeme rfl (ofText_quote h rest) (by simp)

theorem scans_markup {markup : String} (h : Markup.Sound markup) (rest : List Char) :
    Scans ("<" ++ markup ++ ">").toList [.html markup] rest := by
  rw [String.toList_append, String.toList_append]
  show Scans ('<' :: (markup.toList ++ ['>'])) _ _
  refine scans_lexeme rfl ?_ (by simp)
  rw [List.append_assoc, List.length_append]
  show Lexeme.ofMarkup (markup.toList ++ '>' :: rest) = _
  unfold Lexeme.ofMarkup
  rw [bracketed?_of_isBalanced rest h.balanced]
  dsimp only
  rw [h.valid, String.ofList_toList]
  rfl

/-! ## Words -/

/-- Whether a word that stands in front of a text ends there. -/
def Delimits (rest : List Char) : Prop := ∀ c ∈ rest.head?, isNameChar c = false

theorem takeWhile_of_delimits {p : Char → Bool} {word rest : List Char} (hw : word.all p = true)
    (hr : ∀ c ∈ rest.head?, p c = false) : (word ++ rest).takeWhile p = word := by
  rw [List.takeWhile_append_of_pos (List.all_eq_true.1 hw)]
  cases rest with
  | nil => simp
  | cons c rest =>
    have hc : p c = false := hr c rfl
    rw [List.takeWhile_cons, hc]
    simp

theorem beginsLexeme_of_isNameStart {c : Char} (h : isNameStart c = true) : beginsLexeme c = true := by
  simp only [beginsLexeme, Bool.and_eq_true, bne_iff_ne]
  refine ⟨⟨⟨⟨⟨?_, ?_⟩, ?_⟩, ?_⟩, ?_⟩, ?_⟩ <;> exact ne_of_isNameStart h (by decide)

theorem Token.ofWord_ne_eof (word : String) : Token.ofWord word ≠ .eof := by
  unfold ofWord
  split <;> nofun

theorem scans_word {c : Char} {word rest : List Char} (hc : isNameStart c = true)
    (hw : word.all isNameChar = true) (hr : Delimits rest) :
    Scans (c :: word) [.ofWord (String.ofList (c :: word))] rest := by
  refine scans_lexeme (beginsLexeme_of_isNameStart hc) ?_ (Token.ofWord_ne_eof _)
  rw [ofText_of_isNameStart hc, Lexeme.ofChar, if_pos hc, takeWhile_of_delimits hw hr]
  rfl

end DotLang
