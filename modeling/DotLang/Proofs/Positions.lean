import DotLang.Proofs.Tokens
import Mathlib.Data.List.Basic

/-!
# Positions are exact

The position behind a text is read off that text: how many bytes it has, how often it goes to a new line, and
how many bytes stand behind the last line break. A lexer that passes characters one at a time is at that position
wherever no line break is cut in two, and it stops nowhere else: a gap takes all line breaks that it meets, and
no lexeme ends in one.
-/

namespace DotLang

/-! ## The position behind a text -/

/-- How often a text goes to a new line. A carriage return and the line feed behind it are one line break. -/
def lineBreaks : List Char → Nat
  | [] => 0
  | '\r' :: '\n' :: rest => lineBreaks rest + 1
  | '\r' :: rest => lineBreaks rest + 1
  | '\n' :: rest => lineBreaks rest + 1
  | _ :: rest => lineBreaks rest

def isBreak (c : Char) : Bool := c = '\n' || c = '\r'

theorem isBreak_iff {c : Char} : isBreak c = true ↔ c = '\n' ∨ c = '\r' := by simp [isBreak]

theorem isBreak_eq_false_iff {c : Char} : isBreak c = false ↔ c ≠ '\n' ∧ c ≠ '\r' := by simp [isBreak]

def lastLine (text : List Char) : List Char := (text.reverse.takeWhile fun c => !isBreak c).reverse

def Location.behind (text : List Char) : Location :=
  ⟨byteLength text, 1 + lineBreaks text, 1 + byteLength (lastLine text)⟩

def Location.IsIn (text : List Char) (loc : Location) : Prop :=
  ∃ passed rest, text = passed ++ rest ∧ loc = .behind passed

/-- No line break is cut in two between the one text and the other. -/
def Settled (passed rest : List Char) : Prop := passed.getLast? = some '\r' → rest.head? ≠ some '\n'

theorem Settled.of_cons {c : Char} {a b : List Char} (h : Settled (c :: a) b) : Settled a b := by
  intro ha
  apply h
  rw [List.getLast?_cons, ha]
  rfl

theorem settled_of_head {a b : List Char} (h : b.head? ≠ some '\n') : Settled a b := fun _ => h

theorem lineBreaks_append {a b : List Char} (h : Settled a b) :
    lineBreaks (a ++ b) = lineBreaks a + lineBreaks b := by
  fun_induction lineBreaks a with
  | case1 => simp
  | case2 rest ih =>
    have ih := ih h.of_cons.of_cons
    simp only [List.cons_append, lineBreaks, ih]
    omega
  | case3 rest hn ih =>
    have ih := ih h.of_cons
    have hhead : ∀ more, rest ++ b ≠ '\n' :: more := by
      intro more he
      cases rest with
      | nil =>
        apply h rfl
        rw [show b = '\n' :: more from he]
        rfl
      | cons c rest => exact hn rest (by rw [(List.cons.inj he).1])
    rw [List.cons_append, lineBreaks, ih]
    · omega
    · exact hhead
  | case4 rest ih =>
    have ih := ih h.of_cons
    simp only [List.cons_append, lineBreaks, ih]
    omega
  | case5 c rest hrn hr hn ih =>
    have ih := ih h.of_cons
    rw [List.cons_append, lineBreaks, ih] <;> simp_all

theorem lastLine_concat (a : List Char) (c : Char) :
    lastLine (a ++ [c]) = if isBreak c then [] else lastLine a ++ [c] := by
  unfold lastLine
  rw [List.reverse_append, List.reverse_singleton, List.singleton_append, List.takeWhile_cons]
  cases isBreak c <;> simp

theorem lineBreaks_singleton (c : Char) : lineBreaks [c] = if isBreak c then 1 else 0 := by
  by_cases hr : c = '\r'
  · subst hr; rfl
  · by_cases hn : c = '\n'
    · subst hn; rfl
    · rw [lineBreaks] <;> simp_all [isBreak, lineBreaks]

theorem behind_concat {a : List Char} {c : Char} (h : Settled a [c]) :
    Location.behind (a ++ [c]) =
      if isBreak c then ⟨byteLength a + c.utf8Size, 1 + lineBreaks a + 1, 1⟩
      else ⟨byteLength a + c.utf8Size, 1 + lineBreaks a, 1 + byteLength (lastLine a) + c.utf8Size⟩ := by
  unfold Location.behind
  rw [lineBreaks_append h, lastLine_concat, lineBreaks_singleton]
  cases isBreak c <;> simp [Nat.add_assoc]

/-! ## Moving character by character -/

/-- The position that moving past the characters of `a` leads to, when `rest` follows them. -/
def Location.past (loc : Location) : List Char → List Char → Location
  | [], _ => loc
  | c :: a, rest => (loc.after c (a ++ rest)).past a rest

theorem past_append (loc : Location) (a b rest : List Char) :
    loc.past (a ++ b) rest = (loc.past a (b ++ rest)).past b rest := by
  induction a generalizing loc with
  | nil => rfl
  | cons c a ih => rw [List.cons_append, Location.past, Location.past, ih, List.append_assoc]

theorem offset_past (a rest : List Char) (loc : Location) : (loc.past a rest).offset = loc.offset + byteLength a := by
  induction a generalizing loc with
  | nil => rfl
  | cons c a ih => rw [Location.past, ih, Location.offset_after, byteLength_cons, Nat.add_assoc]

/-- Behind a text that is settled, the next character leads to the position that is read off. -/
theorem after_behind {a rest : List Char} {c : Char} (ha : Settled a [c]) (h : Settled (a ++ [c]) rest) :
    (Location.behind a).after c rest = .behind (a ++ [c]) := by
  have hends : Location.endsLine c rest = isBreak c := by
    unfold Location.endsLine isBreak
    by_cases hr : c = '\r'
    · have := h (by rw [List.getLast?_concat, hr])
      simp [hr, this]
    · simp [hr]
  unfold Location.after
  rw [hends, behind_concat ha]
  rfl

theorem past_eq_behind {a rest : List Char} (h : Settled a rest) : Location.past {} a rest = .behind a := by
  rcases a.eq_nil_or_concat' with rfl | ⟨b, c, rfl⟩
  · rfl
  rw [past_append, List.singleton_append]
  show (Location.past {} b (c :: rest)).after c rest = _
  by_cases hb : Settled b (c :: rest)
  · rw [past_eq_behind hb]
    exact after_behind hb h
  · -- The carriage return has not counted as a line break, since the line feed behind it does.
    unfold Settled at hb
    rw [Classical.not_imp, not_ne_iff] at hb
    obtain ⟨hlast, hhead⟩ := hb
    obtain rfl : c = '\n' := by simpa using hhead
    rcases b.eq_nil_or_concat' with rfl | ⟨b', c', rfl⟩
    · cases hlast
    obtain rfl : c' = '\r' := by simpa using hlast
    have hb' : Settled b' ('\r' :: '\n' :: rest) := settled_of_head (by simp)
    have hjoin : lineBreaks (b' ++ ['\r', '\n']) = lineBreaks b' + 1 := lineBreaks_append (settled_of_head (by simp))
    rw [past_append, List.singleton_append, past_eq_behind hb']
    show ((Location.behind b').after '\r' ('\n' :: rest)).after '\n' rest = _
    unfold Location.behind
    rw [lastLine_concat, List.append_assoc, List.singleton_append, hjoin]
    simp [Location.after, Location.endsLine, isBreak, Nat.add_assoc]
termination_by a.length
decreasing_by all_goals simp [*]

/-- The lexer has passed the one text of which it is at the end, and has the rest to read. -/
structure Placed (text passed : List Char) (lexer : Lexer) : Prop where
  text : text = passed ++ lexer.rest
  settled : Settled passed lexer.rest
  loc : lexer.loc = .behind passed

theorem Placed.eq {text passed : List Char} {lexer : Lexer} (h : Placed text passed lexer) :
    lexer = ⟨lexer.rest, .behind passed⟩ := by
  rw [← h.loc]

theorem loc_skip (n : Nat) (lexer : Lexer) :
    (lexer.skip n).loc = lexer.loc.past (lexer.rest.take n) (lexer.rest.drop n) := by
  fun_induction Lexer.skip n lexer with
  | case1 => rfl
  | case2 => rfl
  | case3 n c rest loc ih =>
    rw [ih, List.take_succ_cons, List.drop_succ_cons, Location.past, List.take_append_drop]

theorem Lexer.offset_skip (n : Nat) (lexer : Lexer) :
    (lexer.skip n).loc.offset = lexer.loc.offset + byteLength (lexer.rest.take n) := by
  rw [loc_skip, offset_past]

theorem Placed.skip {text passed a rest : List Char} {lexer : Lexer} (h : Placed text passed lexer)
    (hr : lexer.rest = a ++ rest) (hs : Settled (passed ++ a) rest) :
    Placed text (passed ++ a) (lexer.skip a.length) ∧ (lexer.skip a.length).rest = rest := by
  have hrest : (lexer.skip a.length).rest = rest := by
    rw [Lexer.rest_skip, hr, List.drop_left]
  refine ⟨⟨?_, ?_, ?_⟩, hrest⟩
  · rw [h.text, hr, hrest, List.append_assoc]
  · rwa [hrest]
  · rw [loc_skip, hr, List.take_left, List.drop_left, h.loc, ← past_eq_behind h.settled, hr, ← past_append,
      past_eq_behind hs]

/-! ## Gaps -/

/-- `m` is reached from `n` by passing characters of the text, up to a rest that `P` holds of. -/
def Reaches (P : List Char → Prop) (n m : Nat) (text : List Char) : Prop :=
  ∃ passed rest, text = passed ++ rest ∧ m = n + passed.length ∧ P rest

theorem Reaches.here {P : List Char → Prop} {text : List Char} (h : P text) (n : Nat) : Reaches P n n text :=
  ⟨[], text, rfl, rfl, h⟩

theorem Reaches.cons {P : List Char → Prop} {n m : Nat} {text : List Char} (h : Reaches P (n + 1) m text) (c : Char) :
    Reaches P n m (c :: text) := by
  obtain ⟨passed, rest, rfl, rfl, hp⟩ := h
  exact ⟨c :: passed, rest, rfl, by rw [List.length_cons]; omega, hp⟩

/-- What a gap comes to: it takes all line feeds that it meets, and a comment that does not end is one that was
open already, or begins with a slash. -/
def GapMode.Finds (mode : GapMode) (n : Nat) (text : List Char) : Except Nat Nat → Prop
  | .ok m => Reaches (fun rest => rest.head? ≠ some '\n') n m text
  | .error m => mode = .blockComment m ∨ Reaches (fun rest => rest.head? = some '/') n m text

theorem GapMode.Finds.cons {after : GapMode} {n : Nat} {text : List Char} {result : Except Nat Nat}
    (h : after.Finds (n + 1) text result) (mode : GapMode)
    (hopen : ∀ start, after = .blockComment start → mode = .blockComment start) (c : Char) :
    mode.Finds n (c :: text) result := by
  cases result with
  | ok m => exact Reaches.cons h c
  | error m => exact Or.imp (hopen m) (fun hr => hr.cons c) h

theorem GapMode.finds (mode : GapMode) (n : Nat) (text : List Char) : mode.Finds n text (gapLength mode n text) := by
  -- Each call passes one character or two; the gap ends where none of them is a line feed.
  fun_induction gapLength mode n text with
  | case1 _ _ _ ih | case2 _ _ _ ih | case3 _ _ _ ih | case4 _ _ _ ih => exact ih.cons _ nofun _
  | case5 _ _ ih | case9 _ _ ih | case10 _ _ ih | case11 _ _ _ _ _ ih => exact ih.cons _ nofun _
  | case6 _ _ _ ih => exact (ih.cons .lineComment nofun _).cons _ nofun _
  | case13 _ _ _ ih => exact (ih.cons (.blank false) nofun _).cons _ nofun _
  | case14 _ _ _ _ _ ih => exact ih.cons _ (fun _ h => h) _
  | case7 _ n rest ih =>
    generalize gapLength (.blockComment n) (n + 2) rest = result at ih ⊢
    cases result with
    | ok m => exact Reaches.cons (Reaches.cons ih _) _
    | error m =>
      -- The comment that begins here may be the one that does not end.
      rcases ih with hm | hr
      · cases hm
        exact Or.inr (Reaches.here (P := fun rest => rest.head? = some '/') rfl _)
      · exact Or.inr ((hr.cons _).cons _)
  | case8 text _ n _ _ hn =>
    apply Reaches.here
    intro hhead
    obtain ⟨rest, rfl⟩ := List.head?_eq_some_iff.1 hhead
    exact hn rest rfl
  | case12 => exact .here (by simp) _
  | case15 => exact Or.inl rfl

theorem gapLength_ok {mode : GapMode} {n m : Nat} {text : List Char} (h : gapLength mode n text = .ok m) :
    Reaches (fun rest => rest.head? ≠ some '\n') n m text := by
  have hfinds := mode.finds n text
  rwa [h] at hfinds

theorem gapLength_error {mode : GapMode} {n m : Nat} {text : List Char} (h : gapLength mode n text = .error m) :
    mode = .blockComment m ∨ Reaches (fun rest => rest.head? = some '/') n m text := by
  have hfinds := mode.finds n text
  rwa [h] at hfinds

/-! ## Lexemes -/

/-- The text of a token. -/
inductive Spells : List Char → Token → Prop
  | eof : Spells [] .eof
  | identifier {c : Char} {more : List Char} (hc : isNameStart c = true) (h : more.all isNameChar = true) :
    Spells (c :: more) (.identifier (String.ofList (c :: more)))
  | keyword {word : List Char} {known : Keyword} (h : word.all isNameChar = true)
    (hk : Keyword.ofName? (String.ofList word) = some known) : Spells word (.keyword known)
  | numeral {digits : List Char} (h : digits.all isNumeralChar = true) :
    Spells digits (.numeral (String.ofList digits))
  | quoted {body : List Char} (h : Quoted.body? (body ++ ['"']) = some body) :
    Spells ('"' :: body ++ ['"']) (.quoted (String.ofList (Quoted.decode body)))
  | html {content : List Char} (h : isBalanced 0 content = true) :
    Spells ('<' :: content ++ ['>']) (.html (String.ofList content))
  | sign {c : Char} {token : Token} (h : Token.ofSign? c = some token) : Spells [c] token
  | arrow : Spells ['-', '>'] .arrow
  | line : Spells ['-', '-'] .line

theorem getLast?_of_all {p : Char → Bool} (hp : p '\r' = false) {text : List Char} (h : text.all p = true) :
    text.getLast? ≠ some '\r' := by
  intro hl
  have hr := List.all_eq_true.1 h '\r' (List.mem_of_getLast? hl)
  rw [hp] at hr
  cases hr

theorem all_isNameChar_cons {c : Char} {more : List Char} (hc : isNameStart c = true)
    (h : more.all isNameChar = true) : (c :: more).all isNameChar = true := by
  simp [isNameChar, hc, h]

theorem Spells.getLast?_ne {lexeme : List Char} {token : Token} (h : Spells lexeme token) :
    lexeme.getLast? ≠ some '\r' := by
  cases h with
  | eof => simp
  | identifier hc h => exact getLast?_of_all isNameChar_return (all_isNameChar_cons hc h)
  | keyword h _ => exact getLast?_of_all isNameChar_return h
  | numeral h => exact getLast?_of_all (by decide) h
  | quoted h | html h =>
    rw [List.getLast?_concat]
    simp
  | sign h =>
    rintro hl
    obtain rfl := by simpa using hl
    cases h
  | arrow => simp
  | line => simp

/-- Of a text, the lexeme takes the characters of its token, and what it takes does not end in a carriage return
that has something behind it. -/
def Lexeme.Takes (text : List Char) (x : Lexeme) : Prop :=
  ∃ lexeme rest, text = lexeme ++ rest ∧ x.length = lexeme.length ∧ (lexeme.getLast? = some '\r' → rest = []) ∧
    ∀ token, x.outcome = .ok token → Spells lexeme token ∧ (token = .eof → rest = [])

namespace Lexeme

theorem takes_ok {text lexeme : List Char} {token : Token} (rest : List Char) (ht : text = lexeme ++ rest)
    (h : Spells lexeme token) (hr : token = .eof → rest = []) : Takes text (ok token lexeme.length) := by
  refine ⟨lexeme, rest, ht, rfl, fun hl => absurd hl h.getLast?_ne, ?_⟩
  intro other ho
  obtain rfl : token = other := Except.ok.inj ho
  exact ⟨h, hr⟩

theorem takes_fault (lexeme rest : List Char) (problem : LexicalFault) (hl : lexeme.getLast? = some '\r' → rest = []) :
    Takes (lexeme ++ rest) (fault problem lexeme.length) :=
  ⟨lexeme, rest, rfl, rfl, hl, fun _ ho => nomatch ho⟩

end Lexeme

theorem spells_ofWord {c : Char} {more : List Char} (hc : isNameStart c = true) (h : more.all isNameChar = true) :
    Spells (c :: more) (.ofWord (String.ofList (c :: more))) := by
  unfold Token.ofWord
  split
  · rename_i hk
    exact .keyword (all_isNameChar_cons hc h) hk
  · exact .identifier hc h

namespace Lexeme

theorem takes_ofQuoted (text : List Char) : Takes ('"' :: text) (ofQuoted text) := by
  unfold ofQuoted
  split
  · rename_i body hb
    obtain ⟨rest, rfl⟩ := Quoted.eq_of_body? hb
    simpa using takes_ok rest (by simp) (.quoted (Quoted.body?_self hb)) nofun
  · simpa using takes_fault ('"' :: text) [] .unterminatedString fun _ => rfl

theorem takes_ofMarkup (text : List Char) : Takes ('<' :: text) (ofMarkup text) := by
  unfold ofMarkup
  split
  · rename_i content hc
    have hb := isBalanced_of_bracketed? hc
    obtain ⟨rest, rfl⟩ := eq_of_bracketed? hc
    split
    · simpa using takes_ok rest (by simp) (.html hb) nofun
    · rename_i problem _
      have hl : ('<' :: content ++ ['>']).getLast? = some '\r' → rest = [] := by
        rw [List.getLast?_concat]
        nofun
      simpa using takes_fault ('<' :: content ++ ['>']) rest (.malformedMarkup problem) hl
  · simpa using takes_fault ('<' :: text) [] .unterminatedMarkup fun _ => rfl

theorem takes_ofChar (c : Char) (text : List Char) : Takes (c :: text) (ofChar c text) := by
  unfold ofChar
  split
  · rename_i hc
    apply takes_ok (text.dropWhile isNameChar) (by simp) (spells_ofWord hc List.all_takeWhile)
    unfold Token.ofWord
    split <;> nofun
  · split
    · split
      · rename_i digits hn
        obtain ⟨rest, hr⟩ := eq_of_numeral? hn
        exact takes_ok rest hr (.numeral (all_of_numeral? hn)) nofun
      · exact takes_fault [] _ _ nofun
    · split
      · rename_i token hs
        refine takes_ok text rfl (.sign hs) ?_
        rintro rfl
        unfold Token.ofSign? at hs
        split at hs <;> cases hs
      · exact takes_fault [] _ _ nofun

theorem takes_ofText (text : List Char) : Takes text (ofText text) := by
  unfold ofText
  split
  · exact takes_ok [] rfl .eof fun _ => rfl
  · exact takes_ok _ rfl .arrow nofun
  · exact takes_ok _ rfl .line nofun
  · exact takes_ofQuoted _
  · exact takes_ofMarkup _
  · exact takes_ofChar _ _

end Lexeme

/-! ## What a lexer does in one call -/

/-- Behind a gap it finds a token, and moves past it; or it fails there, and moves on from there or stays. -/
inductive Moves (text passed : List Char) : Except Error (Token × Location) → Lexer → Prop
  | token {gap lexeme : List Char} {token : Token} {next : Lexer} (hs : Spells lexeme token)
    (he : token = .eof → next.rest = []) (hp : Placed text (passed ++ gap ++ lexeme) next) :
    Moves text passed (.ok (token, .behind (passed ++ gap))) next
  | failure {gap more : List Char} {next : Lexer} (fault : LexicalFault) (hp : Placed text (passed ++ gap ++ more) next) :
    Moves text passed (.error (.lexical fault (.behind (passed ++ gap)))) next

section
variable {text passed : List Char} {lexer : Lexer}

theorem Settled.append {a lexeme rest : List Char} (h : Settled a (lexeme ++ rest))
    (hl : lexeme.getLast? = some '\r' → rest = []) : Settled (a ++ lexeme) rest := by
  intro hr
  by_cases hn : lexeme = []
  · subst hn
    rw [List.append_nil] at hr
    exact h hr
  · rw [List.getLast?_append_of_ne_nil _ hn] at hr
    rw [hl hr]
    nofun

theorem Placed.next (h : Placed text passed lexer) : Moves text passed lexer.next.1 lexer.next.2 := by
  unfold Lexer.next
  split
  · rename_i n hn
    obtain ⟨gap, rest, hr, hlength, hhead⟩ := (gapLength_error hn).resolve_left nofun
    obtain rfl : n = gap.length := by omega
    -- The failure points at the comment, and the lexer goes to the end.
    obtain ⟨hgap, -⟩ := h.skip hr (settled_of_head (by rw [hhead]; decide))
    obtain ⟨hend, -⟩ := h.skip (List.append_nil lexer.rest).symm (settled_of_head (by simp))
    have hfar : Placed text (passed ++ gap ++ rest) (lexer.skip lexer.rest.length) := by
      rw [List.append_assoc, ← hr]
      exact hend
    rw [hgap.loc]
    exact .failure _ hfar
  · rename_i n hn
    obtain ⟨gap, rest, hr, hlength, hhead⟩ := gapLength_ok hn
    obtain rfl : n = gap.length := by omega
    obtain ⟨hgap, hrest⟩ := h.skip hr (settled_of_head hhead)
    dsimp only
    rw [hgap.loc]
    generalize lexer.skip gap.length = here at hgap hrest
    obtain ⟨lexeme, more, hm, hl, hlast, hspells⟩ := Lexeme.takes_ofText here.rest
    have hsettled : Settled (passed ++ gap ++ lexeme) more := (hm ▸ hgap.settled).append hlast
    obtain ⟨hnext, hmore⟩ := hgap.skip hm hsettled
    rw [hl]
    split
    · rename_i token ht
      obtain ⟨hs, he⟩ := hspells token ht
      exact .token hs (fun heof => hmore.trans (he heof)) hnext
    · exact .failure _ hnext

/-- Where a lexer goes on when it has passed a text. -/
theorem Moves.placed {result : Except Error (Token × Location)} {next : Lexer} (h : Moves text passed result next) :
    ∃ more, Placed text (passed ++ more) next := by
  cases h with
  | token _ _ hp => exact ⟨_, by rwa [← List.append_assoc]⟩
  | failure _ hp => exact ⟨_, by rwa [← List.append_assoc]⟩

end

theorem placed_start (text : List Char) : Placed text [] ⟨text, {}⟩ where
  text := rfl
  settled := nofun
  loc := rfl

theorem placed_ofString (text : String) : Placed text.toList [] (.ofString text) :=
  placed_start text.toList

theorem Placed.isIn {text passed more : List Char} {lexer : Lexer} (h : Placed text (passed ++ more) lexer) :
    (Location.behind passed).IsIn text :=
  ⟨passed, more ++ lexer.rest, by rw [h.text, List.append_assoc], rfl⟩

/-- The lexer after some calls, whatever they gave. -/
def Lexer.moved : (calls : Nat) → Lexer → Lexer
  | 0, lexer => lexer
  | calls + 1, lexer => (lexer.moved calls).next.2

theorem placed_moved (text : String) : ∀ calls : Nat, ∃ passed,
    Placed text.toList passed ((Lexer.ofString text).moved calls)
  | 0 => ⟨[], placed_ofString text⟩
  | calls + 1 => by
    obtain ⟨passed, h⟩ := placed_moved text calls
    obtain ⟨more, hm⟩ := h.next.placed
    exact ⟨passed ++ more, hm⟩

end DotLang
