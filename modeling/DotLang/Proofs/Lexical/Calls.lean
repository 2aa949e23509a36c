import DotLang.Proofs.Lexical.Lexemes

/-!
# What a lexer reads in one call

A call passes the longest gap there is and reads a token behind it: the longest name or numeral where one stands. If
nothing there begins like a token, it fails and stays, so that it fails in the same way from then on.
-/

namespace DotLang

section
variable {text passed gap rest : List Char} {lexer : Lexer}

def Lexeme.result (lexeme : Lexeme) (loc : Location) : Except Error (Token × Location) :=
  match lexeme.outcome with
  | .ok token => .ok (token, loc)
  | .error fault => .error (.lexical fault loc)

theorem Lexeme.result_eq_ok {lexeme : Lexeme} {here loc : Location} {token : Token}
    (h : lexeme.result here = .ok (token, loc)) : lexeme.outcome = .ok token ∧ loc = here := by
  unfold result at h
  split at h
  · rename_i ht
    cases h
    exact ⟨ht, rfl⟩
  · cases h

theorem Lexeme.result_eq_error {lexeme : Lexeme} {here loc : Location} {fault : LexicalFault} :
    lexeme.result here = .error (.lexical fault loc) ↔ lexeme.outcome = .error fault ∧ loc = here := by
  unfold result
  split
  · rename_i ht
    rw [ht]
    exact ⟨nofun, nofun⟩
  · rename_i ht
    rw [ht]
    simp [eq_comm]

/-- Where no gap goes on, the lexer goes on with a lexeme. -/
theorem Placed.next_of_gap (h : Placed text passed lexer) (hr : lexer.rest = gap ++ rest) (hg : Gap passed gap rest)
    (hs : gapLength (.behind (passed ++ gap)) gap.length rest = .ok gap.length) :
    Placed text (passed ++ gap) ⟨rest, .behind (passed ++ gap)⟩ ∧
      lexer.next = ((Lexeme.ofText rest).result (.behind (passed ++ gap)),
        (Lexer.mk rest (.behind (passed ++ gap))).skip (Lexeme.ofText rest).length) := by
  have hread : gapLength (.blank (lexer.loc.column = 1)) 0 lexer.rest = .ok gap.length := by
    rw [h.loc, hr]
    exact (hg.gapLength 0).trans (by rwa [Nat.zero_add])
  obtain ⟨hplaced, hrest⟩ := h.skip hr (settled_of_head (head?_of_gapLength hs))
  have hhere : lexer.skip gap.length = ⟨rest, .behind (passed ++ gap)⟩ := by
    rw [hplaced.eq, hrest]
  refine ⟨hhere ▸ hplaced, ?_⟩
  unfold Lexer.next
  rw [hread]
  dsimp only
  rw [hhere]
  rfl

theorem Placed.next_of_unterminated (h : Placed text passed lexer) (hr : lexer.rest = gap ++ '/' :: '*' :: rest)
    (hg : Gap passed gap ('/' :: '*' :: rest)) (hs : ¬ ['*', '/'] <:+: rest) :
    ∃ loc, lexer.next.1 = .error (.lexical .unterminatedComment loc) := by
  have hread : gapLength (.blank (lexer.loc.column = 1)) 0 lexer.rest = .error gap.length := by
    rw [h.loc, hr]
    exact (hg.gapLength 0).trans (by rw [Nat.zero_add, gapLength_open, gapLength_unterminated hs])
  unfold Lexer.next
  rw [hread]
  exact ⟨_, rfl⟩

end

/-- The token is spelled by the characters up to `more`. It is a name or a numeral where these are the longest one,
and a keyword where they spell that. -/
structure ReadAs (lexeme more : List Char) (token : Token) : Prop where
  spells : Spells lexeme token
  word : token.isWord = true ↔ Longest (fun name _ => IsName name) (utf8 lexeme) (utf8 more)
  keyword : ∀ known, token = .keyword known ↔ lexeme.map Char.toLower = known.name.toList
  numeral : token.isNumeral = true ↔
    ¬ BeginsEdgeOp (lexeme ++ more) ∧ Longest (fun numeral _ => IsNumeral numeral) lexeme more

section
variable {text passed gap rest : List Char} {lexer : Lexer}

theorem Placed.readAs (h : Placed text passed ⟨rest, .behind passed⟩) {token : Token}
    (ht : (Lexeme.ofText rest).outcome = .ok token) : ∃ lexeme more, rest = lexeme ++ more ∧ ReadAs lexeme more token ∧
      (Lexer.mk rest (.behind passed)).skip (Lexeme.ofText rest).length = ⟨more, .behind (passed ++ lexeme)⟩ := by
  obtain ⟨lexeme, more, hr, hl, hlast, hspells⟩ := Lexeme.takes_ofText rest
  obtain ⟨hs, -⟩ := hspells token ht
  have hread : Lexeme.ofText (lexeme ++ more) = .ok token lexeme.length := by
    rw [← hr, ← hl, Lexeme.ok, ← ht]
  obtain ⟨hplaced, hmore⟩ := h.skip hr (Settled.append (hr ▸ h.settled) hlast)
  refine ⟨lexeme, more, hr, ⟨hs, isWord_iff hread hs, eq_keyword_iff hread hs, isNumeral_iff hread⟩, ?_⟩
  rw [hl, hplaced.eq, hmore]

theorem moved_of_next (h : lexer.next.2 = lexer) : ∀ calls, lexer.moved calls = lexer
  | 0 => rfl
  | calls + 1 => by rw [Lexer.moved, moved_of_next h calls, h]

/-- A lexer that finds a stray character stays in front of it, and finds it again. -/
theorem Placed.stays (h : Placed text passed ⟨rest, .behind passed⟩)
    (hs : gapLength (.behind passed) 0 rest = .ok 0) (hx : (Lexeme.ofText rest).length = 0) (calls : Nat) :
    ((Lexer.mk rest (.behind passed)).moved calls).next =
      ((Lexeme.ofText rest).result (.behind passed), ⟨rest, .behind passed⟩) := by
  have hnext : (Lexer.mk rest (.behind passed)).next =
      ((Lexeme.ofText rest).result (.behind passed), ⟨rest, .behind passed⟩) := by
    obtain ⟨-, hnext⟩ := h.next_of_gap (List.nil_append rest).symm .nil (by rwa [List.append_nil])
    rw [List.append_nil, hx] at hnext
    exact hnext
  have hstays : (Lexer.mk rest (.behind passed)).next.2 = ⟨rest, .behind passed⟩ := by rw [hnext]
  rw [moved_of_next hstays, hnext]

end

section
variable {text passed gap rest : List Char} {lexer : Lexer} (h : Placed text passed lexer)
  (hr : lexer.rest = gap ++ rest) (hg : Gap passed gap rest) (hs : Stops (passed ++ gap) rest)
include h hr hg hs

theorem Placed.next_of_token {token : Token} {loc : Location} (ht : lexer.next.1 = .ok (token, loc)) :
    loc = .behind (passed ++ gap) ∧ ∃ lexeme more, rest = lexeme ++ more ∧ ReadAs lexeme more token ∧
      lexer.next.2 = ⟨more, .behind (passed ++ gap ++ lexeme)⟩ := by
  cases hs with
  | unterminated hopen =>
    obtain ⟨_, hnext⟩ := h.next_of_unterminated hr hg hopen
    rw [hnext] at ht
    cases ht
  | here hstop =>
    obtain ⟨hplaced, hnext⟩ := h.next_of_gap hr hg (hstop _)
    rw [hnext] at ht
    obtain ⟨houtcome, rfl⟩ := Lexeme.result_eq_ok ht
    obtain ⟨lexeme, more, hm, hread, hskip⟩ := hplaced.readAs houtcome
    exact ⟨rfl, lexeme, more, hm, hread, by rw [hnext, hskip]⟩

/-- A lexer fails at what is stray, at a string or markup, or at a comment that does not end. -/
theorem Placed.fault_of_error {error : Error} (hf : lexer.next.1 = .error error) :
    ∃ fault loc, error = .lexical fault loc ∧
      (fault.isStray = true ∨ rest.head? = some '"' ∨ rest.head? = some '<' ∨ ['/', '*'] <+: rest) := by
  cases hs with
  | @unterminated more hopen =>
    obtain ⟨loc, hnext⟩ := h.next_of_unterminated hr hg hopen
    rw [hnext] at hf
    exact ⟨_, loc, (Except.error.inj hf).symm, Or.inr (Or.inr (Or.inr ⟨more, rfl⟩))⟩
  | here hstop =>
    obtain ⟨-, hnext⟩ := h.next_of_gap hr hg (hstop _)
    rw [hnext, Lexeme.result] at hf
    split at hf
    · cases hf
    · rename_i fault hfault
      refine ⟨fault, _, (Except.error.inj hf).symm, ?_⟩
      rcases Lexeme.isStray_of_fault hfault with hstray | hstring | hmarkup
      · exact Or.inl hstray
      · exact Or.inr (Or.inl hstring)
      · exact Or.inr (Or.inr (Or.inl hmarkup))

theorem Placed.stray_iff : (∃ fault loc, lexer.next.1 = .error (.lexical fault loc) ∧ fault.isStray = true) ↔
    rest ≠ [] ∧ ¬ Begins rest ∧ ¬ ['/', '*'] <+: rest := by
  cases hs with
  | @unterminated more hopen =>
    obtain ⟨_, hnext⟩ := h.next_of_unterminated hr hg hopen
    rw [hnext]
    constructor
    · rintro ⟨fault, _, hf, hstray⟩
      cases hf
      cases hstray
    · rintro ⟨-, -, hno⟩
      exact absurd ⟨more, rfl⟩ hno
  | here hstop =>
    obtain ⟨-, hnext⟩ := h.next_of_gap hr hg (hstop _)
    rw [and_iff_left (not_prefix_of_gapLength (hstop 0)), ← Lexeme.isStray_iff]
    simp only [hnext, Lexeme.result_eq_error]
    constructor
    · rintro ⟨fault, _, ⟨hf, -⟩, hstray⟩
      exact ⟨fault, hf, hstray⟩
    · rintro ⟨fault, hf, hstray⟩
      exact ⟨fault, _, ⟨hf, rfl⟩, hstray⟩

theorem Placed.next_of_stray {fault : LexicalFault} {loc : Location}
    (hf : lexer.next.1 = .error (.lexical fault loc)) (hstray : fault.isStray = true) :
    loc = .behind (passed ++ gap) ∧ lexer.next.2 = ⟨rest, .behind (passed ++ gap)⟩ ∧
      ∀ more, (lexer.next.2.moved more).next = lexer.next := by
  obtain ⟨hne, hno, hcomment⟩ := (h.stray_iff hr hg hs).1 ⟨fault, loc, hf, hstray⟩
  cases hs with
  | @unterminated more _ => exact absurd ⟨more, rfl⟩ hcomment
  | here hstop =>
    obtain ⟨hplaced, hnext⟩ := h.next_of_gap hr hg (hstop _)
    rw [Lexeme.length_of_not_begins hne hno] at hnext
    rw [hnext] at hf ⊢
    obtain ⟨-, rfl⟩ := Lexeme.result_eq_error.1 hf
    exact ⟨rfl, rfl, hplaced.stays (hstop 0) (Lexeme.length_of_not_begins hne hno)⟩

end

/-- Whatever calls were made before, the lexer passes the longest gap and reads a token behind it: the longest name, the
longest numeral or another. It fails at strings, markup and comments only, and at what begins like no token, which it
never passes. -/
theorem calls_follow_grammar (text : String) (calls : Nat) :
    let lexer := (Lexer.ofString text).moved calls
    ∃ passed gap rest, text.toList = passed ++ (gap ++ rest) ∧ lexer = ⟨gap ++ rest, .behind passed⟩ ∧
      Longest (Gap passed) gap rest ∧
      (∀ token loc, lexer.next.1 = .ok (token, loc) → loc = .behind (passed ++ gap) ∧
        ∃ lexeme more, rest = lexeme ++ more ∧ ReadAs lexeme more token ∧
          lexer.next.2 = ⟨more, .behind (passed ++ gap ++ lexeme)⟩) ∧
      (∀ error, lexer.next.1 = .error error → ∃ fault loc, error = .lexical fault loc ∧
        (fault.isStray = true ∨ rest.head? = some '"' ∨ rest.head? = some '<' ∨ ['/', '*'] <+: rest)) ∧
      ((∃ fault loc, lexer.next.1 = .error (.lexical fault loc) ∧ fault.isStray = true) ↔
        rest ≠ [] ∧ ¬ Begins rest ∧ ¬ ['/', '*'] <+: rest) ∧
      ∀ fault loc, lexer.next.1 = .error (.lexical fault loc) → fault.isStray = true →
        loc = .behind (passed ++ gap) ∧ lexer.next.2 = ⟨rest, .behind (passed ++ gap)⟩ ∧
          ∀ more, (lexer.next.2.moved more).next = lexer.next := by
  intro lexer
  obtain ⟨passed, h⟩ : ∃ passed, Placed text.toList passed lexer := placed_moved text calls
  obtain ⟨gap, rest, hr, hg, hs⟩ := exists_gap passed lexer.rest
  exact ⟨passed, gap, rest, hr ▸ h.text, hr ▸ h.eq, hg.longest hs, fun _ _ => h.next_of_token hr hg hs,
    fun _ => h.fault_of_error hr hg hs, h.stray_iff hr hg hs, fun _ _ => h.next_of_stray hr hg hs⟩

/-- A name, a numeral and a stray character behind gaps. -/
def scannedText : String := "# a\n nodé /* b */ -.5 ?"

theorem calls_follow_scannedText :
    (∃ passed gap lexeme more, (Lexer.ofString scannedText).moved 0 = ⟨gap ++ (lexeme ++ more), .behind passed⟩ ∧
      ((Lexer.ofString scannedText).moved 0).next =
        (.ok (.identifier "nodé", .behind (passed ++ gap)), ⟨more, .behind (passed ++ gap ++ lexeme)⟩) ∧
      Longest (Gap passed) gap (lexeme ++ more) ∧ Longest (fun name _ => IsName name) (utf8 lexeme) (utf8 more)) ∧
    ∃ passed gap rest, (Lexer.ofString scannedText).moved 2 = ⟨gap ++ rest, .behind passed⟩ ∧
      Longest (Gap passed) gap rest ∧ ¬ Begins rest ∧
      ∀ more, (((Lexer.ofString scannedText).moved 2).next.2.moved more).next =
        (.error (.lexical (.strayByte '?') (.behind (passed ++ gap))), ⟨rest, .behind (passed ++ gap)⟩) := by
  constructor
  · obtain ⟨passed, gap, rest, -, hlexer, hgap, htoken, -⟩ := calls_follow_grammar scannedText 0
    have hnext : ((Lexer.ofString scannedText).moved 0).next.1 = .ok (.identifier "nodé", ⟨5, 2, 2⟩) := by decide
    obtain ⟨hloc, lexeme, more, rfl, hread, hbehind⟩ := htoken _ _ hnext
    refine ⟨passed, gap, lexeme, more, hlexer, ?_, hgap, hread.word.1 rfl⟩
    rw [← hbehind, ← hloc, ← hnext]
  · obtain ⟨passed, gap, rest, -, hlexer, hgap, -, -, hstray, hstays⟩ := calls_follow_grammar scannedText 2
    have hnext : ((Lexer.ofString scannedText).moved 2).next.1 = .error (.lexical (.strayByte '?') ⟨23, 2, 20⟩) := by
      decide
    obtain ⟨hloc, hbehind, hmore⟩ := hstays _ _ hnext rfl
    refine ⟨passed, gap, rest, hlexer, hgap, (hstray.1 ⟨_, _, hnext, rfl⟩).2.1, fun more => ?_⟩
    rw [hmore more, ← hbehind, ← hloc, ← hnext]

/-- A comment that does not end is no gap and begins like no token, but is no stray character either. -/
theorem unterminated_comment_not_stray :
    Longest (Gap []) [] "/* a".toList ∧ "/* a".toList ≠ [] ∧ ¬ Begins "/* a".toList ∧
      (Lexer.ofString "/* a").next.1 = .error (.lexical .unterminatedComment {}) ∧
      ¬ ∃ fault loc, (Lexer.ofString "/* a").next.1 = .error (.lexical fault loc) ∧ fault.isStray = true := by
  have hnext : (Lexer.ofString "/* a").next.1 = .error (.lexical .unterminatedComment {}) := by decide
  have hstops : Stops [] ('/' :: '*' :: [' ', 'a']) := .unterminated (by decide)
  refine ⟨Gap.nil.longest hstops, by decide, ?_, hnext, ?_⟩
  · show ¬ Begins ('/' :: ['*', ' ', 'a'])
    rw [begins_iff, BeginsEdgeOp]
    decide
  · rw [hnext]
    rintro ⟨fault, loc, hf, hs⟩
    cases hf
    cases hs

end DotLang
