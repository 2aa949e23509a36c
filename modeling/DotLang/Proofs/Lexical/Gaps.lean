import DotLang.Proofs.Positions

/-!
# Gaps between tokens

Blanks, line breaks and comments may stand between tokens. What a comment is depends on the text around it: `#`
begins one at the start of a line only, and a line comment goes up to the end of its line. The reader of gaps
passes the longest gap there is, and where it stops, either nothing of a gap follows or a block comment begins
that does not end.
-/

namespace DotLang

/-- The front of a text is as `P` says, given what follows it, and no longer front is. -/
structure Longest {α : Type} (P : List α → List α → Prop) (front rest : List α) : Prop where
  holds : P front rest
  le : ∀ front' rest', front' ++ rest' = front ++ rest → P front' rest' → front'.length ≤ front.length

/-! ## Comments and gaps -/

/-- A line ends in front of the text. -/
def AtLineEnd (rest : List Char) : Prop := ∀ c ∈ rest.head?, isBreak c = true

/-- A comment, in front of `rest` and behind `passed`. -/
inductive Comment (passed : List Char) : List Char → List Char → Prop
  | hash {line rest : List Char} (hc : (Location.behind passed).column = 1) (hl : ∀ c ∈ line, isBreak c = false)
    (hr : AtLineEnd rest) : Comment passed ('#' :: line) rest
  | line {line rest : List Char} (hl : ∀ c ∈ line, isBreak c = false) (hr : AtLineEnd rest) :
    Comment passed ('/' :: '/' :: line) rest
  /-- The comment ends where it first can. -/
  | block {body rest : List Char} (hb : ¬ ['*', '/'] <:+: body ++ ['*']) :
    Comment passed ('/' :: '*' :: (body ++ ['*', '/'])) rest

def isBlank (c : Char) : Bool := c = ' ' || c = '\t' || isBreak c

/-- Blanks, line breaks and comments, in front of `rest` and behind `passed`. -/
inductive Gap : (passed gap rest : List Char) → Prop
  | nil {passed rest : List Char} : Gap passed [] rest
  | blank {passed gap rest : List Char} {c : Char} (hc : isBlank c = true) (h : Gap (passed ++ [c]) gap rest) :
    Gap passed (c :: gap) rest
  | comment {passed comment gap rest : List Char} (hc : Comment passed comment (gap ++ rest))
    (h : Gap (passed ++ comment) gap rest) : Gap passed (comment ++ gap) rest

/-- The reader of gaps behind a text. -/
def GapMode.behind (passed : List Char) : GapMode := .blank ((Location.behind passed).column = 1)

/-- What a gap does not go on with: a block comment that does not end, or what is no part of a gap. -/
inductive Stops (passed : List Char) : List Char → Prop
  | here {rest : List Char} (h : ∀ n, gapLength (.behind passed) n rest = .ok n) : Stops passed rest
  | unterminated {more : List Char} (h : ¬ ['*', '/'] <:+: more) : Stops passed ('/' :: '*' :: more)

/-! ## What the reader does in a comment -/

theorem column_behind_concat (passed : List Char) (c : Char) :
    (Location.behind (passed ++ [c])).column = 1 ↔ isBreak c = true := by
  show 1 + byteLength (lastLine (passed ++ [c])) = 1 ↔ _
  have hc : 0 < c.utf8Size := c.utf8Size_pos
  rw [lastLine_concat]
  cases isBreak c with
  | true => simp
  | false =>
    simp only [Bool.false_eq_true, if_false, byteLength_append, byteLength_cons, byteLength_nil, iff_false]
    omega

theorem GapMode.behind_concat (passed : List Char) (c : Char) : behind (passed ++ [c]) = .blank (isBreak c) := by
  have h : decide ((Location.behind (passed ++ [c])).column = 1) = isBreak c := by
    rw [Bool.eq_iff_iff, decide_eq_true_iff, column_behind_concat]
  rw [behind, h]

theorem gapLength_blank {c : Char} (hc : isBlank c = true) (passed text : List Char) (n : Nat) :
    gapLength (.behind passed) n (c :: text) = gapLength (.behind (passed ++ [c])) (n + 1) text := by
  rw [GapMode.behind_concat, GapMode.behind]
  generalize decide ((Location.behind passed).column = 1) = lineStart
  simp only [isBlank, isBreak_iff, Bool.or_eq_true, decide_eq_true_eq] at hc
  obtain (rfl | rfl) | rfl | rfl := hc <;> cases lineStart <;> rfl

theorem gapLength_line {line : List Char} (hl : ∀ c ∈ line, isBreak c = false) (n : Nat) (rest : List Char) :
    gapLength .lineComment n (line ++ rest) = gapLength .lineComment (n + line.length) rest := by
  induction line generalizing n with
  | nil => rfl
  | cons c line ih =>
    rw [List.forall_mem_cons] at hl
    obtain ⟨hfeed, hreturn⟩ := isBreak_eq_false_iff.1 hl.1
    rw [List.cons_append, gapLength_lineComment_cons hfeed hreturn, ih hl.2, List.length_cons, Nat.add_assoc,
      Nat.add_comm 1]

/-- At the end of the line it makes no difference that there was a comment. -/
theorem gapLength_atLineEnd {rest : List Char} (hr : AtLineEnd rest) (n : Nat) (lineStart : Bool) :
    gapLength .lineComment n rest = gapLength (.blank lineStart) n rest := by
  cases rest with
  | nil => cases lineStart <;> rfl
  | cons c rest =>
    have hc := hr c rfl
    rw [isBreak_iff] at hc
    obtain rfl | rfl := hc <;> cases lineStart <;> rfl

/-- No comment ends between a character and a text behind it, unless the text begins with a slash. -/
theorem infix_cons_of_ne {c : Char} {text : List Char} (hc : ¬ (c = '*' ∧ text.head? = some '/')) :
    ['*', '/'] <:+: c :: text ↔ ['*', '/'] <:+: text := by
  rw [List.infix_cons_iff, or_iff_right]
  rintro ⟨more, he⟩
  obtain ⟨rfl, rfl⟩ := List.cons.inj he
  exact hc ⟨rfl, rfl⟩

theorem not_infix_cons {c : Char} {text : List Char} (h : ¬ ['*', '/'] <:+: c :: text) :
    ¬ (c = '*' ∧ text.head? = some '/') ∧ ¬ ['*', '/'] <:+: text := by
  refine ⟨?_, fun hi => h (List.infix_cons_iff.2 (Or.inr hi))⟩
  rintro ⟨rfl, hhead⟩
  obtain ⟨more, rfl⟩ := List.head?_eq_some_iff.1 hhead
  exact h ⟨[], more, rfl⟩

theorem gapLength_block {body : List Char} (hb : ¬ ['*', '/'] <:+: body ++ ['*']) (start n : Nat) (rest : List Char) :
    gapLength (.blockComment start) n (body ++ '*' :: '/' :: rest) =
      gapLength (.blank false) (n + body.length + 2) rest := by
  induction body generalizing n with
  | nil => rfl
  | cons c body ih =>
    obtain ⟨hc, hb⟩ := not_infix_cons hb
    have hhead : (body ++ '*' :: '/' :: rest).head? = (body ++ ['*']).head? := by
      cases body <;> rfl
    rw [List.cons_append, gapLength_blockComment_cons (by rwa [hhead]), ih hb, List.length_cons]
    congr 1
    omega

theorem gapLength_unterminated {text : List Char} (h : ¬ ['*', '/'] <:+: text) (start n : Nat) :
    gapLength (.blockComment start) n text = .error start := by
  induction text generalizing n with
  | nil => rfl
  | cons c text ih =>
    obtain ⟨hc, h⟩ := not_infix_cons h
    rw [gapLength_blockComment_cons hc, ih h]

theorem gapLength_open (passed rest : List Char) (n : Nat) :
    gapLength (.behind passed) n ('/' :: '*' :: rest) = gapLength (.blockComment n) (n + 2) rest := by
  rw [GapMode.behind]
  cases decide ((Location.behind passed).column = 1) <;> rfl

theorem Comment.gapLength {passed comment rest : List Char} (h : Comment passed comment rest) (n : Nat) :
    gapLength (.behind passed) n (comment ++ rest) =
      DotLang.gapLength (.behind (passed ++ comment)) (n + comment.length) rest := by
  cases h with
  | @hash line _ hc hl hr =>
    rw [GapMode.behind, decide_eq_true hc]
    show DotLang.gapLength .lineComment (n + 1) (line ++ rest) = _
    rw [gapLength_line hl, List.length_cons, Nat.add_assoc, Nat.add_comm 1]
    exact gapLength_atLineEnd hr ..
  | @line line _ hl hr =>
    have hopen : DotLang.gapLength (.behind passed) n ('/' :: '/' :: line ++ rest) =
        DotLang.gapLength .lineComment (n + 2) (line ++ rest) := by
      rw [GapMode.behind]
      cases decide ((Location.behind passed).column = 1) <;> rfl
    rw [hopen, gapLength_line hl, List.length_cons, List.length_cons, Nat.add_assoc, Nat.add_comm 2]
    exact gapLength_atLineEnd hr ..
  | @block body _ hb =>
    have hend : passed ++ '/' :: '*' :: (body ++ ['*', '/']) = (passed ++ '/' :: '*' :: (body ++ ['*'])) ++ ['/'] := by
      simp
    rw [List.cons_append, List.cons_append, List.append_assoc, gapLength_open]
    show DotLang.gapLength (.blockComment n) (n + 2) (body ++ '*' :: '/' :: rest) = _
    rw [gapLength_block hb, hend, GapMode.behind_concat]
    simp only [List.length_cons, List.length_append, List.length_nil]
    congr 1
    omega

/-- The reader passes any gap, and is behind it as it would be there. -/
theorem Gap.gapLength {passed gap rest : List Char} (h : Gap passed gap rest) (n : Nat) :
    gapLength (.behind passed) n (gap ++ rest) =
      DotLang.gapLength (.behind (passed ++ gap)) (n + gap.length) rest := by
  induction h generalizing n with
  | nil => rw [List.append_nil]; rfl
  | @blank passed gap rest c hc _ ih =>
    rw [List.cons_append, gapLength_blank hc, ih, List.append_assoc, List.length_cons, Nat.add_assoc, Nat.add_comm 1]
    rfl
  | @comment passed comment gap rest hc _ ih =>
    rw [List.append_assoc, hc.gapLength, ih, List.append_assoc, List.length_append, Nat.add_assoc]

/-! ## Where a gap ends -/

theorem exists_close (text : List Char) :
    (∃ body rest, text = body ++ '*' :: '/' :: rest ∧ ¬ ['*', '/'] <:+: body ++ ['*']) ∨ ¬ ['*', '/'] <:+: text := by
  induction text with
  | nil => exact Or.inr (by simp)
  | cons c text ih =>
    by_cases hc : c = '*' ∧ text.head? = some '/'
    · obtain ⟨rfl, hhead⟩ := hc
      obtain ⟨rest, rfl⟩ := List.head?_eq_some_iff.1 hhead
      exact Or.inl ⟨[], rest, rfl, by decide⟩
    rcases ih with ⟨body, rest, rfl, hb⟩ | hn
    · refine Or.inl ⟨c :: body, rest, rfl, ?_⟩
      rwa [List.cons_append, infix_cons_of_ne]
      cases body <;> exact hc
    · exact Or.inr (by rwa [infix_cons_of_ne hc])

theorem exists_line (text : List Char) :
    ∃ line rest, text = line ++ rest ∧ (∀ c ∈ line, isBreak c = false) ∧ AtLineEnd rest := by
  refine ⟨text.takeWhile (!isBreak ·), text.dropWhile (!isBreak ·), List.takeWhile_append_dropWhile.symm, ?_, ?_⟩
  · intro c hc
    simpa using List.all_eq_true.1 List.all_takeWhile c hc
  · intro c hc
    have := List.head?_dropWhile_not (!isBreak ·) text
    rw [Option.mem_def.1 hc] at this
    simpa using this

theorem stops_of_ne {c : Char} {passed rest : List Char} (hb : isBlank c = false)
    (hh : c = '#' → (Location.behind passed).column ≠ 1)
    (hs : c = '/' → rest.head? ≠ some '/' ∧ rest.head? ≠ some '*') : Stops passed (c :: rest) := by
  simp only [isBlank, isBreak_eq_false_iff, Bool.or_eq_false_iff, decide_eq_false_iff_not] at hb
  obtain ⟨⟨hspace, htab⟩, hfeed, hreturn⟩ := hb
  exact .here (gapLength_stop ⟨hspace, htab, hfeed, hreturn⟩ (fun h => decide_eq_false (hh h)) hs)

theorem comment_or_stops (c : Char) (passed text : List Char) (hb : isBlank c = false) :
    (∃ comment rest, comment ≠ [] ∧ c :: text = comment ++ rest ∧ Comment passed comment rest) ∨ Stops passed (c :: text) := by
  by_cases hhash : c = '#' ∧ (Location.behind passed).column = 1
  · obtain ⟨rfl, hc⟩ := hhash
    obtain ⟨line, rest, rfl, hl, hr⟩ := exists_line text
    exact Or.inl ⟨_, rest, by simp, rfl, .hash hc hl hr⟩
  by_cases hline : c = '/' ∧ text.head? = some '/'
  · obtain ⟨rfl, hhead⟩ := hline
    obtain ⟨text, rfl⟩ := List.head?_eq_some_iff.1 hhead
    obtain ⟨line, rest, rfl, hl, hr⟩ := exists_line text
    exact Or.inl ⟨_, rest, by simp, rfl, .line hl hr⟩
  by_cases hblock : c = '/' ∧ text.head? = some '*'
  · obtain ⟨rfl, hhead⟩ := hblock
    obtain ⟨text, rfl⟩ := List.head?_eq_some_iff.1 hhead
    rcases exists_close text with ⟨body, rest, rfl, hb⟩ | hn
    · exact Or.inl ⟨_, rest, by simp, by simp, .block hb⟩
    · exact Or.inr (.unterminated hn)
  · exact Or.inr (stops_of_ne hb (fun h hc => hhash ⟨h, hc⟩) fun h => ⟨fun hh => hline ⟨h, hh⟩, fun hh => hblock ⟨h, hh⟩⟩)

theorem exists_gap (passed text : List Char) :
    ∃ gap rest, text = gap ++ rest ∧ Gap passed gap rest ∧ Stops (passed ++ gap) rest := by
  -- A comment is taken away as a whole, so the induction is on the length of what is left.
  induction hn : text.length using Nat.strongRecOn generalizing passed text with
  | _ n ih =>
    subst hn
    cases text with
    | nil =>
      refine ⟨[], [], rfl, .nil, .here fun n => ?_⟩
      rw [GapMode.behind]
      cases decide ((Location.behind (passed ++ [])).column = 1) <;> rfl
    | cons c text =>
      cases hb : isBlank c with
      | true =>
        obtain ⟨gap, rest, rfl, hg, hs⟩ := ih text.length (Nat.lt_succ_self _) (passed ++ [c]) text rfl
        exact ⟨c :: gap, rest, rfl, .blank hb hg, by simpa using hs⟩
      | false =>
        rcases comment_or_stops c passed text hb with ⟨comment, more, hne, he, hc⟩ | hs
        · have hlength : more.length < (c :: text).length := by
            rw [he, List.length_append]
            exact Nat.lt_add_of_pos_left (List.length_pos_iff.2 hne)
          obtain ⟨gap, rest, rfl, hg, hs⟩ := ih more.length hlength (passed ++ comment) more rfl
          exact ⟨comment ++ gap, rest, by rw [he, List.append_assoc], .comment hc hg, by rwa [← List.append_assoc]⟩
        · exact ⟨[], _, rfl, .nil, by rwa [List.append_nil]⟩

section
variable {passed gap rest : List Char}

theorem Stops.gapLength (h : Stops passed rest) (n : Nat) :
    gapLength (.behind passed) n rest = .ok n ∨ gapLength (.behind passed) n rest = .error n := by
  cases h with
  | here h => exact Or.inl (h n)
  | unterminated h =>
    right
    rw [gapLength_open, gapLength_unterminated h]

theorem head?_of_gapLength {mode : GapMode} {n : Nat} (h : DotLang.gapLength mode n rest = .ok n) :
    rest.head? ≠ some '\n' := by
  obtain ⟨more, tail, he, hm, hhead⟩ := gapLength_ok h
  obtain rfl : more = [] := by
    rw [← List.length_eq_zero_iff]
    omega
  rwa [he]

/-- The reader takes the first characters of a block comment. -/
theorem not_prefix_of_gapLength (h : gapLength (.behind passed) 0 rest = .ok 0) : ¬ ['/', '*'] <+: rest := by
  rintro ⟨more, rfl⟩
  rw [List.cons_append, List.cons_append, List.nil_append, gapLength_open] at h
  obtain ⟨_, _, -, hm, -⟩ := gapLength_ok h
  omega

/-- A gap that stops is the longest, since the reader passes any other on its way. -/
theorem Gap.longest (h : Gap passed gap rest) (hs : Stops (passed ++ gap) rest) : Longest (Gap passed) gap rest where
  holds := h
  le gap' rest' he h' := by
    have hread := h.gapLength 0
    rw [← he, h'.gapLength 0] at hread
    rcases hs.gapLength (0 + gap.length) with hok | herror
    · rw [hok] at hread
      obtain ⟨more, -, -, hm, -⟩ := gapLength_ok hread
      omega
    · rw [herror] at hread
      obtain ⟨more, -, -, hm, -⟩ := (gapLength_error hread).resolve_left nofun
      omega

end

end DotLang
