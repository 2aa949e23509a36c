import DotLang.Proofs.Reporting
import DotLang.Text.Diagnostic
import Mathlib.Data.List.TakeWhile

/-!
# The line that a caret is under

Positions count a carriage return that stands alone as the end of a line, and diagnostics do not split there. Up to
the line of a position the two agree exactly if no such carriage return ends one of these lines; the caret is then
under the line that the position is in. Otherwise that line is not set apart.
-/

namespace DotLang

/-! ## Lines as positions count them -/

def ontoFirst (c : Char) : List (List Char) → List (List Char)
  | [] => [[c]]
  | line :: lines => (c :: line) :: lines

/-- The lines of a text, without their ends. A line break at the very end begins no further line. -/
def countedLines : List Char → List (List Char)
  | [] => []
  | '\r' :: '\n' :: rest => [] :: countedLines rest
  | '\r' :: rest => [] :: countedLines rest
  | '\n' :: rest => [] :: countedLines rest
  | c :: rest => ontoFirst c (countedLines rest)

theorem countedLines_feed (rest : List Char) : countedLines ('\n' :: rest) = [] :: countedLines rest := rfl

theorem countedLines_pair (rest : List Char) : countedLines ('\r' :: '\n' :: rest) = [] :: countedLines rest := rfl

theorem countedLines_return {rest : List Char} (h : rest.head? ≠ some '\n') :
    countedLines ('\r' :: rest) = [] :: countedLines rest := by
  rw [countedLines]
  rintro more rfl
  exact h rfl

theorem countedLines_cons {c : Char} (h : isBreak c = false) (rest : List Char) :
    countedLines (c :: rest) = ontoFirst c (countedLines rest) := by
  obtain ⟨hn, hr⟩ := isBreak_eq_false_iff.1 h
  rw [countedLines]
  exacts [fun _ hc => absurd hc hr, hr, hn]

/-- Of some lines those up to that of a position, and below them a caret in its column. -/
def withCaret (lines : List (List Char)) (loc : Location) : String :=
  String.ofList ((lines.take loc.line ++ [List.replicate (loc.column - 1) ' ' ++ ['^']]).flatMap (· ++ ['\n']))

/-- Behind `passed` the text has a carriage return that no line feed follows. -/
def LoneReturn (text passed : List Char) : Prop :=
  ∃ rest, text = passed ++ '\r' :: rest ∧ rest.head? ≠ some '\n'

section
variable {text passed : List Char}

theorem LoneReturn.cons (h : LoneReturn text passed) (c : Char) : LoneReturn (c :: text) (c :: passed) := by
  obtain ⟨rest, rfl, hr⟩ := h
  exact ⟨rest, rfl, hr⟩

theorem LoneReturn.of_cons {c d : Char} (h : LoneReturn (c :: text) (d :: passed)) :
    c = d ∧ LoneReturn text passed := by
  obtain ⟨rest, he, hr⟩ := h
  obtain ⟨rfl, rfl⟩ := List.cons.inj he
  exact ⟨rfl, rest, rfl, hr⟩

theorem loneReturn_nil {c : Char} : LoneReturn (c :: text) [] ↔ c = '\r' ∧ text.head? ≠ some '\n' := by
  constructor
  · rintro ⟨rest, he, hr⟩
    obtain ⟨rfl, rfl⟩ := List.cons.inj he
    exact ⟨rfl, hr⟩
  · rintro ⟨rfl, hr⟩
    exact ⟨text, rfl, hr⟩

theorem sourceLines_cons {c : Char} (hn : c ≠ '\n') (hr : c = '\r' → text.head? ≠ some '\n') :
    sourceLines (c :: text) = ontoFirst c (sourceLines text) := by
  have hcrlf : ∀ rest, c = '\r' → text ≠ '\n' :: rest := by
    rintro rest hc rfl
    exact hr hc rfl
  cases h : sourceLines text with
  | nil => rw [sourceLines, h, ontoFirst]; exacts [hn, hcrlf]
  | cons line lines => rw [sourceLines, h, ontoFirst]; exacts [hn, hcrlf]

theorem take_ontoFirst {c : Char} {k : Nat} {a b : List (List Char)} (h : a.take k = b.take k) :
    (ontoFirst c a).take k = (ontoFirst c b).take k := by
  cases k with
  | zero => rfl
  | succ k => cases a <;> cases b <;> simp_all [ontoFirst]

theorem mem_take_ontoFirst {c d : Char} {k : Nat} {lines : List (List Char)} (h : ∃ line ∈ lines.take k, d ∈ line) :
    ∃ line ∈ (ontoFirst c lines).take k, d ∈ line := by
  obtain ⟨line, hl, hd⟩ := h
  cases k with
  | zero => cases hl
  | succ k =>
    cases lines with
    | nil => cases hl
    | cons first lines =>
      rw [List.take_succ_cons, List.mem_cons] at hl
      rw [ontoFirst, List.take_succ_cons]
      rcases hl with rfl | hl
      · exact ⟨c :: line, List.mem_cons_self, List.mem_cons_of_mem _ hd⟩
      · exact ⟨line, List.mem_cons_of_mem _ hl, hd⟩

/-! ## Where the two agree -/

theorem take_sourceLines {k : Nat} (h : ∀ passed, LoneReturn text passed → k ≤ lineBreaks passed) :
    (sourceLines text).take k = (countedLines text).take k := by
  -- With every line break one line less is asked for, and one line break less is in front of what follows.
  fun_induction countedLines text generalizing k with
  | case1 => rfl
  | case2 rest ih =>
    rw [sourceLines_pair]
    cases k with
    | zero => rfl
    | succ k =>
      rw [List.take_succ_cons, List.take_succ_cons, ih fun a ha => ?_]
      exact Nat.le_of_succ_le_succ (h _ ((ha.cons '\n').cons '\r'))
  | case3 rest hn ih =>
    have hzero := h [] (loneReturn_nil.2 ⟨rfl, fun hh => ?_⟩)
    · obtain rfl : k = 0 := Nat.le_zero.1 hzero
      rfl
    · obtain ⟨more, rfl⟩ := List.head?_eq_some_iff.1 hh
      exact hn more rfl
  | case4 rest ih =>
    rw [sourceLines_feed]
    cases k with
    | zero => rfl
    | succ k =>
      rw [List.take_succ_cons, List.take_succ_cons, ih fun a ha => ?_]
      have hk := h _ (ha.cons '\n')
      rw [lineBreaks] at hk
      exact Nat.le_of_succ_le_succ hk
  | case5 c rest hcrlf hcr hlf ih =>
    rw [sourceLines_cons hlf fun hc => absurd hc hcr]
    refine take_ontoFirst (ih fun a ha => ?_)
    have hk := h _ (ha.cons c)
    rwa [lineBreaks] at hk
    exacts [fun more hc => absurd hc hcr, hcr, hlf]

theorem LoneReturn.exists_cons {c : Char} (h : LoneReturn (c :: text) passed)
    (hc : c = '\r' → text.head? = some '\n') : ∃ a, passed = c :: a ∧ LoneReturn text a := by
  cases passed with
  | nil =>
    obtain ⟨hr, hhead⟩ := loneReturn_nil.1 h
    exact absurd (hc hr) hhead
  | cons d a =>
    obtain ⟨rfl, ha⟩ := h.of_cons
    exact ⟨a, rfl, ha⟩

theorem mem_take_sourceLines {k : Nat} (h : LoneReturn text passed) (hk : lineBreaks passed < k) :
    ∃ line ∈ (sourceLines text).take k, '\r' ∈ line := by
  have below {rest : List Char} {k : Nat} (hr : ∃ line ∈ (sourceLines rest).take k, '\r' ∈ line) :
      ∃ line ∈ ([] :: sourceLines rest).take (k + 1), '\r' ∈ line := by
    obtain ⟨line, hl, hm⟩ := hr
    exact ⟨line, List.mem_cons_of_mem _ hl, hm⟩
  fun_induction countedLines text generalizing passed k with
  | case1 =>
    obtain ⟨rest, he, -⟩ := h
    cases passed <;> cases he
  | case2 rest ih =>
    obtain ⟨a, rfl, ha⟩ := h.exists_cons fun _ => rfl
    obtain ⟨b, rfl, hb⟩ := ha.exists_cons nofun
    rw [lineBreaks] at hk
    obtain ⟨k, rfl⟩ := Nat.exists_eq_add_of_lt hk
    rw [sourceLines_pair]
    exact below (ih hb (by omega))
  | case3 rest hn ih =>
    -- This one is in the first line that is shown, wherever the one in question is.
    have hhead : rest.head? ≠ some '\n' := by
      intro hh
      obtain ⟨more, rfl⟩ := List.head?_eq_some_iff.1 hh
      exact hn more rfl
    obtain ⟨k, rfl⟩ := Nat.exists_eq_add_of_lt (Nat.zero_lt_of_lt hk)
    rw [sourceLines_cons (by decide) fun _ => hhead]
    cases sourceLines rest <;> simp [ontoFirst]
  | case4 rest ih =>
    obtain ⟨a, rfl, ha⟩ := h.exists_cons nofun
    rw [lineBreaks] at hk
    obtain ⟨k, rfl⟩ := Nat.exists_eq_add_of_lt hk
    rw [sourceLines_feed]
    exact below (ih ha (by omega))
  | case5 c rest hcrlf hcr hlf ih =>
    obtain ⟨a, rfl, ha⟩ := h.exists_cons fun hc => absurd hc hcr
    rw [sourceLines_cons hlf fun hc => absurd hc hcr]
    refine mem_take_ontoFirst (ih ha ?_)
    rwa [lineBreaks] at hk
    exacts [fun more hc => absurd hc hcr, hcr, hlf]

theorem forall_mem_ontoFirst {P : Char → Prop} {c : Char} {lines : List (List Char)} (hc : P c)
    (h : ∀ line ∈ lines, ∀ d ∈ line, P d) : ∀ line ∈ ontoFirst c lines, ∀ d ∈ line, P d := by
  cases lines with
  | nil => simpa [ontoFirst] using hc
  | cons line lines =>
    rw [List.forall_mem_cons] at h
    simpa [ontoFirst, hc] using h

theorem isBreak_countedLines (text : List Char) : ∀ line ∈ countedLines text, ∀ c ∈ line, isBreak c = false := by
  fun_induction countedLines text with
  | case1 => simp
  | case2 rest ih | case3 rest _ ih | case4 rest ih => simpa using ih
  | case5 c rest hcrlf hcr hlf ih => exact forall_mem_ontoFirst (isBreak_eq_false_iff.2 ⟨hlf, hcr⟩) ih

/-! ## The line that a position is in -/

theorem lineBreaks_eq_zero : lineBreaks text = 0 ↔ ∀ c ∈ text, isBreak c = false := by
  fun_induction lineBreaks text with
  | case1 => simp
  | case2 rest ih | case3 rest _ ih | case4 rest ih => simp [isBreak]
  | case5 c rest _ hcr hlf ih =>
    rw [ih, List.forall_mem_cons, isBreak_eq_false_iff]
    exact (and_iff_right ⟨hlf, hcr⟩).symm

theorem takeWhile_reverse : (text.reverse.takeWhile fun c => !isBreak c).length = text.reverse.length ↔
    lineBreaks text = 0 := by
  rw [lineBreaks_eq_zero]
  constructor
  · intro h c hc
    have hself := (List.takeWhile_prefix _).eq_of_length h
    simpa using List.takeWhile_eq_self_iff.1 hself c (List.mem_reverse.2 hc)
  · intro h
    rw [List.takeWhile_eq_self_iff.2]
    simpa using h

theorem lastLine_break {c : Char} (hc : isBreak c = true) : lastLine (c :: text) = lastLine text := by
  unfold lastLine
  rw [List.reverse_cons, List.takeWhile_append, List.takeWhile_cons_of_neg (by simp [hc]), List.append_nil]
  split
  · rename_i h
    rw [(List.takeWhile_prefix _).eq_of_length h]
  · rfl

theorem lastLine_cons {c : Char} (hc : isBreak c = false) :
    lastLine (c :: text) = if lineBreaks text = 0 then c :: lastLine text else lastLine text := by
  unfold lastLine
  rw [List.reverse_cons, List.takeWhile_append, List.takeWhile_cons_of_pos (by simp [hc]), List.takeWhile_nil]
  simp only [takeWhile_reverse]
  split
  · rename_i h
    rw [(List.takeWhile_prefix _).eq_of_length (takeWhile_reverse.2 h)]
    simp
  · rfl

/-- What is in front of a position on its line begins one of the counted lines, or is nothing behind the last. -/
theorem lastLine_prefix (passed rest : List Char) : lineBreaks passed ≤ (countedLines (passed ++ rest)).length ∧
    lastLine passed <+: (countedLines (passed ++ rest)).getD (lineBreaks passed) [] := by
  fun_induction lineBreaks passed with
  | case1 => exact ⟨Nat.zero_le _, List.nil_prefix⟩
  | case2 more ih =>
    rw [lastLine_break rfl, lastLine_break rfl, List.cons_append, List.cons_append, countedLines_pair]
    simpa using ih
  | case3 more hn ih =>
    rw [lastLine_break rfl]
    by_cases hcut : (more ++ rest).head? = some '\n'
    · -- The line break is cut in two.
      obtain ⟨behind, hb⟩ := List.head?_eq_some_iff.1 hcut
      cases more with
      | nil =>
        rw [List.singleton_append, show rest = '\n' :: behind from hb, countedLines_pair]
        exact ⟨by simp [lineBreaks], List.nil_prefix⟩
      | cons c more => exact absurd (by rw [(List.cons.inj hb).1]) (hn more)
    · rw [List.cons_append, countedLines_return hcut]
      simpa using ih
  | case4 more ih =>
    rw [lastLine_break rfl, List.cons_append, countedLines_feed]
    simpa using ih
  | case5 c more hcrlf hcr hlf ih =>
    have hc := isBreak_eq_false_iff.2 ⟨hlf, hcr⟩
    rw [List.cons_append, countedLines_cons hc, lastLine_cons hc]
    generalize countedLines (more ++ rest) = lines at ih
    generalize lastLine more = front at ih ⊢
    cases hb : lineBreaks more with
    | zero =>
      rw [hb] at ih
      cases lines <;> simpa [ontoFirst] using ih.2
    | succ n =>
      rw [hb] at ih
      cases lines with
      | nil => simp at ih
      | cons line lines => simpa [ontoFirst] using ih

end

/-! ## Positions that are given out -/

/-- The lexers that calls lead to, on their own or in a parser. -/
def Lexer.Reached (text : String) (lexer : Lexer) : Prop :=
  (∃ calls, lexer = (Lexer.ofString text).moved calls) ∨ ∃ parser, Parser.Reached text parser ∧ lexer = parser.lexer

/-- The positions of tokens and of failures. -/
inductive Location.Reported (text : String) (loc : Location) : Prop
  | token {lexer : Lexer} {token : Token} (hr : lexer.Reached text) (h : lexer.next.1 = .ok (token, loc))
  | lexing {lexer : Lexer} {error : Error} (hr : lexer.Reached text) (h : lexer.next.1 = .error error)
    (hl : error.location? = some loc)
  | parsing {parser after : Parser} {error : Error} (hr : parser.Reached text)
    (h : parser.process = (.error error, after)) (hl : error.location? = some loc)

section
variable {text : String} {loc : Location}

theorem Lexer.Reached.moves {lexer : Lexer} (h : lexer.Reached text) :
    ∃ passed, Moves text.toList passed lexer.next.1 lexer.next.2 := by
  rcases h with ⟨calls, rfl⟩ | ⟨parser, hp, rfl⟩
  · obtain ⟨passed, h⟩ := placed_moved text calls
    exact ⟨passed, h.next⟩
  · obtain ⟨passed, h⟩ := hp.placed
    exact ⟨passed, h.next⟩

theorem Location.Reported.isIn (h : loc.Reported text) : loc.IsIn text.toList := by
  cases h with
  | token hr h =>
    obtain ⟨passed, hm⟩ := hr.moves
    rw [h] at hm
    cases hm with
    | token hs he hp => exact ⟨_, _, by rw [hp.text, List.append_assoc], rfl⟩
  | lexing hr h hl =>
    obtain ⟨passed, hm⟩ := hr.moves
    rw [h] at hm
    cases hm with
    | failure fault hp =>
      cases hl
      exact hp.isIn
  | parsing hr h hl =>
    obtain ⟨⟨found, hf, hin⟩, -⟩ := (positions_exact text).2 _ hr _ _ h
    obtain rfl : found = loc := Option.some.inj (hf.symm.trans hl)
    exact hin

theorem reported_of_process (h : (match (Parser.ofString text).process.1 with
    | .error error => error.location?
    | .ok _ => none) = some loc) : loc.Reported text := by
  cases hp : (Parser.ofString text).process with
  | mk result after =>
    rw [hp] at h
    cases result with
    | ok graph => cases h
    | error error => exact .parsing .start hp h

theorem caretDiagnostic_eq (text : String) (hl : 0 < loc.line) :
    caretDiagnostic text loc = withCaret (sourceLines text.toList) loc := by
  unfold caretDiagnostic withCaret
  simp only [Nat.pos_iff_ne_zero.1 hl, if_false]

theorem lt_line_behind {passed : List Char} {k : Nat} : k < (Location.behind passed).line ↔ k ≤ lineBreaks passed := by
  unfold Location.behind
  rw [Nat.add_comm]
  exact Nat.lt_succ_iff

theorem mem_withCaret {lines : List (List Char)} :
    '\r' ∈ (withCaret lines loc).toList ↔ ∃ line ∈ lines.take loc.line, '\r' ∈ line := by
  simp [withCaret, List.mem_flatMap]

end

/-- What is shown of a position is the lines as positions count them, up to its own, with a caret below, exactly if
no carriage return that stands alone is in one of these lines. In front of the caret there is as much as stands on
that line in front of the position. -/
theorem caretDiagnostic_exact (text : String) (loc : Location) (h : loc.Reported text) :
    (caretDiagnostic text loc = withCaret (countedLines text.toList) loc ↔
      ∀ passed, LoneReturn text.toList passed → loc.line < (Location.behind passed).line) ∧
    loc.line - 1 ≤ (countedLines text.toList).length ∧
    ∃ before, before <+: (countedLines text.toList).getD (loc.line - 1) [] ∧ loc.column - 1 = byteLength before := by
  obtain ⟨front, rest, ht, hloc⟩ := h.isIn
  have hpos : 0 < loc.line := by
    rw [hloc]
    exact Nat.lt_of_lt_of_le Nat.zero_lt_one (Nat.le_add_right ..)
  rw [caretDiagnostic_eq text hpos]
  refine ⟨⟨fun he passed hp => ?_, fun hlone => ?_⟩, ?_⟩
  · -- Otherwise the carriage return would be shown, and the counted lines have none.
    rw [lt_line_behind]
    by_contra hn
    have hshown := mem_withCaret.2 (mem_take_sourceLines hp (Nat.lt_of_not_le hn))
    rw [he, mem_withCaret] at hshown
    obtain ⟨line, hl, hr⟩ := hshown
    have hbreak := isBreak_countedLines text.toList line (List.mem_of_mem_take hl) _ hr
    cases hbreak
  · unfold withCaret
    rw [take_sourceLines fun passed hp => lt_line_behind.1 (hlone passed hp)]
  · have hline : loc.line - 1 = lineBreaks front := by
      rw [hloc]
      exact Nat.add_sub_cancel_left ..
    have hcolumn : loc.column - 1 = byteLength (lastLine front) := by
      rw [hloc]
      exact Nat.add_sub_cancel_left ..
    obtain ⟨hlength, hprefix⟩ := lastLine_prefix front rest
    rw [hline, ht]
    exact ⟨hlength, _, hprefix, hcolumn⟩

/-- A text whose lines end in carriage returns is shown as one line. -/
theorem returns_not_split : let text := "graph \x7b\r  a -- ;\r\x7d"
    Location.Reported text ⟨15, 2, 8⟩ ∧
      caretDiagnostic text ⟨15, 2, 8⟩ = "graph \x7b\r  a -- ;\r\x7d\n       ^\n" ∧
      withCaret (countedLines text.toList) ⟨15, 2, 8⟩ = "graph \x7b\n  a -- ;\n       ^\n" ∧
      caretDiagnostic text ⟨15, 2, 8⟩ ≠ withCaret (countedLines text.toList) ⟨15, 2, 8⟩ := by
  refine ⟨reported_of_process (by decide +kernel), ?_, ?_, ?_⟩ <;> decide

/-- In `arrowText` a carriage return stands alone on the line behind that of the failure. -/
theorem caretDiagnostic_exact_arrowText :
    Location.Reported arrowText ⟨17, 2, 4⟩ ∧
      caretDiagnostic arrowText ⟨17, 2, 4⟩ = withCaret (countedLines arrowText.toList) ⟨17, 2, 4⟩ ∧
      LoneReturn arrowText.toList "graph \x7b // a\r\n a -> b\n".toList ∧
      ∀ passed, LoneReturn arrowText.toList passed → 2 < (Location.behind passed).line := by
  have hr : Location.Reported arrowText ⟨17, 2, 4⟩ := reported_of_process (by decide +kernel)
  have he : caretDiagnostic arrowText ⟨17, 2, 4⟩ = withCaret (countedLines arrowText.toList) ⟨17, 2, 4⟩ := by
    decide
  exact ⟨hr, he, ⟨"\x7d".toList, by decide, by decide⟩, (caretDiagnostic_exact arrowText _ hr).1.1 he⟩

end DotLang
